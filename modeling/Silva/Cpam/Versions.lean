import Silva.Cpam.Map

/-!
# Many versions of a map

A program keeps every map that it has made and makes new ones of them. `Cmd.exec` runs a command on the
trees; `Cmd.Allows` says what the command means for finite maps, which are partial functions of the key:
a batch that repeats a key leaves open which of its values is stored, and a union or an intersection
which of the two maps the value comes from.
-/

namespace Silva

namespace Cpam

variable {K V A : Type*} [LinearOrder K]

/-- One call of the interface. Numbers are positions in the list of versions. -/
inductive Cmd (K V : Type*) where
  /-- A new map of a sequence. -/
  | mapOf (S : List (K × V))
  /-- Insertion of a batch. -/
  | multiInsert (m : ℕ) (SS : List (K × V))
  /-- Deletion of the keys of a batch. -/
  | multiDelete (m : ℕ) (SS : List (K × V))
  /-- The union of two versions. -/
  | mapUnion (a b : ℕ)
  /-- The intersection of two versions. -/
  | mapIntersect (a b : ℕ)
  /-- The difference of two versions. -/
  | mapDifference (a b : ℕ)
  /-- The entries that satisfy a test. -/
  | filter (m : ℕ) (f : K × V → Bool)
  /-- The entries with keys in a range. -/
  | range (a : ℕ) (kl kr : K)
  /-- Removal of one key. -/
  | remove (m : ℕ) (k : K)

namespace Cmd

/-- The versions that a command names exist. -/
def InRange (n : ℕ) : Cmd K V → Prop
  | mapOf _ => True
  | multiInsert m _ | multiDelete m _ | filter m _ | range m _ _ | remove m _ => m < n
  | mapUnion a b | mapIntersect a b | mapDifference a b => a < n ∧ b < n

/-- The new version that a command makes. -/
def exec (ent : Entry K V A) (B : ℕ) (sampleSort : List (K × V) → List (K × V))
    (vs : List (Node K V A)) : Cmd K V → Option (Node K V A)
  | mapOf S => Cpam.mapOf ent B sampleSort S
  | multiInsert m SS => vs[m]?.bind fun m => Cpam.multiInsert ent B sampleSort m SS
  | multiDelete m SS => vs[m]?.bind fun m => Cpam.multiDelete ent B sampleSort m SS
  | mapUnion a b => vs[a]?.bind fun a => vs[b]?.bind fun b => Cpam.mapUnion ent B a b
  | mapIntersect a b => vs[a]?.bind fun a => vs[b]?.bind fun b => Cpam.mapIntersect ent B a b
  | mapDifference a b => vs[a]?.bind fun a => vs[b]?.bind fun b => Cpam.mapDifference ent B a b
  | filter m f => vs[m]?.bind fun m => mapFilter ent B m f
  | range a kl kr => vs[a]?.bind fun a => mapRange ent B a kl kr
  | remove m k => vs[m]?.bind fun m => Cpam.remove ent B m k

/-- A run of commands, which keeps all versions. -/
def run (ent : Entry K V A) (B : ℕ) (sampleSort : List (K × V) → List (K × V)) :
    List (Cmd K V) → List (Node K V A) → Option (List (Node K V A))
  | [], vs => some vs
  | cmd :: cmds, vs =>
    (cmd.exec ent B sampleSort vs).bind fun v => run ent B sampleSort cmds (vs ++ [v])

/-- The finite maps `s` that a command may make of the finite maps `ss`. -/
def Allows (ss : ℕ → K → Option V) : Cmd K V → (K → Option V) → Prop
  | mapOf S, s => ∀ k, (∃ v, (k, v) ∈ S ∧ s k = some v) ∨ (k ∉ S.map Prod.fst ∧ s k = none)
  | multiInsert m SS, s =>
    ∀ k, (∃ v, (k, v) ∈ SS ∧ s k = some v) ∨ (k ∉ SS.map Prod.fst ∧ s k = ss m k)
  | multiDelete m SS, s =>
    ∀ k, (k ∈ SS.map Prod.fst ∧ s k = none) ∨ (k ∉ SS.map Prod.fst ∧ s k = ss m k)
  | mapUnion a b, s => ∀ k, s k = (ss a k).or (ss b k) ∨ s k = (ss b k).or (ss a k)
  | mapIntersect a b, s => ∀ k,
    s k = (ss a k).bind (fun v => (ss b k).map fun _ => v) ∨
      s k = (ss b k).bind (fun v => (ss a k).map fun _ => v)
  | mapDifference a b, s => ∀ k, s k = if (ss b k).isSome then none else ss a k
  | filter m f, s => ∀ k, s k = (ss m k).filter fun v => f (k, v)
  | range a kl kr, s => ∀ k, s k = if kl ≤ k ∧ k ≤ kr then ss a k else none
  | remove m k', s => ∀ k, s k = if k = k' then none else ss m k

/-- The finite map with a number. -/
def version (ss : List (K → Option V)) (i : ℕ) : K → Option V := ss.getD i fun _ => none

/-- A run of the finite maps. -/
inductive AllowsRun : List (Cmd K V) → List (K → Option V) → List (K → Option V) → Prop where
  /-- No call. -/
  | nil (ss : List (K → Option V)) : AllowsRun [] ss ss
  /-- A call that makes one of the maps it may make, and the rest of the run. -/
  | cons {cmd : Cmd K V} {cmds : List (Cmd K V)} {ss ss' : List (K → Option V)} {s : K → Option V}
      (head : cmd.Allows (version ss) s) (tail : AllowsRun cmds (ss ++ [s]) ss') :
      AllowsRun (cmd :: cmds) ss ss'

/-- Every command of a run names versions that exist when it is run, `n` of them at the start. -/
def InRangeRun : ℕ → List (Cmd K V) → Prop
  | _, [] => True
  | n, cmd :: cmds => cmd.InRange n ∧ InRangeRun (n + 1) cmds

end Cmd

end Cpam

end Silva
