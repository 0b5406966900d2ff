import Silva.Cpam.Versions
import Silva.Mvq.History
import Silva.Pacz.Map
import Silva.Pacz.Tree

/-!
# The index on the trees of the library (`include/silva/index/pacz.hpp`)

The functions of the index once more, with the operations of `cpam` in place of an ordered map. A program
that uses the index keeps all versions that it has made.
-/

namespace Silva

namespace PACZ

namespace Index

variable (sampleSort : List (KeyType × Point) → List (KeyType × Point))

/-- `map_init`. -/
def mapInit (P : List Point) : Option Node := Cpam.mapOf entry blockSize sampleSort (toEntries P)

/-- `map_insert`. -/
def mapInsert (P : List Point) (mmp : Node) : Option Node :=
  Cpam.multiInsert entry blockSize sampleSort mmp (toEntries P)

/-- `map_delete`. -/
def mapDelete (P : List Point) (mmp : Node) : Option Node :=
  Cpam.multiDelete entry blockSize sampleSort mmp (toEntries P)

/-- `map_commit`. -/
def mapCommit (mmp : Node) (PInsert PDelete : List Point) : Option Node :=
  (mapDelete sampleSort PDelete mmp).bind (mapInsert sampleSort PInsert)

/-- `map_diff`. -/
def mapDiff (lhs rhs : Node) : Option (List Point × List Point) :=
  (Cpam.mapDifference entry blockSize rhs lhs).bind fun add =>
    (Cpam.mapDifference entry blockSize lhs rhs).map fun remove => (treeValues add, treeValues remove)

/-- What `map_merge` makes of two differences. -/
structure Resolution where
  /-- The insertions that go into the merged version. -/
  insert : List Point
  /-- The deletions that go into the merged version. -/
  delete : List Point
  /-- Points that both sides insert. -/
  conflictInsert : List Point
  /-- Points that both sides move. -/
  conflictUpdate : List Point
  /-- Points that one side deletes and the other one moves. -/
  conflictDelete : List Point

/-- The part of `map_merge` that only works on lists. The updates without a conflict are not used. -/
def resolve (add1 remove1 add2 remove2 : List Point) : Resolution :=
  let (insert1, delete1, update1) := filterDiffResults add1 remove1
  let (insert2, delete2, update2) := filterDiffResults add2 remove2
  let (noConflictInsert, conflictInsert) := mergeByIdWithConflict insert1 insert2
  let (_noConflictUpdate, conflictUpdate) := mergeByIdWithConflict update1 update2
  let (noConflictDelete, conflictDelete) := mergeByIdWithConflict delete1 update2
  let (noConflictDelete1, conflictDelete1) := mergeByIdWithConflict delete2 update1
  { insert := noConflictInsert, delete := noConflictDelete ++ noConflictDelete1, conflictInsert,
    conflictUpdate, conflictDelete := conflictDelete ++ conflictDelete1 }

/-- `map_merge`. -/
def mapMerge (base v1 v2 : Node) : Option (MergeResult Node) :=
  (mapDiff base v1).bind fun (add1, remove1) => (mapDiff base v2).bind fun (add2, remove2) =>
    let r := resolve add1 remove1 add2 remove2
    (mapCommit sampleSort base r.insert r.delete).map fun newVer =>
      { newVer, conflictInsert := r.conflictInsert, conflictUpdate := r.conflictUpdate,
        conflictDelete := r.conflictDelete }

/-- `map_difference` for the spatial difference. On versions it does not fail. -/
def difference (m m' : Node) : Node := (Cpam.mapDifference entry blockSize m m').getD .null

/-- `map_spatial_diff`, with the joins of the library. -/
def mapSpatialDiff (lhs rhs : Node) (query : BoundingBox) : DiffType :=
  PACZ.mapSpatialDiff (Cpam.pacJoins entry blockSize) difference lhs rhs query

/-! ## Runs -/

/-- A call that makes a new version. Numbers are positions in the list of versions. -/
inductive Call where
  /-- A new version of a batch. -/
  | mapInit (P : List Point)
  /-- Insertion of a batch. -/
  | mapInsert (m : ℕ) (P : List Point)
  /-- Deletion of a batch. -/
  | mapDelete (m : ℕ) (P : List Point)
  /-- A commit of two batches. -/
  | mapCommit (m : ℕ) (PInsert PDelete : List Point)
  /-- A merge of two versions with a base. -/
  | mapMerge (base v1 v2 : ℕ)

namespace Call

/-- The versions that a call names exist. -/
def InRange (n : ℕ) : Call → Prop
  | mapInit _ => True
  | mapInsert m _ | mapDelete m _ | mapCommit m _ _ => m < n
  | mapMerge base v1 v2 => base < n ∧ v1 < n ∧ v2 < n

/-- The new version. -/
def exec (vs : List Node) : Call → Option Node
  | mapInit P => Index.mapInit sampleSort P
  | mapInsert m P => vs[m]?.bind (Index.mapInsert sampleSort P)
  | mapDelete m P => vs[m]?.bind (Index.mapDelete sampleSort P)
  | mapCommit m PInsert PDelete => vs[m]?.bind fun m => Index.mapCommit sampleSort m PInsert PDelete
  | mapMerge base v1 v2 =>
    vs[base]?.bind fun base => vs[v1]?.bind fun v1 => vs[v2]?.bind fun v2 =>
      (Index.mapMerge sampleSort base v1 v2).map MergeResult.newVer

/-- A run of calls, which keeps all versions. -/
def run : List Call → List Node → Option (List Node)
  | [], vs => some vs
  | c :: cs, vs => (c.exec sampleSort vs).bind fun v => run cs (vs ++ [v])

/-- Every call of a run names versions that exist when it is made, `n` of them at the start. -/
def InRangeRun : ℕ → List Call → Prop
  | _, [] => True
  | n, c :: cs => c.InRange n ∧ InRangeRun (n + 1) cs

end Call

/-! ## What the calls mean

A version stands for its points in key order. -/

/-- `s` is `C` after a batch was inserted: under a key that the batch repeats it may have any of the
points with that key. -/
structure Inserted (C P s : List Point) : Prop where
  /-- The keys ascend, each of them once. -/
  sorted : s.Pairwise (·.key < ·.key)
  /-- There are points of the batch and old ones under other keys. -/
  of_mem : ∀ p ∈ s, p ∈ withCodes P ∨ (p ∈ C ∧ p.key ∉ (withCodes P).map Point.key)
  /-- All keys of the batch are there. -/
  key_mem : ∀ p ∈ withCodes P, p.key ∈ s.map Point.key
  /-- Old points under other keys stay. -/
  mem : ∀ p ∈ C, p.key ∉ (withCodes P).map Point.key → p ∈ s

/-- What a merge of the versions with these points commits. -/
def resolveVersions (base v1 v2 : List Point) : Resolution :=
  resolve (minus v1 base) (minus base v1) (minus v2 base) (minus base v2)

/-- The points `s` of the version that a call may make of versions with the points `ss`. -/
def Call.Allows (ss : ℕ → List Point) : Call → List Point → Prop
  | mapInit P, s => Inserted [] P s
  | mapInsert m P, s => Inserted (ss m) P s
  | mapDelete m P, s => s = minus (ss m) (withCodes P)
  | mapCommit m PInsert PDelete, s => Inserted (minus (ss m) (withCodes PDelete)) PInsert s
  | mapMerge base v1 v2, s =>
    let r := resolveVersions (ss base) (ss v1) (ss v2)
    Inserted (minus (ss base) (withCodes r.delete)) r.insert s

/-- The points of a numbered version. -/
def version (ss : List (List Point)) (i : ℕ) : List Point := ss.getD i []

/-- A run on lists of points. -/
inductive AllowsRun : List Call → List (List Point) → List (List Point) → Prop where
  /-- No call. -/
  | nil (ss : List (List Point)) : AllowsRun [] ss ss
  /-- A call that makes one of the versions it may make, and the rest of the run. -/
  | cons {c : Call} {cs : List Call} {ss ss' : List (List Point)} {s : List Point}
      (head : c.Allows (version ss) s) (tail : AllowsRun cs (ss ++ [s]) ss') :
      AllowsRun (c :: cs) ss ss'

/-- A tree that the index can have made: a map that lists points under their own keys. -/
structure IsVersion (t : Node) : Prop where
  isPacMap : Cpam.IsPacMap entry blockSize t
  keyed : ∀ e ∈ t.entries, e.1 = e.2.key

end Index

end PACZ

end Silva
