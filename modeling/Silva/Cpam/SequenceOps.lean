import Silva.Cpam.BalanceUtils
import Silva.Cpam.WellFormed

/-!
# Sequences (`third_party/cpam/sequence_ops.h`)

The operations that only look at the order of the entries. As in the joins, `none` is an assertion about
the arguments that fails, a wrong cast or an overflow of a buffer.
-/

namespace Silva

namespace Cpam

open Node

variable {K V A T : Type*} (ent : Entry K V A) (B : ℕ)

/-- `to_tree`: a block as a tree, by way of a buffer for `2 * B` entries. -/
def toTree (es : List (K × V)) : Option (Node K V A) :=
  if 0 < es.length ∧ es.length ≤ 2 * B then some (toTreeImpl ent B es 0) else none

/-- `expose`: a block is made a tree first. -/
def expose : Node K V A → Option (Node K V A × (K × V) × Node K V A)
  | null => none
  | regular lc e rc _ _ => some (lc, e, rc)
  | compressed es _ =>
    match toTree ent B es with
    | some (regular lc e rc _ _) => some (lc, e, rc)
    | _ => none

/-- The end of every base case: the buffer `output` becomes a tree. -/
def buildTree (output : List (K × V)) : Option (Node K V A) :=
  if output.length < B then some (toTreeImpl ent B output 0)
  else if output.length ≤ kBaseCaseSize B then some (makeCompressed ent B output)
  else none

/-! ## Taking trees apart -/

variable {ent B}

theorem entries_expose {t lc rc : Node K V A} {e : K × V} (h : expose ent B t = some (lc, e, rc)) :
    lc.entries ++ e :: rc.entries = t.entries := by
  cases t with
  | null => cases h
  | regular lc' e' rc' s augVal =>
    cases h
    rfl
  | compressed es augVal =>
    have hentries : (toTreeImpl ent B es 0).entries = es := entries_toTreeImpl es 0
    rw [expose, toTree] at h
    by_cases hes : 0 < es.length ∧ es.length ≤ 2 * B
    · rw [if_pos hes] at h
      cases ht : toTreeImpl ent B es 0 with
      | null => simp [ht] at h
      | compressed es' augVal' => simp [ht] at h
      | regular lc' e' rc' s augVal' =>
        rw [ht] at h hentries
        cases h
        exact hentries
    · rw [if_neg hes] at h
      cases h

theorem length_expose {t lc rc : Node K V A} {e : K × V} (h : expose ent B t = some (lc, e, rc)) :
    lc.entries.length < t.entries.length ∧ rc.entries.length < t.entries.length := by
  rw [← entries_expose h, List.length_append, List.length_cons]
  omega

variable (ent B)

/-! ## Putting trees together -/

/-- `join2_i`. -/
def join2 (b1 b2 : Node K V A) : Option (Node K V A) :=
  if b1.isNull then some b2
  else if b2.isNull then some b1
  else if b1.size > b2.size then
    if b1.isCompressed || willBeCompressed B (b1.size + b2.size) then
      makeCompressedOf ent B b1 b2 none
    else
      match _h : expose ent B b1 with
      | some (lc, e, rc) => (join2 rc b2).bind fun r => nodeJoin ent B lc r e
      | none => none
  else if b2.isCompressed || willBeCompressed B (b1.size + b2.size) then
    makeCompressedOf ent B b1 b2 none
  else
    match _h : expose ent B b2 with
    | some (lc, e, rc) => (join2 b1 lc).bind fun l => nodeJoin ent B l rc e
    | none => none
termination_by b1.entries.length + b2.entries.length
decreasing_by
  · have := length_expose _h
    omega
  · have := length_expose _h
    omega

/-- `from_array`. -/
def fromArray (es : List (K × V)) : Option (Node K V A) :=
  match es with
  | [] => some null
  | [e] => some (single ent e)
  | e0 :: e1 :: tail =>
    let es := e0 :: e1 :: tail
    if B ≤ es.length ∧ es.length ≤ 2 * B then some (makeCompressed ent B es)
    else
      let mid := es.length / 2
      match _h : es.drop mid with
      | [] => none
      | m :: rest =>
        (fromArray (es.take mid)).bind fun l => (fromArray rest).bind fun r => nodeJoin ent B l r m
termination_by es.length
decreasing_by
  · simp only [List.length_take, List.length_cons]
    omega
  · have := congrArg List.length _h
    simp only [es, mid, List.length_drop, List.length_cons] at this ⊢
    omega

/-- `filter`, with `filter_bc` for a block. -/
def filter (f : K × V → Bool) : Node K V A → Option (Node K V A)
  | null => some null
  | compressed es _ => buildTree ent B (es.filter f)
  | regular lc e rc _ _ =>
    (filter f lc).bind fun l => (filter f rc).bind fun r =>
      if f e then nodeJoin ent B l r e else join2 ent B l r

/-! ## Looking at entries -/

variable {ent B}

/-- `select`. -/
def select : Node K V A → ℕ → Option (K × V)
  | null, _ => none
  | compressed es _, rank => es[rank]?
  | regular lc e rc _ _, rank =>
    if rank > lc.size then select rc (rank - lc.size - 1)
    else if rank < lc.size then select lc rank
    else some e

/-- `foreach_index`: the calls of its function, in the order in which one thread makes them. -/
def foreachIndex : Node K V A → ℕ → List ((K × V) × ℕ)
  | null, _ => []
  | compressed es _, start => es.zipIdx start
  | regular lc e rc _ _, start =>
    (e, start + lc.size) :: (foreachIndex lc start ++ foreachIndex rc (start + lc.size + 1))

/-- `map_reduce`. -/
def mapReduce (identity : T) (add : T → T → T) (f : K × V → T) : Node K V A → T
  | null => identity
  | compressed es _ => es.foldl (fun v a => add v (f a)) identity
  | regular lc e rc _ _ =>
    add (mapReduce identity add f lc) (add (f e) (mapReduce identity add f rc))

variable (ent B) in
/-- The joins of the library for the traversals that use them. On PaC trees they do not fail. -/
def pacJoins : Joins K V A where
  join l e r := (nodeJoin ent B l r e).getD null
  join2 l r := (join2 ent B l r).getD null

end Cpam

end Silva
