import Silva.Mvq.Store

/-!
# The in-place updates (`include/silva/index/mvq.hpp`)

`build`, `batch_insert_sorted` and `batch_delete_sorted` work on `Tree::root` itself. They overwrite
nodes that other versions may share with it, so they only make sense on the store. The variables of
the memory are `Tree::root`, at index 0, and the versions that the persistent operations returned.
-/

namespace Silva

open RefCount (Ptr Mem Reach)
open Node (sons)

namespace Store

open Node

/-- `batch_insert_sorted_node`. The sons, which the source passes by reference, are stored when both
are known. No interior node sits at level 0. -/
def batchInsertSortedNode (leafSize : Nat) :
    (b : Nat) → Store → (x : Ptr) → (P : List Point) → Option (Store × Ptr)
  | b, store, none, P => buildNode leafSize b store P
  | b, store, some a, P => do
    match ← store[a]? with
    | leafNode records =>
      if b = 0 ∨ records.length + P.length ≤ leafSize then
        some (store.set a (leafNode (parlayMerge mortonCmp records P)), some a)
      else buildNode leafSize b store (parlayMerge mortonCmp records P)
    | inteNode lSon rSon _ =>
      match b with
      | 0 => none
      | b + 1 =>
        let splitter := splitByBit P 0 P.length (b + 1)
        let (store, lSon) ← (if 0 < splitter then
            batchInsertSortedNode leafSize b store lSon (P.take splitter)
          else some (store, lSon))
        let (store, rSon) ← (if splitter < P.length then
            batchInsertSortedNode leafSize b store rSon (P.drop splitter)
          else some (store, rSon))
        let store ← mergeNodes store lSon rSon a
        return (store, some a)

/-- `batch_insert_sorted`: the store and the root that it leaves behind. -/
def batchInsertSorted (leafSize : Nat) (store : Store) (root : Ptr) (P : List Point) :
    Option (Store × Ptr) :=
  if P.isEmpty then some (store, root)
  else if root = none then build leafSize store P
  else batchInsertSortedNode leafSize 64 store root P

/-- `batch_delete_sorted_node`. Its pointers stay what they are: a leaf may end up without records, and
an interior node with fewer than a leaf holds. -/
def batchDeleteSortedNode : (b : Nat) → Store → (x : Ptr) → (P : List Point) → Option Store
  | _, store, none, _ => some store
  | b, store, some a, P => do
    match ← store[a]? with
    | leafNode records => some (store.set a (leafNode (mergePts records P).2))
    | inteNode lSon rSon _ =>
      match b with
      | 0 => none
      | b + 1 =>
        let splitter := splitByBit P 0 P.length (b + 1)
        let store ← (if 0 < splitter then batchDeleteSortedNode b store lSon (P.take splitter)
          else some store)
        let store ← (if splitter < P.length then
            batchDeleteSortedNode b store rSon (P.drop splitter)
          else some store)
        mergeNodes store lSon rSon a

/-- `batch_delete_sorted`. -/
def batchDeleteSorted (store : Store) (root : Ptr) (P : List Point) : Option Store :=
  if P.isEmpty ∨ root = none then some store else batchDeleteSortedNode 64 store root P

end Store

/-! ## Calls -/

/-- A call on a tree object. A persistent operation names the version that it works on by its
variable, so version 0 is `Tree::root`. -/
inductive Call where
  /-- `build`, which makes a new `root`. -/
  | build (P : List Point)
  /-- An insertion into `root` in place. -/
  | batchInsertSorted (P : List Point)
  /-- A deletion from `root` in place. -/
  | batchDeleteSorted (P : List Point)
  /-- A persistent operation, which makes a new version. -/
  | persistent (op : Op)
  deriving DecidableEq, Repr

/-- A `Tree` as its constructor leaves it. -/
def fresh : Mem Node := { store := [], vars := [none] }

namespace Call

/-- The batches are given sorted. -/
def Sorted : Call → Prop
  | build P => Batch P
  | batchInsertSorted P => Batch P
  | batchDeleteSorted P => Batch P
  | persistent op => op.Sorted

/-- One call. The assignment in `build` drops the old root, which takes the nodes with it that only it
owns. -/
def apply (leafSize : Nat) (m : Mem Node) : Call → Option (Mem Node)
  | build P =>
    if P.isEmpty then some m
    else do
      let root ← m.vars[0]?
      let (store, x) ← Store.build leafSize m.store P
      let tmp := m.vars.length
      let m ← Tree.gcNocheck 66 { store, vars := m.vars.set 0 x ++ [root] } (.var tmp)
      return { m with vars := m.vars.eraseIdx tmp }
  | batchInsertSorted P => do
    let root ← m.vars[0]?
    let (store, x) ← Store.batchInsertSorted leafSize m.store root P
    return { store, vars := m.vars.set 0 x }
  | batchDeleteSorted P => do
    let root ← m.vars[0]?
    let store ← Store.batchDeleteSorted m.store root P
    return { m with store }
  | persistent op => op.applyStore leafSize m

end Call

/-- A sequence of calls. -/
def runCalls (leafSize : Nat) : List Call → Mem Node → Option (Mem Node)
  | [], m => some m
  | call :: calls, m => do
    let m ← call.apply leafSize m
    runCalls leafSize calls m

/-! ## Room in the tree -/

/-- The keys of a list of points, with repetitions. -/
def keys (P : List Point) : Multiset (ℕ ×ₗ ℕ) := (P.map Point.key : List (ℕ ×ₗ ℕ))

/-- The number of records that a batch leaves in a leaf. -/
def remaining (records P : List Point) : Nat := (keys records - keys P).card

/-- The number of records that are left behind a null pointer or a pointer to a leaf once the batch is
deleted in place from the tree at `root`. Other trees lose the records of the leaves they share. -/
inductive Remains (store : Store) (root : Ptr) (P : List Point) : Ptr → Nat → Prop where
  /-- Nothing is left behind a null pointer. -/
  | null : Remains store root P none 0
  /-- A leaf of the tree loses the records of the batch. -/
  | reached {a : Nat} {records : List Point} (ha : store[a]? = some (.leafNode records))
      (h : Reach sons store root a) : Remains store root P (some a) (remaining records P)
  /-- Another leaf keeps its records. -/
  | other {a : Nat} {records : List Point} (ha : store[a]? = some (.leafNode records))
      (h : ¬Reach sons store root a) : Remains store root P (some a) records.length

/-- The node lies below the top node of a retained root. -/
def Inner (m : Mem Node) (a : Nat) : Prop :=
  ∃ (c : Nat) (n : Node) (y : Ptr), some c ∈ m.vars ∧ m.store[c]? = some n ∧ y ∈ sons n ∧
    Reach sons m.store y a

/-- Deleting the batch in place leaves more records than fit into a leaf below every interior node,
other than a top node, that holds two leaves, one of them possibly missing. -/
def LeavesRoom (leafSize : Nat) (m : Mem Node) (P : List Point) : Prop :=
  ∀ (root : Ptr) (a : Nat) (l r : Ptr) (n i j : Nat), m.vars[0]? = some root → Inner m a →
    m.store[a]? = some (.inteNode l r n) → Remains m.store root P l i →
    Remains m.store root P r j → leafSize < i + j

/-- A persistent operation works on a version that there is, and a deletion in place leaves room. -/
def Call.Allowed (leafSize : Nat) (m : Mem Node) : Call → Prop
  | .batchDeleteSorted P => LeavesRoom leafSize m P
  | .persistent op => op.version < m.vars.length
  | _ => True

/-- Every call of the sequence is allowed in the memory that it is made in. -/
def Allowed (leafSize : Nat) : List Call → Mem Node → Prop
  | [], _ => True
  | call :: calls, m =>
    call.Allowed leafSize m ∧ ∀ m', call.apply leafSize m = some m' → Allowed leafSize calls m'

/-- Every persistent deletion from a retained root has a result, so its leaf casts hit leaves. -/
def CastsValid (leafSize : Nat) (m : Mem Node) : Prop :=
  ∀ x ∈ m.vars, ∀ P, (Store.multiVersionBatchDeleteSorted leafSize m.store P x).isSome

end Silva
