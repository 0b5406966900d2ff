import Silva.Lib.BoundedQueue
import Silva.Rlog.Version

/-!
# Nearest neighbours of a version (`knn_report` in `include/silva/baselines/rlog_tree.hpp`)

The pending inserts go through a bounded heap first, then the answer of the R-tree's nearest query,
until its first value that is refused. The heap has the largest identifier of the farthest values on
top; the test for a replacement prefers the larger identifier.
-/

namespace Silva

namespace Rlog

open BoundedQueue (push pop top)

/-- R-trees with a nearest query: the values of a tree that satisfy a predicate, at most so many, in
the order of the iterator. -/
structure NearestTree (T : Type*) extends RTree T where
  /-- The nearest values that satisfy the predicate. -/
  nearest : T → Point → ℕ → (Value → Bool) → List Value

/-- `calc_sqr_dist`. -/
def calcSqrDist (q : Point) (val : Value) : FT :=
  let dx := q.x - val.x
  let dy := q.y - val.y
  dx * dx + dy * dy

/-- The nearest query finds nearest values, in the order of their distance. -/
structure NearestTree.Answers {T : Type*} (rtree : NearestTree T) : Prop where
  /-- The tree holds the values it is built from. -/
  faithful : rtree.Faithful
  /-- The values are nearest ones. -/
  kNearest : ∀ base q k alive, KNearest (calcSqrDist q) k ((rtree.iterate base).filter alive)
    (rtree.nearest base q k alive)
  /-- They come in the order of their distance. -/
  sorted : ∀ base q k alive,
    (rtree.nearest base q k alive).Pairwise fun v w => calcSqrDist q v ≤ calcSqrDist q w

/-- `MaxHeapCmp`. -/
def maxHeapCmp (a b : FT × Value) : Bool :=
  if a.1 ≠ b.1 then a.1 < b.1 else a.2.id < b.2.id

/-- The test for a replacement of the top. -/
def replaces (c t : FT × Value) : Bool := c.1 < t.1 || (c.1 == t.1 && c.2.id > t.2.id)

/-- One iteration of the loop over the pending inserts. For `k = 0` the top of an empty queue would be
read. -/
def checkPending (k : ℕ) (maxHeap : List (FT × Value)) (c : FT × Value) : List (FT × Value) :=
  if maxHeap.length < k then push maxHeapCmp maxHeap c
  else
    match top maxHeap with
    | some t => if replaces c t then push maxHeapCmp (pop maxHeap) c else maxHeap
    | none => maxHeap

/-- The loop over the answer of the nearest query, which a refused value ends. -/
def checkBase (k : ℕ) (maxHeap : List (FT × Value)) : List (FT × Value) → List (FT × Value)
  | [] => maxHeap
  | c :: cs =>
    if maxHeap.length < k then checkBase k (push maxHeapCmp maxHeap c) cs
    else
      match top maxHeap with
      | some t =>
        if replaces c t then checkBase k (push maxHeapCmp (pop maxHeap) c) cs else maxHeap
      | none => maxHeap

/-- The values with their distances. -/
def withDist (q : Point) (vals : List Value) : List (FT × Value) :=
  vals.map fun val => (calcSqrDist q val, val)

variable {T : Type*} (rtree : NearestTree T)

/-- The live base values that the nearest query yields. The cast of `k` to `unsigned` truncates. -/
def liveBase (node : VersionNode T) (q : Point) (k : ℕ) : List Value :=
  let view := getQueryView node
  match view.outBase with
  | some base => rtree.nearest base q (k % 2 ^ 32) fun v => v.id ∉ view.outRemovedIds
  | none => []

/-- `knn_report`. -/
def knnReport (node : VersionNode T) (q : Point) (k : ℕ) : List Value :=
  let view := getQueryView node
  let maxHeap := (withDist q view.outPendingInserts).foldl (checkPending k) []
  let maxHeap := checkBase k maxHeap (withDist q (liveBase rtree node q k))
  maxHeap.map Prod.snd

/-! ## Versions -/

/-- The versions that grow from `map_init`. -/
inductive Grown (rtree : RTree T) : VersionNode T → Prop where
  /-- The version that `map_init` makes of its points. -/
  | mapInit (basePoints : List Value) : Grown rtree (mapInit rtree basePoints)
  /-- The version that a call makes of one that is there. -/
  | apply {node next : VersionNode T} (h : Grown rtree node) (s : Step)
      (hnext : s.apply rtree node = some next) : Grown rtree next

/-- Versions that differ only in the order of the points inside their insert lists. -/
inductive SameUpToOrder : VersionNode T → VersionNode T → Prop where
  /-- No version. -/
  | nullptr : SameUpToOrder .nullptr .nullptr
  /-- Two nodes that differ in their parents and in the order of their inserts. -/
  | node {parent parent' : VersionNode T} {ins ins' : List Value}
      (hparent : SameUpToOrder parent parent') (hins : ins.Perm ins') (depth : ℕ)
      (rem : List Value) (cachedBase : Option T) (logSize baseSize : ℕ) :
      SameUpToOrder (.node parent depth ins rem cachedBase logSize baseSize)
        (.node parent' depth ins' rem cachedBase logSize baseSize)

/-! ## Ties

When values of one insert list compete for the last places, the order of their arrival may decide. The
notions below say when it does not. They only count values of the insert lists and of the base.
-/

/-- The pending inserts of each insert list of the path, oldest list first. -/
def pendingLists (node : VersionNode T) (q : Point) : List (List (FT × Value)) :=
  node.path.1.reverse.map fun n => withDist q
    (n.deltaInserts.filter fun ins => ins.id ∉ (getQueryView node).outRemovedIds)

/-- How many values are nearer than a distance. -/
def nearer (d : FT) (vals : List (FT × Value)) : ℕ := vals.countP fun c => c.1 < d

/-- How many values lie within a distance. -/
def within (d : FT) (vals : List (FT × Value)) : ℕ := vals.countP fun c => c.1 ≤ d

/-- How many values at a distance have a smaller identifier than the given one. -/
def tiedBelow (d : FT) (vals : List (FT × Value)) (id : ℕ) : ℕ :=
  vals.countP fun c => c.1 = d ∧ c.2.id < id

/-- A tie of pending values at the last place. -/
structure Tie (k : ℕ) (lists : List (List (FT × Value))) (base : List (FT × Value)) where
  /-- The distance of the values in question. -/
  d : FT
  /-- The lists that all find room. -/
  before : List (List (FT × Value))
  /-- The list with more values within the distance than there is room for. -/
  crossing : List (FT × Value)
  /-- The lists that come later. -/
  after : List (List (FT × Value))
  /-- These are all lists. -/
  lists_eq : lists = before ++ crossing :: after
  /-- The values of the first lists all find room. -/
  room : within d before.flatten ≤ k
  /-- Those of the crossing list do not. -/
  full : k < within d (before.flatten ++ crossing)
  /-- The nearer values, those of the base included, leave a place. -/
  short : nearer d (lists.flatten ++ base) < k

namespace Tie

variable {k : ℕ} {lists : List (List (FT × Value))} {base : List (FT × Value)}
  (tie : Tie k lists base)

/-- The places that the nearer values leave. -/
def places : ℕ := k - nearer tie.d (lists.flatten ++ base)

/-- In some order of the lists, no nearer value comes after `x`. -/
def MayBeLast (x : FT × Value) : Prop :=
  ∃ xs X ys, tie.crossing :: tie.after = xs ++ X :: ys ∧ x ∈ X ∧ x.1 = tie.d ∧
    nearer tie.d (ys.flatten ++ base) = 0

/-- In every order of the lists, `z` comes when the heap is full and no nearer value comes after it:
a value of a later list, or the first one of the base at that distance. -/
def IsLast (z : FT × Value) : Prop :=
  (∃ xs X ys, tie.after = xs ++ X :: ys ∧ z ∈ X ∧ z.1 = tie.d ∧
      nearer tie.d (X ++ ys.flatten ++ base) = 0) ∨
    base.find? (fun c => c.1 = tie.d) = some z

/-- Whichever values fill the heap, `z` has a larger identifier than the ones that the tied values of
the heap with the smallest identifiers have. -/
def Outranks (z : FT × Value) : Prop :=
  tie.places ≤ tiedBelow tie.d tie.before.flatten z.2.id ∨
    within tie.d (tie.before.flatten ++ tie.crossing) -
      tiedBelow tie.d (tie.before.flatten ++ tie.crossing) z.2.id + tie.places ≤ k

/-- The values below the top are those of the lists before. -/
def LowSettled : Prop :=
  within tie.d tie.before.flatten < k → ∀ x ∈ tie.crossing, x.1 = tie.d →
    tie.places ≤ tiedBelow tie.d tie.before.flatten x.2.id + 1

/-- No nearer value comes that could remove the top. -/
def NoneNearer : Prop := nearer tie.d (tie.crossing ++ tie.after.flatten ++ base) = 0

/-- The top is a value of the lists before. -/
def TopBefore : Prop :=
  (within tie.d tie.before.flatten < k → ∀ x ∈ tie.crossing, x.1 = tie.d →
      tie.places ≤ tiedBelow tie.d tie.before.flatten x.2.id) ∧
    ∀ x, tie.MayBeLast x → tiedBelow tie.d tie.before.flatten x.2.id < tie.places

/-- The top is a value that comes last in every order. -/
def TopLast : Prop :=
  ∃ z, tie.IsLast z ∧ tie.Outranks z ∧ ∀ x, tie.MayBeLast x → x.2.id ≤ z.2.id

/-- The order inside the lists does not decide who gets the last places. -/
structure Settled : Prop where
  /-- The tied values below the top are the same in every order. -/
  low : tie.LowSettled
  /-- So is the top. -/
  top : tie.NoneNearer ∨ tie.TopBefore ∨ tie.TopLast

end Tie

end Rlog

end Silva
