import Silva.Mvq.Query

/-!
# Comparing and merging versions (`include/silva/index/mvq.hpp`)

The walks down two trees compare pointers to skip what the versions share. A tree does not know the
addresses of its nodes, so the outcome of the comparisons is a parameter, `PtrEq`; all that a walk
may rely on is that one address holds one tree.
-/

namespace Silva

/-- The child on one side, the left one for `false`. -/
def BaseNode.child : BaseNode → Bool → BaseNode
  | inteNode lSon _ _, false => lSon
  | inteNode _ rSon _, true => rSon
  | _, _ => nullptr

/-- The subtree at the end of a path. -/
def BaseNode.subtree (t : BaseNode) (path : List Bool) : BaseNode := path.foldl child t

/-- The outcomes of the pointer comparisons on a walk down two trees in parallel, by the path to the
pair of nodes. -/
structure PtrEq (node1 node2 : BaseNode) where
  /-- Both pointers at the end of the path are equal. -/
  same : List Bool → Bool
  /-- Equal pointers point to the same subtree. -/
  sound : ∀ path, same path = true → node1.subtree path = node2.subtree path

namespace PtrEq

variable {l r l' r' node1 node2 : BaseNode} {n n' : Nat}

/-- No two nodes are shared. -/
def distinct (node1 node2 : BaseNode) : PtrEq node1 node2 := ⟨fun _ => false, by simp⟩

def left (ptr : PtrEq (.inteNode l r n) (.inteNode l' r' n')) : PtrEq l l' :=
  ⟨fun path => ptr.same (false :: path), fun path => ptr.sound (false :: path)⟩

def right (ptr : PtrEq (.inteNode l r n) (.inteNode l' r' n')) : PtrEq r r' :=
  ⟨fun path => ptr.same (true :: path), fun path => ptr.sound (true :: path)⟩

/-- `node1 == node2`: the same address, or both null. -/
def eq (ptr : PtrEq node1 node2) : Bool :=
  ptr.same [] || (node1 = .nullptr ∧ node2 = .nullptr)

theorem eq_sound {ptr : PtrEq node1 node2} (h : ptr.eq = true) : node1 = node2 := by
  unfold eq at h
  rw [Bool.or_eq_true, decide_eq_true_eq] at h
  rcases h with h | ⟨h1, h2⟩
  · exact ptr.sound [] h
  · rw [h1, h2]

end PtrEq

namespace Tree

open BaseNode

/-! ## Differences of whole versions -/

/-- `leaf_inte_diff(P, x, b)`, the points that `x` has in addition and those that it misses. -/
def leafInteDiff : (P : List Point) → (x : BaseNode) → (b : Nat) → List Point × List Point
  | P, nullptr, _ => ([], P)
  | P, leafNode records, _ => mergePts P records
  | P, inteNode lSon rSon _, b =>
    let splitter := splitByBit P 0 P.length b
    let (LAdd, LRemove) := leafInteDiff (P.take splitter) lSon (b - 1)
    let (RAdd, RRemove) := leafInteDiff (P.drop splitter) rSon (b - 1)
    (LAdd ++ RAdd, LRemove ++ RRemove)

/-- `diff`, what `node2` adds to `node1` and what it removes. -/
def diff : (node1 node2 : BaseNode) → PtrEq node1 node2 → (b : Nat) → List Point × List Point :=
  fun node1 node2 ptr b =>
  if ptr.eq then ([], [])
  else
    match node1, node2, ptr with
    | nullptr, node2, _ => (collectRecords node2, [])
    | node1, nullptr, _ => ([], collectRecords node1)
    | leafNode records1, leafNode records2, _ => mergePts records1 records2
    | leafNode P, inteNode l2 r2 n2, _ => leafInteDiff P (inteNode l2 r2 n2) b
    | inteNode l1 r1 n1, leafNode P, _ =>
      let (remove, add) := leafInteDiff P (inteNode l1 r1 n1) b
      (add, remove)
    | inteNode l1 r1 _, inteNode l2 r2 _, ptr =>
      let (LAdd, LRemove) := diff l1 l2 ptr.left (b - 1)
      let (RAdd, RRemove) := diff r1 r2 ptr.right (b - 1)
      (LAdd ++ RAdd, LRemove ++ RRemove)

/-- `two_version_diff`. -/
def twoVersionDiff (node1 node2 : BaseNode) (ptr : PtrEq node1 node2) : List Point × List Point :=
  diff node1 node2 ptr 64

/-! ## Differences inside a query box -/

/-- `leaf_inte_diff` with a query box. With `reverse` the roles of `add` and `remove` change. -/
def leafInteDiffIn : (P : List Point) → (x : BaseNode) → (queryMbr curMbr : BoundingBox) →
    (xPrefix yPrefix : FT) → (b : Nat) → (xSplitter : Bool) → (retDiff : DiffType) →
    (reverse : Bool) → DiffType
  | P, nullptr, queryMbr, curMbr, _, _, _, _, retDiff, reverse =>
    if mbrMbrRelation curMbr queryMbr < 0 then retDiff
    else P.foldl
      (fun retDiff pt => if pointInMbr pt queryMbr then retDiff.removePoint pt reverse else retDiff)
      retDiff
  | P, leafNode records, queryMbr, curMbr, _, _, _, _, retDiff, reverse =>
    if mbrMbrRelation curMbr queryMbr < 0 then retDiff
    else mergePtsInto P records (fun p => pointInMbr p queryMbr) retDiff reverse
  | P, inteNode lSon rSon _, queryMbr, curMbr, xPrefix, yPrefix, b, xSplitter, retDiff, reverse =>
    if mbrMbrRelation curMbr queryMbr < 0 then retDiff
    else
      let splitter := splitByBit P 0 P.length b
      let (LBox, RBox, rxPrefix, ryPrefix) := computeCurBox curMbr xPrefix yPrefix b xSplitter
      leafInteDiffIn (P.drop splitter) rSon queryMbr RBox rxPrefix ryPrefix (b - 1) (!xSplitter)
        (leafInteDiffIn (P.take splitter) lSon queryMbr LBox xPrefix yPrefix (b - 1) (!xSplitter)
          retDiff reverse)
        reverse

/-- `range_report_node(x, …, ret_diff.add_cnt, ret_diff.add)`. -/
def reportAdd (x : BaseNode) (queryMbr curMbr : BoundingBox) (xPrefix yPrefix : FT) (b : Nat)
    (xSplitter : Bool) (retDiff : DiffType) : DiffType :=
  let (cnt, out) :=
    rangeReportNode x queryMbr curMbr xPrefix yPrefix b xSplitter (retDiff.addCnt, retDiff.add)
  { retDiff with addCnt := cnt, add := out }

/-- `range_report_node(x, …, ret_diff.remove_cnt, ret_diff.remove)`. -/
def reportRemove (x : BaseNode) (queryMbr curMbr : BoundingBox) (xPrefix yPrefix : FT) (b : Nat)
    (xSplitter : Bool) (retDiff : DiffType) : DiffType :=
  let (cnt, out) :=
    rangeReportNode x queryMbr curMbr xPrefix yPrefix b xSplitter (retDiff.removeCnt, retDiff.remove)
  { retDiff with removeCnt := cnt, remove := out }

/-- The two checks that `spatial_diff` starts with: the region misses the query, or it is shared. -/
def spatialSkip (shared : Bool) (queryMbr curMbr : BoundingBox) (retDiff rest : DiffType) :
    DiffType :=
  if mbrMbrRelation curMbr queryMbr < 0 then retDiff else if shared then retDiff else rest

/-- `spatial_diff`. -/
def spatialDiff : (node1 node2 : BaseNode) → PtrEq node1 node2 → (queryMbr curMbr : BoundingBox) →
    (xPrefix yPrefix : FT) → (b : Nat) → (xSplitter : Bool) → (retDiff : DiffType) → DiffType
  | nullptr, node2, ptr, queryMbr, curMbr, xPrefix, yPrefix, b, xSplitter, retDiff =>
    spatialSkip ptr.eq queryMbr curMbr retDiff
      (reportAdd node2 queryMbr curMbr xPrefix yPrefix b xSplitter retDiff)
  | leafNode P, nullptr, ptr, queryMbr, curMbr, xPrefix, yPrefix, b, xSplitter, retDiff =>
    spatialSkip ptr.eq queryMbr curMbr retDiff
      (reportRemove (leafNode P) queryMbr curMbr xPrefix yPrefix b xSplitter retDiff)
  | inteNode l1 r1 n1, nullptr, ptr, queryMbr, curMbr, xPrefix, yPrefix, b, xSplitter, retDiff =>
    spatialSkip ptr.eq queryMbr curMbr retDiff
      (reportRemove (inteNode l1 r1 n1) queryMbr curMbr xPrefix yPrefix b xSplitter retDiff)
  | leafNode records1, leafNode records2, ptr, queryMbr, curMbr, _, _, _, _, retDiff =>
    spatialSkip ptr.eq queryMbr curMbr retDiff
      (mergePtsInto records1 records2 (fun p => pointInMbr p queryMbr) retDiff false)
  | leafNode P, inteNode l2 r2 n2, ptr, queryMbr, curMbr, xPrefix, yPrefix, b, xSplitter, retDiff =>
    spatialSkip ptr.eq queryMbr curMbr retDiff
      (leafInteDiffIn P (inteNode l2 r2 n2) queryMbr curMbr xPrefix yPrefix b xSplitter retDiff false)
  | inteNode l1 r1 n1, leafNode P, ptr, queryMbr, curMbr, xPrefix, yPrefix, b, xSplitter, retDiff =>
    spatialSkip ptr.eq queryMbr curMbr retDiff
      (leafInteDiffIn P (inteNode l1 r1 n1) queryMbr curMbr xPrefix yPrefix b xSplitter retDiff true)
  | inteNode l1 r1 _, inteNode l2 r2 _, ptr, queryMbr, curMbr, xPrefix, yPrefix, b, xSplitter,
      retDiff =>
    let (LBox, RBox, rxPrefix, ryPrefix) := computeCurBox curMbr xPrefix yPrefix b xSplitter
    spatialSkip ptr.eq queryMbr curMbr retDiff
      (spatialDiff r1 r2 ptr.right queryMbr RBox rxPrefix ryPrefix (b - 1) (!xSplitter)
        (spatialDiff l1 l2 ptr.left queryMbr LBox xPrefix yPrefix (b - 1) (!xSplitter) retDiff))

/-- `spatial_two_version_diff`. -/
def spatialTwoVersionDiff (node1 node2 : BaseNode) (ptr : PtrEq node1 node2)
    (queryMbr curMbr : BoundingBox) (retDiff : DiffType) : DiffType :=
  spatialDiff node1 node2 ptr queryMbr curMbr 0 0 64 true retDiff

/-! ## Merging -/

/-- What `merge` returns. -/
structure MergeResult where
  /-- The merged version. -/
  newVer : BaseNode
  /-- Points that both sides insert. -/
  conflictInsert : List Point
  /-- Points that both sides move. -/
  conflictUpdate : List Point
  /-- Points that one side deletes and the other one moves. -/
  conflictDelete : List Point
  deriving DecidableEq, Repr

/-- `merge`. The updates without a conflict are computed and not used. -/
def merge (leafSize : Nat) (base node1 node2 : BaseNode) (ptr1 : PtrEq base node1)
    (ptr2 : PtrEq base node2) : Option MergeResult := do
  let (add1, remove1) := twoVersionDiff base node1 ptr1
  let (add2, remove2) := twoVersionDiff base node2 ptr2
  let (insert1, delete1, update1) := filterDiffResults add1 remove1
  let (insert2, delete2, update2) := filterDiffResults add2 remove2
  let (noConflictInsert, conflictInsert) := mergeByIdWithConflict insert1 insert2
  let (_noConflictUpdate, conflictUpdate) := mergeByIdWithConflict update1 update2
  let (noConflictDelete, conflictDelete) := mergeByIdWithConflict delete1 update2
  let (noConflictDelete1, conflictDelete1) := mergeByIdWithConflict delete2 update1
  let newVer ← commit leafSize base noConflictInsert (noConflictDelete ++ noConflictDelete1)
  return { newVer, conflictInsert, conflictUpdate, conflictDelete := conflictDelete ++ conflictDelete1 }

end Tree

end Silva
