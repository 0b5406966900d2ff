import Silva.Mvq.Tree
import Silva.Lib.BoundedQueue

/-!
# Queries on one version (`include/silva/index/mvq.hpp`)

Every query walks down with the box of the subtree, the coordinate prefix of its region and the
dimension that the next split is on. The counter `query_nodes_touched` is left out.
-/

namespace Silva

namespace Tree

open BaseNode

/-! ## Range queries -/

/-- `range_count_node`. Unless the boxes are disjoint a null `x` would be dereferenced. -/
def rangeCountNode : BaseNode → (queryMbr curMbr : BoundingBox) → (xPrefix yPrefix : FT) →
    (b : Nat) → (xSplitter : Bool) → Option Nat
  | nullptr, queryMbr, curMbr, _, _, _, _ =>
    if mbrMbrRelation curMbr queryMbr < 0 then some 0 else none
  | leafNode records, queryMbr, curMbr, _, _, _, _ =>
    let flag := mbrMbrRelation curMbr queryMbr
    if flag < 0 then some 0
    else if flag > 0 then some records.length
    else some (records.countP fun p => pointInMbr p queryMbr)
  | inteNode lSon rSon numPts, queryMbr, curMbr, xPrefix, yPrefix, b, xSplitter =>
    let flag := mbrMbrRelation curMbr queryMbr
    if flag < 0 then some 0
    else if flag > 0 then some numPts
    else do
      let (LBox, RBox, rxPrefix, ryPrefix) := computeCurBox curMbr xPrefix yPrefix b xSplitter
      let retL ← (if lSon ≠ nullptr then
          rangeCountNode lSon queryMbr LBox xPrefix yPrefix (b - 1) (!xSplitter)
        else some 0)
      let retR ← (if rSon ≠ nullptr then
          rangeCountNode rSon queryMbr RBox rxPrefix ryPrefix (b - 1) (!xSplitter)
        else some 0)
      return retL + retR

/-- `range_count`. -/
def rangeCount (x : BaseNode) (queryMbr curMbr : BoundingBox) : Option Nat :=
  rangeCountNode x queryMbr curMbr 0 0 64 true

/-- `for (auto &p : records) if (point_in_mbr(p, query_mbr)) out[cnt++] = p`. -/
def reportRecords (queryMbr : BoundingBox) (records : List Point) (ret : Nat × List Point) :
    Nat × List Point :=
  records.foldl
    (fun ret p => if pointInMbr p queryMbr then (ret.1 + 1, ret.2.set ret.1 p) else ret) ret

/-- `range_report_node`, on `(cnt, out)`. -/
def rangeReportNode : BaseNode → (queryMbr curMbr : BoundingBox) → (xPrefix yPrefix : FT) →
    (b : Nat) → (xSplitter : Bool) → Nat × List Point → Nat × List Point
  | nullptr, _, _, _, _, _, _, ret => ret
  | leafNode records, queryMbr, curMbr, _, _, _, _, ret =>
    if mbrMbrRelation curMbr queryMbr < 0 then ret else reportRecords queryMbr records ret
  | inteNode lSon rSon _, queryMbr, curMbr, xPrefix, yPrefix, b, xSplitter, ret =>
    if mbrMbrRelation curMbr queryMbr < 0 then ret
    else
      let (LBox, RBox, rxPrefix, ryPrefix) := computeCurBox curMbr xPrefix yPrefix b xSplitter
      rangeReportNode rSon queryMbr RBox rxPrefix ryPrefix (b - 1) (!xSplitter)
        (rangeReportNode lSon queryMbr LBox xPrefix yPrefix (b - 1) (!xSplitter) ret)

/-- `range_report`. -/
def rangeReport (x : BaseNode) (queryMbr curMbr : BoundingBox) (cnt : Nat) (out : List Point) :
    Nat × List Point :=
  rangeReportNode x queryMbr curMbr 0 0 64 true (cnt, out)

/-- `collect_records` with a query box. It has a copy of `compute_cur_box` in its body. -/
def collectRecordsIn : BaseNode → (queryMbr curMbr : BoundingBox) → (xPrefix yPrefix : FT) →
    (b : Nat) → (xSplitter : Bool) → List Point
  | nullptr, _, _, _, _, _, _ => []
  | leafNode records, queryMbr, curMbr, _, _, _, _ =>
    let flag := mbrMbrRelation curMbr queryMbr
    if flag < 0 then []
    else if flag > 0 then records
    else records.filter fun p => pointInMbr p queryMbr
  | inteNode lSon rSon _, queryMbr, curMbr, xPrefix, yPrefix, b, xSplitter =>
    if mbrMbrRelation curMbr queryMbr < 0 then []
    else
      let (LBox, RBox, rxPrefix, ryPrefix) := computeCurBox curMbr xPrefix yPrefix b xSplitter
      collectRecordsIn lSon queryMbr LBox xPrefix yPrefix (b - 1) (!xSplitter) ++
        collectRecordsIn rSon queryMbr RBox rxPrefix ryPrefix (b - 1) (!xSplitter)

/-! ## Nearest neighbours -/

open BoundedQueue (offer top)

/-- The scan of a leaf in `knn_report_node`. -/
def knnScan (k : Nat) (queryPoint : Point) (records : List Point) (nnRes : List NnPair) :
    List NnPair :=
  records.foldl (fun nnRes p => offer nnPairCmp k nnRes (p, pointPointSqrdis p queryPoint)) nnRes

/-- The test before a child is visited: `nn_res.size() < k || sqrdis <= nn_res.top().second`. For
`k > 0` the top is only read where there is one. -/
def knnVisits (k : Nat) (nnRes : List NnPair) (sqrdis : FT) : Bool :=
  nnRes.length < k || (top nnRes).any fun t => sqrdis ≤ t.2

/-- `knn_report_node`, with the choice of the child that is visited first left open: `leftFirst` may
look at the two children, their distances and the queue. -/
def knnReportNodeBy (leftFirst : BaseNode → BaseNode → FT → FT → List NnPair → Bool) :
    BaseNode → (k : Nat) → (queryPoint : Point) → (curMbr : BoundingBox) → (xPrefix yPrefix : FT) →
    (b : Nat) → (xSplitter : Bool) → List NnPair → List NnPair
  | nullptr, _, _, _, _, _, _, _, nnRes => nnRes
  | leafNode records, k, queryPoint, _, _, _, _, _, nnRes => knnScan k queryPoint records nnRes
  | inteNode lSon rSon _, k, queryPoint, curMbr, xPrefix, yPrefix, b, xSplitter, nnRes =>
    let (LBox, RBox, rxPrefix, ryPrefix) := computeCurBox curMbr xPrefix yPrefix b xSplitter
    let lSonSqrdis := if lSon ≠ nullptr then pointMbrSqrdis queryPoint LBox else ftInfMax
    let rSonSqrdis := if rSon ≠ nullptr then pointMbrSqrdis queryPoint RBox else ftInfMax
    let goLeft := fun nnRes =>
      if knnVisits k nnRes lSonSqrdis then
        knnReportNodeBy leftFirst lSon k queryPoint LBox xPrefix yPrefix (b - 1) (!xSplitter) nnRes
      else nnRes
    let goRight := fun nnRes =>
      if knnVisits k nnRes rSonSqrdis then
        knnReportNodeBy leftFirst rSon k queryPoint RBox rxPrefix ryPrefix (b - 1) (!xSplitter) nnRes
      else nnRes
    if leftFirst lSon rSon lSonSqrdis rSonSqrdis nnRes then goRight (goLeft nnRes)
    else goLeft (goRight nnRes)

/-- `knn_report_node`: the nearer child first. -/
def knnReportNode : BaseNode → (k : Nat) → (queryPoint : Point) → (curMbr : BoundingBox) →
    (xPrefix yPrefix : FT) → (b : Nat) → (xSplitter : Bool) → List NnPair → List NnPair :=
  knnReportNodeBy fun _ _ lSonSqrdis rSonSqrdis _ => lSonSqrdis ≤ rSonSqrdis

/-- `knn_report` on the tree with the given root: the queue, the farthest neighbour on top. -/
def knnReport (root : BaseNode) (k : Nat) (queryPoint : Point) (curMbr : BoundingBox) :
    List NnPair :=
  knnReportNode root k queryPoint curMbr 0 0 64 true []

end Tree

end Silva
