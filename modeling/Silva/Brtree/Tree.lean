import Silva.Cpam.AugmentedOps
import Silva.Mvq.Query

/-!
# The binary tree with boxes (`namespace BRTree` in `include/silva/index/pacz.hpp`)

The tree splits a sequence in the middle. Its queries come in two versions: one looks at the box that
every node stores, the other works out the region of a node from coordinate prefixes, as if the
sequence were split by the bits of the Morton code.
-/

namespace Silva

namespace BRTree

/-- What a `shared_ptr<BaseNode>` points to. -/
inductive BaseNode where
  /-- The null pointer: an empty tree. -/
  | nullptr
  /-- A leaf with a box around its records. -/
  | leafNode (mbr : BoundingBox) (records : List Point)
  /-- An interior node with a box around both sons and their number of points. -/
  | inteNode (mbr : BoundingBox) (lSon rSon : BaseNode) (numPts : ℕ)
  deriving DecidableEq, Repr, Inhabited

namespace BaseNode

/-- `x == nullptr`. -/
def isNull : BaseNode → Bool
  | nullptr => true
  | _ => false

/-- `get_num_points`. -/
def getNumPoints : BaseNode → ℕ
  | nullptr => 0
  | leafNode _ records => records.length
  | inteNode _ _ _ numPts => numPts

/-- `x->mbr`. -/
def mbr : BaseNode → BoundingBox
  | nullptr => default
  | leafNode mbr _ => mbr
  | inteNode mbr _ _ _ => mbr

end BaseNode

namespace Tree

open BRTree.BaseNode

/-! ## Building -/

/-- The points `P[l], …, P[r - 1]`. -/
def slice (P : List Point) (l r : ℕ) : List Point := (P.take r).drop l

/-- `create_leaf`. -/
def createLeaf (P : List Point) (l r : ℕ) : BaseNode :=
  let curRecords := slice P l r
  leafNode (getMbr curRecords) curRecords

/-- `create_internal`, through `merge_nodes`. Without a left son the box stays as the constructor
leaves it: that branch is compiled for `USE_MBR`, which nothing defines. -/
def createInternal (L R : BaseNode) : BaseNode :=
  match L, R with
  | nullptr, R => inteNode default nullptr R R.getNumPoints
  | L, nullptr => inteNode L.mbr L nullptr L.getNumPoints
  | L, R => inteNode (mergeMbr L.mbr R.mbr) L R (L.getNumPoints + R.getNumPoints)

/-- `build(P, l, r, b)`, without the level `b`, which only counts the height. For a leaf size of zero
the recursion would not end. -/
def buildNode (leafSize : ℕ+) (P : List Point) (l r : ℕ) : BaseNode :=
  if _h : r - l ≤ leafSize then createLeaf P l r
  else
    let splitter := (r + l) / 2
    let L := if l < splitter then buildNode leafSize P l splitter else nullptr
    let R := if splitter < r then buildNode leafSize P splitter r else nullptr
    createInternal L R
termination_by r - l
decreasing_by
  all_goals
    have := leafSize.pos
    omega

/-- `build(P)` on a fresh tree: the root that it leaves behind. -/
def build (leafSize : ℕ+) (P : List Point) : BaseNode :=
  if P.isEmpty then nullptr else buildNode leafSize P 0 P.length

/-! ## Queries on the boxes of the nodes -/

/-- `range_count_node(x, query_mbr)`. -/
def rangeCountNode (queryMbr : BoundingBox) : BaseNode → Option ℕ
  | nullptr => none
  | leafNode mbr records =>
    let flag := mbrMbrRelation mbr queryMbr
    if flag < 0 then some 0
    else if flag > 0 then some records.length
    else some (records.countP fun p => pointInMbr p queryMbr)
  | inteNode mbr lSon rSon numPts =>
    let flag := mbrMbrRelation mbr queryMbr
    if flag < 0 then some 0
    else if flag > 0 then some numPts
    else do
      let retL ← (if !lSon.isNull then rangeCountNode queryMbr lSon else some 0)
      let retR ← (if !rSon.isNull then rangeCountNode queryMbr rSon else some 0)
      return retL + retR

/-- `range_count(query_mbr)`. -/
def rangeCount (root : BaseNode) (queryMbr : BoundingBox) : Option ℕ := rangeCountNode queryMbr root

/-- `range_report_node(x, query_mbr, cnt, out)`, on `(cnt, out)`. -/
def rangeReportNode (queryMbr : BoundingBox) : BaseNode → ℕ × List Point → Option (ℕ × List Point)
  | nullptr, _ => none
  | leafNode _ records, ret => some (Silva.Tree.reportRecords queryMbr records ret)
  | inteNode _ lSon rSon _, ret => do
    let ret ← (if !lSon.isNull ∧ mbrMbrRelation lSon.mbr queryMbr ≥ 0 then
        rangeReportNode queryMbr lSon ret
      else some ret)
    if !rSon.isNull ∧ mbrMbrRelation rSon.mbr queryMbr ≥ 0 then rangeReportNode queryMbr rSon ret
    else some ret

/-- `range_report(query_mbr, cnt, out)`. -/
def rangeReport (root : BaseNode) (queryMbr : BoundingBox) (cnt : ℕ) (out : List Point) :
    Option (ℕ × List Point) := rangeReportNode queryMbr root (cnt, out)

/-- The loop over the records of a leaf in `knn_report_node`. -/
def knnScan (k : ℕ) (queryPoint : Point) (records : List Point) (nnRes : List NnPair) :
    List NnPair :=
  records.foldl (Cpam.ptCheck nnPairCmp k fun p => pointPointSqrdis p queryPoint) nnRes

/-- `knn_report_node(x, k, query_point, nn_res)`. A missing son would be dereferenced as soon as its
distance `FT_INF_MAX` passes the test. -/
def knnReportNode (k : ℕ) (queryPoint : Point) : BaseNode → List NnPair → Option (List NnPair)
  | nullptr, _ => none
  | leafNode _ records, nnRes => some (knnScan k queryPoint records nnRes)
  | inteNode _ lSon rSon _, nnRes =>
    let lSonSqrdis := if !lSon.isNull then pointMbrSqrdis queryPoint lSon.mbr else ftInfMax
    let rSonSqrdis := if !rSon.isNull then pointMbrSqrdis queryPoint rSon.mbr else ftInfMax
    let goLeft := fun nnRes =>
      if Cpam.visits k nnRes lSonSqrdis then knnReportNode k queryPoint lSon nnRes else some nnRes
    let goRight := fun nnRes =>
      if Cpam.visits k nnRes rSonSqrdis then knnReportNode k queryPoint rSon nnRes else some nnRes
    if lSonSqrdis ≤ rSonSqrdis then goLeft nnRes >>= goRight else goRight nnRes >>= goLeft

/-- `knn_report(k, query_point)`: the queue, the farthest neighbour on top. -/
def knnReport (root : BaseNode) (k : ℕ) (queryPoint : Point) : Option (List NnPair) :=
  knnReportNode k queryPoint root []

/-! ## Queries on prefixes -/

/-- The boxes of the two sons, the prefixes of the right one, and the bit that the sons split on. No
sequence is so long that the source would shift by `0 - 1` bits. -/
def sonFrames (curMbr : BoundingBox) (xPrefix yPrefix : FT) (b : ℕ) (xSplitter : Bool) :
    BoundingBox × BoundingBox × FT × FT × ℕ :=
  let splitter : FT := (1 <<< (b - 1) : ℕ)
  if xSplitter then
    ({ curMbr with second :=
        { curMbr.second with x := min (xPrefix + splitter - ftEps) curMbr.second.x } },
      { curMbr with first := { curMbr.first with x := max (xPrefix + splitter) curMbr.first.x } },
      xPrefix + splitter, yPrefix, b)
  else
    ({ curMbr with second :=
        { curMbr.second with y := min (yPrefix + splitter - ftEps) curMbr.second.y } },
      { curMbr with first := { curMbr.first with y := max (yPrefix + splitter) curMbr.first.y } },
      xPrefix, yPrefix + splitter, b - 1)

/-- `range_count_node(x, query_mbr, cur_mbr, x_prefix, y_prefix, b, x_splitter)`. -/
def rangeCountNodePrefix (queryMbr : BoundingBox) : BaseNode → (curMbr : BoundingBox) →
    (xPrefix yPrefix : FT) → (b : ℕ) → (xSplitter : Bool) → Option ℕ
  | nullptr, curMbr, _, _, _, _ => if mbrMbrRelation curMbr queryMbr < 0 then some 0 else none
  | leafNode _ records, curMbr, _, _, _, _ =>
    let flag := mbrMbrRelation curMbr queryMbr
    if flag < 0 then some 0
    else if flag > 0 then some records.length
    else some (records.countP fun p => pointInMbr p queryMbr)
  | inteNode _ lSon rSon numPts, curMbr, xPrefix, yPrefix, b, xSplitter =>
    let flag := mbrMbrRelation curMbr queryMbr
    if flag < 0 then some 0
    else if flag > 0 then some numPts
    else do
      let (LBox, RBox, rxPrefix, ryPrefix, sonB) := sonFrames curMbr xPrefix yPrefix b xSplitter
      let retL ← (if !lSon.isNull then
          rangeCountNodePrefix queryMbr lSon LBox xPrefix yPrefix sonB (!xSplitter)
        else some 0)
      let retR ← (if !rSon.isNull then
          rangeCountNodePrefix queryMbr rSon RBox rxPrefix ryPrefix sonB (!xSplitter)
        else some 0)
      return retL + retR

/-- `range_count(query_mbr, cur_mbr)`. -/
def rangeCountPrefix (root : BaseNode) (queryMbr curMbr : BoundingBox) : Option ℕ :=
  rangeCountNodePrefix queryMbr root curMbr 0 0 32 true

/-- `range_report_node(x, query_mbr, cur_mbr, x_prefix, y_prefix, b, x_splitter, cnt, out)`, on
`(cnt, out)`. -/
def rangeReportNodePrefix (queryMbr : BoundingBox) : BaseNode → (curMbr : BoundingBox) →
    (xPrefix yPrefix : FT) → (b : ℕ) → (xSplitter : Bool) → ℕ × List Point →
    Option (ℕ × List Point)
  | nullptr, _, _, _, _, _, _ => none
  | leafNode _ records, _, _, _, _, _, ret => some (Silva.Tree.reportRecords queryMbr records ret)
  | inteNode _ lSon rSon _, curMbr, xPrefix, yPrefix, b, xSplitter, ret => do
    let (LBox, RBox, rxPrefix, ryPrefix, sonB) := sonFrames curMbr xPrefix yPrefix b xSplitter
    let ret ← (if !lSon.isNull ∧ mbrMbrRelation LBox queryMbr ≥ 0 then
        rangeReportNodePrefix queryMbr lSon LBox xPrefix yPrefix sonB (!xSplitter) ret
      else some ret)
    if !rSon.isNull ∧ mbrMbrRelation RBox queryMbr ≥ 0 then
      rangeReportNodePrefix queryMbr rSon RBox rxPrefix ryPrefix sonB (!xSplitter) ret
    else some ret

/-- `range_report(query_mbr, cur_mbr, cnt, out)`. -/
def rangeReportPrefix (root : BaseNode) (queryMbr curMbr : BoundingBox) (cnt : ℕ)
    (out : List Point) : Option (ℕ × List Point) :=
  rangeReportNodePrefix queryMbr root curMbr 0 0 32 true (cnt, out)

end Tree

end BRTree

end Silva
