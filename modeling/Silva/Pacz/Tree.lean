import Silva.Geo.Operations
import Silva.Pacz.Map
import Silva.Cpam.WellFormed

/-!
# Queries on PaC trees (`include/silva/index/pacz.hpp`)

The queries of the index are traversals of `cpam` with the tests below. A tree is a version of the
index when it is well formed and lists points under their own keys in increasing order.
-/

namespace Silva

namespace PACZ

open Cpam (Joins)

/-- `aug_type`: the box of the points and their number. -/
abbrev AugType := BoundingBox × ℕ

/-- `struct entry`. -/
def entry : Cpam.Entry KeyType Point AugType where
  getEmpty := (⟨.ofXY (10 ^ 60) (10 ^ 60), .ofXY (-1) (-1)⟩, 0)
  fromEntry e := (⟨e.2, e.2⟩, 1)
  combine a b := (mergeMbr a.1 b.1, a.2 + b.2)

/-- The block size of `zmap`. -/
def blockSize : ℕ := 40

/-- The nodes of `zmap`. -/
abbrev Node := Cpam.Node KeyType Point AugType

/-- The tree is a version with the entries `es`. -/
structure IsMap (tree : Node) (es : List (KeyType × Point)) : Prop where
  wellFormed : Cpam.WellFormed entry blockSize tree es
  sorted : es.Pairwise (·.1 < ·.1)
  keyed : ∀ e ∈ es, e.1 = e.2.key

/-- `filter_range`. -/
def filterRange (joins : Joins KeyType Point AugType) (tree : Node) (queryMbr : BoundingBox) : Node :=
  let BL := queryMbr.first
  let UR := queryMbr.second
  let fpt := fun cur : KeyType × Point =>
    BL.x ≤ cur.2.x ∧ cur.2.x ≤ UR.x ∧ BL.y ≤ cur.2.y ∧ cur.2.y ≤ UR.y
  let fbb := fun cur : AugType => !mbrExcludeMbr queryMbr cur.1
  Cpam.augFilter2 entry blockSize joins (fun cur => fpt cur) fbb tree

/-- `range_count`. -/
def rangeCount (tree : Node) (queryMbr : BoundingBox) : ℕ :=
  Cpam.rangeCountFilter2 (fun cur => mbrMbrRelation cur queryMbr)
    (fun cur => pointInMbr cur queryMbr) tree

/-- `range_report`: the count that it returns, and `out`. -/
def rangeReport (tree : Node) (queryMbr : BoundingBox) (out : List Point) : ℕ × List Point :=
  Cpam.rangeReportFilter2 (fun cur => mbrMbrRelation cur queryMbr) (fun pt => ⟨pt, pt⟩) tree (0, out)

/-- `knn`: the queue, the farthest neighbour on top. -/
def knn (tree : Node) (queryPoint : Point) (k : ℕ) : List NnPair :=
  Cpam.knnFilter nnPairCmp k (fun curPt => pointPointSqrdis curPt queryPoint) entry
    (fun curMbr => pointMbrSqrdis queryPoint curMbr) ftInfMax tree []

/-! ## Differences inside a query box -/

/-- `zmap::values` of a tree, in the order of its entries. -/
def treeValues (tree : Node) : List Point := tree.entries.map Prod.snd

/-- `map_difference` is the difference of the key sets of two trees in key order. -/
def DiffersByKey (mapDifference : Node → Node → Node) : Prop :=
  ∀ m m' : Node, m.entries.Pairwise (·.1 < ·.1) → m'.entries.Pairwise (·.1 < ·.1) →
    (mapDifference m m').entries = m.entries.filter fun e => m'.entries.all fun e' => e'.1 ≠ e.1

/-- `map_spatial_diff`: all four fields of `ret_diff` are set. -/
def mapSpatialDiff (joins : Joins KeyType Point AugType) (mapDifference : Node → Node → Node)
    (lhs rhs : Node) (query : BoundingBox) : DiffType :=
  let filteredLhs := filterRange joins lhs query
  let filteredRhs := filterRange joins rhs query
  let add := treeValues (mapDifference filteredRhs filteredLhs)
  let remove := treeValues (mapDifference filteredLhs filteredRhs)
  { add, addCnt := add.length, remove, removeCnt := remove.length }

/-- `plain_map_spatial_diff`: the new `ret_diff`, from two ranges that are reported into buffers. -/
def plainMapSpatialDiff (lhs rhs : Node) (query : BoundingBox) (retDiff : DiffType)
    (lPts rPts : List Point) : DiffType :=
  let (ret1, lPts) := rangeReport lhs query lPts
  let (ret2, rPts) := rangeReport rhs query rPts
  let lPts := lPts.takeD ret1 default
  let rPts := rPts.takeD ret2 default
  mergePtsInto lPts rPts (fun _ => true) retDiff false

end PACZ

end Silva
