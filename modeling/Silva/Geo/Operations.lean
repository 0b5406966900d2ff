import Silva.Geo.Point
import Silva.Lib.TwoPointer
import Silva.Lib.Search

/-!
# Geometric and record-list operations (`include/silva/geo/operations.hpp`)

The two-pointer loops of the source are folds over `TwoPointer.events`, the elements consumed by
successive iterations. Spans and sequences are lists; `parlay::sort` and `parlay::merge` are the
stable sort and the stable merge by the given strict comparison.
-/

namespace Silva

open TwoPointer (Event events stableMerge)

/-- `parlay::sort`. -/
def parlaySort (less : Point → Point → Bool) (P : List Point) : List Point :=
  P.insertionSort fun p q => less q p = false

/-- `parlay::merge`. -/
def parlayMerge (less : Point → Point → Bool) (a b : List Point) : List Point :=
  stableMerge less a b

/-! ## Splitting by a bit of the Morton code -/

/-- The comparison `less` of `split_by_bit`: the coordinate bit that level `b` splits on is clear.
Odd levels look at `y`, even ones at `x`. -/
def bitLess (b : Nat) (pt : Point) : Bool :=
  let splitter := 1 <<< ((b - 1) / 2)
  if b % 2 ≠ 0 then toUint pt.y &&& splitter == 0 else toUint pt.x &&& splitter == 0

/-- `split_by_bit`: the first index of `[l, r)` whose point has the bit set. -/
def splitByBit (P : List Point) (l r b : Nat) : Nat :=
  Search.partitionPoint (fun i => bitLess b (P.getD i default)) 16 l r

/-- `split_by_bit` once more, where every `P[i]` is a read that fails outside of the sequence. -/
def Span.splitByBit (P : List Point) (l r b : Nat) : Option Nat :=
  Search.partitionPointM (fun i => P[i]?.map (bitLess b)) 16 l r

/-! ## Boxes -/

/-- Whether a point lies inside a box, boundary included. -/
def pointInMbr (p : Point) (mbr : BoundingBox) : Bool :=
  mbr.first.x ≤ p.x ∧ p.x ≤ mbr.second.x ∧ mbr.first.y ≤ p.y ∧ p.y ≤ mbr.second.y

/-- Relation of two boxes: `-1` excluded, `0` intersecting, `1` the first inside the second. -/
def mbrMbrRelation (smallMbr largeMbr : BoundingBox) : Int :=
  let mincX := max smallMbr.first.x largeMbr.first.x
  let mincY := max smallMbr.first.y largeMbr.first.y
  let maxcX := min smallMbr.second.x largeMbr.second.x
  let maxcY := min smallMbr.second.y largeMbr.second.y
  if mincX ≤ maxcX ∧ mincY ≤ maxcY then
    if mincX = smallMbr.first.x ∧ maxcX = smallMbr.second.x ∧
        mincY = smallMbr.first.y ∧ maxcY = smallMbr.second.y then 1
    else 0
  else -1

/-- `merge_mbr`: the smallest box around two boxes. -/
def mergeMbr (a b : BoundingBox) : BoundingBox :=
  { first := .ofXY (min a.first.x b.first.x) (min a.first.y b.first.y)
    second := .ofXY (max a.second.x b.second.x) (max a.second.y b.second.y) }

/-- One iteration of the loop of `get_mbr`. -/
def getMbrStep (mbr : BoundingBox) (p : Point) : BoundingBox :=
  { first := .ofXY (min mbr.first.x p.x) (min mbr.first.y p.y)
    second := .ofXY (max mbr.second.x p.x) (max mbr.second.y p.y) }

/-- `get_mbr`: a box around the points. The maxima start from the smallest positive number. -/
def getMbr (P : List Point) : BoundingBox :=
  P.foldl getMbrStep ⟨.ofXY ftInfMax ftInfMax, .ofXY ftInfMin ftInfMin⟩

/-- `mbr_exclude_mbr`: no common point, not even on the boundary. -/
def mbrExcludeMbr (smallMbr largeMbr : BoundingBox) : Bool :=
  (smallMbr.first.x > largeMbr.second.x || smallMbr.second.x < largeMbr.first.x) ||
    (smallMbr.first.y > largeMbr.second.y || smallMbr.second.y < largeMbr.first.y)

/-- `mbr_mbr_within_dis`: in neither coordinate the boxes are farther apart than `pointDis`, up to
`FT_EPS`. -/
def mbrMbrWithinDis (mbr1 mbr2 : BoundingBox) (pointDis : FT) : Bool :=
  !(dcmp (mbr1.second.x + pointDis - mbr2.first.x) < 0 ||
    dcmp (mbr1.second.y + pointDis - mbr2.first.y) < 0 ||
    dcmp (mbr2.second.x + pointDis - mbr1.first.x) < 0 ||
    dcmp (mbr2.second.y + pointDis - mbr1.first.y) < 0)

/-- Squared distance between a point and a box. -/
def pointMbrSqrdis (p : Point) (mbr : BoundingBox) : FT :=
  let dx := max (max (mbr.first.x - p.x) 0) (max (p.x - mbr.second.x) 0)
  let dy := max (max (mbr.first.y - p.y) 0) (max (p.y - mbr.second.y) 0)
  dx * dx + dy * dy

/-- Squared distance between two points. -/
def pointPointSqrdis (lhs rhs : Point) : FT :=
  (lhs.x - rhs.x) * (lhs.x - rhs.x) + (lhs.y - rhs.y) * (lhs.y - rhs.y)

/-- The boxes of the two children of a node at level `b`, and the prefix of the right one. -/
def computeCurBox (curMbr : BoundingBox) (xPrefix yPrefix : FT) (b : Nat) (xSplitter : Bool) :
    BoundingBox × BoundingBox × FT × FT :=
  let shiftB := (b + 1) / 2
  let splitValue : FT := (1 <<< (shiftB - 1) : Nat)
  if xSplitter then
    ({ curMbr with second :=
        { curMbr.second with x := min (xPrefix + splitValue - ftEps) curMbr.second.x } },
      { curMbr with first :=
        { curMbr.first with x := max (xPrefix + splitValue) curMbr.first.x } },
      xPrefix + splitValue, yPrefix)
  else
    ({ curMbr with second :=
        { curMbr.second with y := min (yPrefix + splitValue - ftEps) curMbr.second.y } },
      { curMbr with first :=
        { curMbr.first with y := max (yPrefix + splitValue) curMbr.first.y } },
      xPrefix, yPrefix + splitValue)

/-! ## Nearest-neighbour candidates -/

/-- A candidate with its squared distance to the query point. -/
abbrev NnPair := Point × FT

/-- `nn_pair_cmp`: nearer first, and among equally near ones the larger identifier first. -/
def nnPairCmp (lhs rhs : NnPair) : Bool :=
  lhs.2 < rhs.2 ∨ (lhs.2 = rhs.2 ∧ lhs.1.id > rhs.1.id)

/-! ## Sorted batches -/

/-- `morton_cmp` of `get_sorted_points`, also the comparison `less` of the updates. -/
def mortonCmp (lhs rhs : Point) : Bool :=
  lhs.mortonId < rhs.mortonId ∨ (lhs.mortonId = rhs.mortonId ∧ lhs.id < rhs.id)

/-- The points with their codes filled in. -/
def withCodes (P : List Point) : List Point :=
  P.map fun p => { p with mortonId := p.interleaveBits }

/-- Fill in the codes and sort by code and identifier. -/
def getSortedPoints (P : List Point) : List Point :=
  parlaySort mortonCmp (P.map fun p => { p with mortonId := p.interleaveBits })

/-! ## The Morton order without the code -/

/-- `morton_less`, also the comparison inside `morton_sort` and `get_sorted_address`: the coordinate
decides in which the points differ at the higher bit, and `x` where that is the same. -/
def mortonLess (lhs rhs : Point) : Bool :=
  let msd := lessMsb (toUint lhs.x ^^^ toUint rhs.x) (toUint lhs.y ^^^ toUint rhs.y)
  if !msd then lhs.x < rhs.x else lhs.y < rhs.y

/-- `morton_merge`: on ties the second sequence goes first. -/
def mortonMerge (lhs rhs : List Point) : List Point :=
  (events (fun p q => if mortonLess p q then .lt else .gt) lhs rhs).map Event.out

/-- `get_sorted_address`, with the points in place of their addresses. -/
def getSortedAddress (P : List Point) : List Point := parlaySort mortonLess P

/-! ## Two-pointer loops over record lists -/

/-- `pt_cmp`: by code, then by identifier. -/
def ptCmp (pt1 pt2 : Point) : Ordering :=
  if pt1.mortonId = pt2.mortonId then
    if pt1.id = pt2.id then .eq else if pt1.id < pt2.id then .lt else .gt
  else if pt1.mortonId < pt2.mortonId then .lt else .gt

/-- One iteration of the loop of `get_delete_p`. -/
def getDeletePStep (f : Point → Bool) (ret : List Point) : Event Point → List Point
  | .both _ _ => ret
  | .left pt => if f pt then ret ++ [pt] else ret
  | .right _ => ret

/-- `get_delete_p`: the records of `lhs` that no point of `P[l..r)` matches and that satisfy `f`. -/
def getDeleteP (lhs P : List Point) (l r : Nat) (f : Point → Bool) : List Point :=
  (events ptCmp lhs ((P.take r).drop l)).foldl (getDeletePStep f) []

/-- One iteration of the loop of `merge_pts`. -/
def mergePtsStep (f : Point → Bool) (reverse : Bool) (retDiff : DiffType) :
    Event Point → DiffType
  | .both _ _ => retDiff
  | .left pt => if f pt then retDiff.removePoint pt reverse else retDiff
  | .right pt => if f pt then retDiff.addPoint pt reverse else retDiff

/-- `merge_pts` with a filter and a `diff_type`: what is only in `a` is removed, what is only in `b`
is added. -/
def mergePtsInto (a b : List Point) (f : Point → Bool) (retDiff : DiffType) (reverse : Bool) :
    DiffType :=
  (events ptCmp a b).foldl (mergePtsStep f reverse) retDiff

/-- `merge_pts` on its own: the pair of what `b` adds to `a` and what it removes. -/
def mergePts (a b : List Point) : List Point × List Point :=
  let retDiff := (mergePtsInto a b (fun _ => true) (.ofSize b.length a.length) false).compact
  (retDiff.add, retDiff.remove)

/-- `id_cmp`. -/
def idCmp (lhs rhs : Point) : Bool := lhs.id < rhs.id

/-- The three-way comparison of identifiers that both loops below make. -/
def idCompare (lhs rhs : Point) : Ordering :=
  if lhs.id < rhs.id then .lt else if lhs.id = rhs.id then .eq else .gt

/-- One iteration of the loop of `filter_diff_results`, on `(insert_points, delete_points,
update_points)`. -/
def filterDiffResultsStep (ret : List Point × List Point × List Point) :
    Event Point → List Point × List Point × List Point
  | .left pt => (ret.1 ++ [pt], ret.2.1, ret.2.2)
  | .both pt _ => (ret.1, ret.2.1, ret.2.2 ++ [pt])
  | .right pt => (ret.1, ret.2.1 ++ [pt], ret.2.2)

/-- `filter_diff_results`: split a difference into inserted, deleted and updated points. An
identifier on both sides is an update, kept with its added point. -/
def filterDiffResults (add remove : List Point) : List Point × List Point × List Point :=
  let sortedAdd := parlaySort idCmp add
  let sortedRemove := parlaySort idCmp remove
  (events idCompare sortedAdd sortedRemove).foldl filterDiffResultsStep ([], [], [])

/-- One iteration of the loop of `merge_by_id_with_conflict`, on `(ret_noconflict, ret_conflict)`. -/
def mergeByIdStep (ret : List Point × List Point) : Event Point → List Point × List Point
  | .both p q => if !p.eqv q then (ret.1, ret.2 ++ [p, q]) else (ret.1 ++ [p], ret.2)
  | .left p => (ret.1 ++ [p], ret.2)
  | .right q => (ret.1 ++ [q], ret.2)

/-- `merge_by_id_with_conflict`: the points without a conflict, and the conflicting pairs. -/
def mergeByIdWithConflict (a b : List Point) : List Point × List Point :=
  let sortedA := parlaySort idCmp a
  let sortedB := parlaySort idCmp b
  (events idCompare sortedA sortedB).foldl mergeByIdStep ([], [])

end Silva
