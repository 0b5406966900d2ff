import Silva.Mvq.Store
import Silva.Mvq.Versioning
import Silva.Mvq.Join
import Silva.Lib.Buffer

/-!
# The queries on a store of nodes (`include/silva/index/mvq.hpp`)

The functions of `Silva.Mvq.Query`, `Silva.Mvq.Versioning` and `Silva.Mvq.Join` once more, through
pointers. They return `none` when null is dereferenced or when the top of an empty queue is read. The
first argument bounds the depth of the walk, as for `gc_nocheck`; a root has at most 65 levels.
-/

namespace Silva

open RefCount (Ptr)
open Silva.Tree (Frame)

/-- The arguments that a query passes along with a root. -/
def Tree.Frame.root (curMbr : BoundingBox) : Frame := ⟨curMbr, 0, 0, 64, true⟩

namespace Store

open Node

/-- `*x`. -/
def deref (store : Store) : Ptr → Option Node
  | none => none
  | some a => store[a]?

/-! ## Range queries -/

/-- `range_count_node`. It does not ask whether `x` is null. -/
def rangeCountNode : (depth : Nat) → Store → (x : Ptr) → (queryMbr : BoundingBox) → Frame → Option Nat
  | 0, _, _, _, _ => none
  | depth + 1, store, x, queryMbr, fr =>
    let flag := mbrMbrRelation fr.mbr queryMbr
    if flag < 0 then some 0
    else do
      let n ← store.deref x
      if flag > 0 then return n.getNumPoints
      else
        match n with
        | leafNode records => return records.countP fun p => pointInMbr p queryMbr
        | inteNode lSon rSon _ => do
          let retL ← (if lSon ≠ none then rangeCountNode depth store lSon queryMbr fr.children.1
            else some 0)
          let retR ← (if rSon ≠ none then rangeCountNode depth store rSon queryMbr fr.children.2
            else some 0)
          return retL + retR

/-- `range_count`. -/
def rangeCount (store : Store) (x : Ptr) (queryMbr curMbr : BoundingBox) : Option Nat :=
  rangeCountNode 66 store x queryMbr (.root curMbr)

/-- `range_report_node`, on `(cnt, out)`. -/
def rangeReportNode : (depth : Nat) → Store → (x : Ptr) → (queryMbr : BoundingBox) → Frame →
    Nat × List Point → Option (Nat × List Point)
  | 0, _, _, _, _, _ => none
  | depth + 1, store, x, queryMbr, fr, ret =>
    if x = none then some ret
    else if mbrMbrRelation fr.mbr queryMbr < 0 then some ret
    else do
      match ← store.deref x with
      | leafNode records => return Tree.reportRecords queryMbr records ret
      | inteNode lSon rSon _ => do
        let ret ← rangeReportNode depth store lSon queryMbr fr.children.1 ret
        rangeReportNode depth store rSon queryMbr fr.children.2 ret

/-- `range_report`. -/
def rangeReport (store : Store) (x : Ptr) (queryMbr curMbr : BoundingBox) (cnt : Nat)
    (out : List Point) : Option (Nat × List Point) :=
  rangeReportNode 66 store x queryMbr (.root curMbr) (cnt, out)

/-- `collect_records(x)`. -/
def collectRecords : (depth : Nat) → Store → (x : Ptr) → Option (List Point)
  | 0, _, _ => none
  | depth + 1, store, x =>
    if x = none then some []
    else do
      match ← store.deref x with
      | leafNode records => return records
      | inteNode lSon rSon _ => do
        let ret ← collectRecords depth store lSon
        let R ← collectRecords depth store rSon
        return ret ++ R

/-- `collect_records(x, out, cnt)`, on `(out, cnt)`. The right son gets a counter of its own. -/
def collectRecordsOut : (depth : Nat) → Store → (x : Ptr) → List Point × Nat →
    Option (List Point × Nat)
  | 0, _, _, _ => none
  | depth + 1, store, x, (out, cnt) =>
    if x = none then some (out, cnt)
    else do
      match ← store.deref x with
      | leafNode records => return (Buffer.write out cnt records, cnt + records.length)
      | inteNode lSon rSon _ => do
        let RCnt ← (if lSon ≠ none then do
            let n ← store.deref lSon
            return cnt + n.getNumPoints
          else some cnt)
        let (out, cnt) ← collectRecordsOut depth store lSon (out, cnt)
        let (out, _) ← collectRecordsOut depth store rSon (out, RCnt)
        return (out, cnt)

/-- `collect_records` with a query box. -/
def collectRecordsIn : (depth : Nat) → Store → (x : Ptr) → (queryMbr : BoundingBox) → Frame →
    Option (List Point)
  | 0, _, _, _, _ => none
  | depth + 1, store, x, queryMbr, fr =>
    if x = none then some []
    else
      let flag := mbrMbrRelation fr.mbr queryMbr
      if flag < 0 then some []
      else do
        match ← store.deref x with
        | leafNode records =>
          return if flag > 0 then records else records.filter fun p => pointInMbr p queryMbr
        | inteNode lSon rSon _ => do
          let ret ← collectRecordsIn depth store lSon queryMbr fr.children.1
          let R ← collectRecordsIn depth store rSon queryMbr fr.children.2
          return ret ++ R

/-! ## Nearest neighbours -/

open BoundedQueue (push pop top)

/-- One iteration of the scan of a leaf in `knn_report_node`. -/
def knnOffer (k : Nat) (nnRes : List NnPair) (currentPair : NnPair) : Option (List NnPair) :=
  if nnRes.length < k then some (push nnPairCmp nnRes currentPair)
  else do
    let t ← top nnRes
    return if nnPairCmp currentPair t then push nnPairCmp (pop nnRes) currentPair else nnRes

/-- The test before a child is visited. -/
def knnVisits (k : Nat) (nnRes : List NnPair) (sqrdis : FT) : Option Bool :=
  if nnRes.length < k then some true
  else do
    let t ← top nnRes
    return sqrdis ≤ t.2

/-- `knn_report_node`. -/
def knnReportNode : (depth : Nat) → Store → (x : Ptr) → (k : Nat) → (queryPoint : Point) → Frame →
    List NnPair → Option (List NnPair)
  | 0, _, _, _, _, _, _ => none
  | depth + 1, store, x, k, queryPoint, fr, nnRes =>
    if x = none then some nnRes
    else do
      match ← store.deref x with
      | leafNode records =>
        records.foldlM
          (fun nnRes p => knnOffer k nnRes (p, pointPointSqrdis p queryPoint)) nnRes
      | inteNode lSon rSon _ =>
        let lSonSqrdis :=
          if lSon ≠ none then pointMbrSqrdis queryPoint fr.children.1.mbr else ftInfMax
        let rSonSqrdis :=
          if rSon ≠ none then pointMbrSqrdis queryPoint fr.children.2.mbr else ftInfMax
        let goLeft := fun nnRes => do
          if ← knnVisits k nnRes lSonSqrdis then
            knnReportNode depth store lSon k queryPoint fr.children.1 nnRes
          else return nnRes
        let goRight := fun nnRes => do
          if ← knnVisits k nnRes rSonSqrdis then
            knnReportNode depth store rSon k queryPoint fr.children.2 nnRes
          else return nnRes
        if lSonSqrdis ≤ rSonSqrdis then goLeft nnRes >>= goRight else goRight nnRes >>= goLeft

/-- `knn_report` on the tree with the given root. -/
def knnReport (store : Store) (root : Ptr) (k : Nat) (queryPoint : Point) (curMbr : BoundingBox) :
    Option (List NnPair) :=
  knnReportNode 66 store root k queryPoint (.root curMbr) []

/-! ## Differences -/

/-- `leaf_inte_diff(P, x, b)`. -/
def leafInteDiff : (depth : Nat) → Store → (P : List Point) → (x : Ptr) → (b : Nat) →
    Option (List Point × List Point)
  | 0, _, _, _, _ => none
  | depth + 1, store, P, x, b =>
    if x = none then some ([], P)
    else do
      match ← store.deref x with
      | leafNode records => return mergePts P records
      | inteNode lSon rSon _ => do
        let splitter := splitByBit P 0 P.length b
        let (LAdd, LRemove) ← leafInteDiff depth store (P.take splitter) lSon (b - 1)
        let (RAdd, RRemove) ← leafInteDiff depth store (P.drop splitter) rSon (b - 1)
        return (LAdd ++ RAdd, LRemove ++ RRemove)

/-- `diff`, what `node2` adds to `node1` and what it removes. -/
def diff : (depth : Nat) → Store → (node1 node2 : Ptr) → (b : Nat) → Option (List Point × List Point)
  | 0, _, _, _, _ => none
  | depth + 1, store, node1, node2, b =>
    if node1 = node2 then some ([], [])
    else if node1 = none then do
      let add ← collectRecords (depth + 1) store node2
      return (add, [])
    else if node2 = none then do
      let remove ← collectRecords (depth + 1) store node1
      return ([], remove)
    else do
      let n1 ← store.deref node1
      let n2 ← store.deref node2
      match n1, n2 with
      | leafNode records1, leafNode records2 => return mergePts records1 records2
      | leafNode P, inteNode _ _ _ => leafInteDiff (depth + 1) store P node2 b
      | inteNode _ _ _, leafNode P => do
        let (remove, add) ← leafInteDiff (depth + 1) store P node1 b
        return (add, remove)
      | inteNode lSon1 rSon1 _, inteNode lSon2 rSon2 _ => do
        let (LAdd, LRemove) ← diff depth store lSon1 lSon2 (b - 1)
        let (RAdd, RRemove) ← diff depth store rSon1 rSon2 (b - 1)
        return (LAdd ++ RAdd, LRemove ++ RRemove)

/-- `two_version_diff`. -/
def twoVersionDiff (store : Store) (node1 node2 : Ptr) : Option (List Point × List Point) :=
  diff 66 store node1 node2 64

/-- `leaf_inte_diff` with a query box. -/
def leafInteDiffIn : (depth : Nat) → Store → (P : List Point) → (x : Ptr) → (queryMbr : BoundingBox) →
    Frame → (retDiff : DiffType) → (reverse : Bool) → Option DiffType
  | 0, _, _, _, _, _, _, _ => none
  | depth + 1, store, P, x, queryMbr, fr, retDiff, reverse =>
    if mbrMbrRelation fr.mbr queryMbr < 0 then some retDiff
    else if x = none then
      some (P.foldl (fun retDiff pt =>
        if pointInMbr pt queryMbr then retDiff.removePoint pt reverse else retDiff) retDiff)
    else do
      match ← store.deref x with
      | leafNode records =>
        return mergePtsInto P records (fun p => pointInMbr p queryMbr) retDiff reverse
      | inteNode lSon rSon _ => do
        let splitter := splitByBit P 0 P.length fr.b
        let retDiff ←
          leafInteDiffIn depth store (P.take splitter) lSon queryMbr fr.children.1 retDiff reverse
        leafInteDiffIn depth store (P.drop splitter) rSon queryMbr fr.children.2 retDiff reverse

/-- `spatial_diff`. -/
def spatialDiff : (depth : Nat) → Store → (node1 node2 : Ptr) → (queryMbr : BoundingBox) → Frame →
    (retDiff : DiffType) → Option DiffType
  | 0, _, _, _, _, _, _ => none
  | depth + 1, store, node1, node2, queryMbr, fr, retDiff =>
    if mbrMbrRelation fr.mbr queryMbr < 0 then some retDiff
    else if node1 = node2 then some retDiff
    else if node1 = none then do
      let (cnt, out) ←
        rangeReportNode (depth + 1) store node2 queryMbr fr (retDiff.addCnt, retDiff.add)
      return { retDiff with addCnt := cnt, add := out }
    else if node2 = none then do
      let (cnt, out) ←
        rangeReportNode (depth + 1) store node1 queryMbr fr (retDiff.removeCnt, retDiff.remove)
      return { retDiff with removeCnt := cnt, remove := out }
    else do
      let n1 ← store.deref node1
      let n2 ← store.deref node2
      match n1, n2 with
      | leafNode records1, leafNode records2 =>
        return mergePtsInto records1 records2 (fun p => pointInMbr p queryMbr) retDiff false
      | leafNode P, inteNode _ _ _ =>
        leafInteDiffIn (depth + 1) store P node2 queryMbr fr retDiff false
      | inteNode _ _ _, leafNode P =>
        leafInteDiffIn (depth + 1) store P node1 queryMbr fr retDiff true
      | inteNode lSon1 rSon1 _, inteNode lSon2 rSon2 _ => do
        let retDiff ← spatialDiff depth store lSon1 lSon2 queryMbr fr.children.1 retDiff
        spatialDiff depth store rSon1 rSon2 queryMbr fr.children.2 retDiff

/-- `spatial_two_version_diff`. -/
def spatialTwoVersionDiff (store : Store) (node1 node2 : Ptr) (queryMbr curMbr : BoundingBox)
    (retDiff : DiffType) : Option DiffType :=
  spatialDiff 66 store node1 node2 queryMbr (.root curMbr) retDiff

/-! ## Spatial join -/

/-- `spatial_join`. Every call descends in one of the trees. -/
def spatialJoin (pointDis : FT) : (depth : Nat) → Store → (node1 node2 : Ptr) → Frame → Frame →
    List (Point × Point) → Option (List (Point × Point))
  | 0, _, _, _, _, _, _ => none
  | depth + 1, store, node1, node2, fr1, fr2, joinRes =>
    if node1 = none ∨ node2 = none then some joinRes
    else if !mbrMbrWithinDis fr1.mbr fr2.mbr pointDis then some joinRes
    else do
      let n1 ← store.deref node1
      let n2 ← store.deref node2
      match n1, n2 with
      | leafNode records1, leafNode records2 =>
        return Tree.joinLeaves pointDis records1 records2 joinRes
      | inteNode lSon1 rSon1 _, inteNode lSon2 rSon2 _ => do
        let joinRes ←
          spatialJoin pointDis depth store lSon1 lSon2 fr1.children.1 fr2.children.1 joinRes
        let joinRes ←
          spatialJoin pointDis depth store lSon1 rSon2 fr1.children.1 fr2.children.2 joinRes
        let joinRes ←
          spatialJoin pointDis depth store rSon1 lSon2 fr1.children.2 fr2.children.1 joinRes
        spatialJoin pointDis depth store rSon1 rSon2 fr1.children.2 fr2.children.2 joinRes
      | inteNode lSon1 rSon1 _, leafNode _ => do
        let joinRes ← spatialJoin pointDis depth store lSon1 node2 fr1.children.1 fr2 joinRes
        spatialJoin pointDis depth store rSon1 node2 fr1.children.2 fr2 joinRes
      | leafNode _, inteNode lSon2 rSon2 _ => do
        let joinRes ← spatialJoin pointDis depth store node1 lSon2 fr1 fr2.children.1 joinRes
        spatialJoin pointDis depth store node1 rSon2 fr1 fr2.children.2 joinRes

/-- `two_version_spatial_join`. -/
def twoVersionSpatialJoin (store : Store) (node1 node2 : Ptr) (pointDis : FT)
    (joinRes : List (Point × Point)) (mbr1 mbr2 : BoundingBox) : Option (List (Point × Point)) :=
  spatialJoin pointDis 131 store node1 node2 (.root mbr1) (.root mbr2) joinRes

/-! ## All queries -/

/-- All queries on the version `x`, with `y` as the second version, return, and an empty version counts
and reports nothing. -/
structure Answers (store : Store) (x y : Ptr) (queryMbr curMbr : BoundingBox) : Prop where
  rangeCount : ∃ ret, store.rangeCount x queryMbr curMbr = some ret
  rangeReport : ∀ cnt out, ∃ ret, store.rangeReport x queryMbr curMbr cnt out = some ret
  knnReport : ∀ k ≥ 1, ∀ queryPoint, ∃ nnRes, store.knnReport x k queryPoint curMbr = some nnRes
  collectRecords : ∃ ret, collectRecords 66 store x = some ret
  collectRecordsOut : ∀ out cnt, ∃ ret, collectRecordsOut 66 store x (out, cnt) = some ret
  collectRecordsIn : ∃ ret, collectRecordsIn 66 store x queryMbr (.root curMbr) = some ret
  twoVersionDiff : ∃ ret, store.twoVersionDiff x y = some ret
  spatialTwoVersionDiff : ∀ retDiff, ∃ ret,
    store.spatialTwoVersionDiff x y queryMbr curMbr retDiff = some ret
  twoVersionSpatialJoin : ∀ pointDis joinRes mbr1 mbr2, ∃ ret,
    store.twoVersionSpatialJoin x y pointDis joinRes mbr1 mbr2 = some ret
  emptyCount : Store.collectRecords 66 store x = some [] →
    store.rangeCount x queryMbr curMbr = some 0
  emptyReport : Store.collectRecords 66 store x = some [] →
    ∀ cnt out, store.rangeReport x queryMbr curMbr cnt out = some (cnt, out)

end Store

end Silva
