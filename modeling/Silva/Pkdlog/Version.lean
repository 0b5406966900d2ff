import Silva.Geo.Operations
import Silva.Lib.Buffer
import Silva.Rlog.Version

/-!
# Versions as logs over a kd-tree (`include/silva/baselines/pkdlog_tree.hpp`)

The versions of `Silva.Rlog.Version` once more, with a kd-tree as the cached base. The tree stores
points with an identifier of its own type, so a `Value` is converted on its way in and out. The kd-tree
library is a parameter, and a sequence that is not initialized holds arbitrary points.
-/

namespace Silva

namespace PKDLog

open Rlog (Value VersionNode QueryView)

/-! ## Points of the tree -/

/-- `pkd_aug_id::id_type`, the type `int`. -/
abbrev IdType := BitVec 32

/-- The conversion from `size_t` to `int`. -/
def toIdType (id : ℕ) : IdType := BitVec.ofNat 32 id

/-- The conversion from `int` to `size_t`. -/
def ofIdType (id : IdType) : ℕ := (id.signExtend 64).toNat

/-- `point_t`: the two coordinates and `aug.id`. -/
structure PointT where
  /-- The first coordinate. -/
  x : FT
  /-- The second coordinate. -/
  y : FT
  /-- The identifier, as the tree stores it. -/
  augId : IdType
  deriving DecidableEq, Repr, Inhabited

/-- The assignments that make a point of a value. -/
def PointT.ofValue (v : Value) : PointT := { x := v.x, y := v.y, augId := toIdType v.id }

/-- `{BoostPoint(p[0], p[1]), p.aug.id}`. -/
def PointT.toValue (p : PointT) : Value := { x := p.x, y := p.y, id := ofIdType p.augId }

/-- kd-trees of type `T`: `build` on a fresh tree, `flatten`, `empty`, and the points that
`range_query` puts into its output. -/
structure KdTree (T : Type*) where
  /-- A tree of some points. -/
  build : List PointT → T
  /-- The points of a tree. -/
  flatten : T → List PointT
  /-- A tree has no points. -/
  empty : T → Bool
  /-- The points of a tree in a box. -/
  rangeQuery : T → BoundingBox → List PointT

/-- A box, boundary included. -/
def PointT.inBox (p : PointT) (box : BoundingBox) : Bool := pointInMbr (.ofXY p.x p.y) box

/-- `bg::intersects(val.first, box)`. -/
def intersects (val : Value) (box : BoundingBox) : Bool := pointInMbr (.ofXY val.x val.y) box

/-- A tree keeps exactly the points that it is built from. -/
structure KdTree.Faithful {T : Type*} (kd : KdTree T) : Prop where
  flatten : ∀ ps, (kd.flatten (kd.build ps)).Perm ps
  empty : ∀ ps, kd.empty (kd.build ps) = ps.isEmpty
  rangeQuery : ∀ ps box, (kd.rangeQuery (kd.build ps) box).Perm (ps.filter (·.inBox box))

section

variable {T : Type*} (kd : KdTree T)

/-- `get_query_view`, the function of `Rlog` at the other type of trees. -/
def getQueryView (node : VersionNode T) : QueryView T := Rlog.getQueryView node

/-- `is_alive`. -/
def isAlive (removedIds : Finset ℕ) (pt : PointT) : Bool := ofIdType pt.augId ∉ removedIds

/-- `map_init`. -/
def mapInit (PBase : List Value) : VersionNode T :=
  .node .nullptr 0 [] [] (some (kd.build (PBase.map .ofValue))) 0 PBase.length

/-- The points of the base that are alive, `live_tree_pts`. -/
def liveTreePts (view : QueryView T) : List PointT :=
  match view.outBase with
  | some base => (kd.flatten base).filter (isAlive view.outRemovedIds)
  | none => []

/-- `sequence<point_t>::uninitialized(n)`, with what the memory happens to hold. -/
def uninitialized (memory : ℕ → PointT) (n : ℕ) : List PointT := (List.range n).map memory

/-- The buffer `next_pts` when it is handed to `build`: the loop assigns `log_pts` to the slots after
the first `live_tree_pts.size()`. -/
def nextPts (memory : ℕ → PointT) (view : QueryView T) : List PointT :=
  let liveTreePts := liveTreePts kd view
  let logPts := view.outPendingInserts.map PointT.ofValue
  Buffer.write (uninitialized memory (liveTreePts.length + logPts.length)) liveTreePts.length logPts

/-- The test of `check_compact`. -/
def fires (p : FT) (logSize baseSize : ℕ) : Prop := (logSize : FT) ≥ p * baseSize

instance (p : FT) (logSize baseSize : ℕ) : Decidable (fires p logSize baseSize) :=
  inferInstanceAs (Decidable (_ ≥ _))

/-- `check_compact`. -/
def checkCompact (memory : ℕ → PointT) (p : FT) : VersionNode T → Option (VersionNode T)
  | .nullptr => none
  | .node parent depth ins rem cached logSize baseSize =>
    let node := .node parent depth ins rem cached logSize baseSize
    if fires p logSize baseSize then
      let nextPts := nextPts kd memory (getQueryView node)
      some (.node parent depth ins rem (some (kd.build nextPts)) 0 nextPts.length)
    else some node

/-- `map_insert`. -/
def mapInsert (memory : ℕ → PointT) (parent : VersionNode T) (insertPts : List Value) (p : FT) :
    Option (VersionNode T) := checkCompact kd memory p (Rlog.insertNode parent insertPts)

/-- `map_delete`. -/
def mapDelete (memory : ℕ → PointT) (parent : VersionNode T) (deletePts : List Value) (p : FT) :
    Option (VersionNode T) := checkCompact kd memory p (Rlog.deleteNode parent deletePts)

/-- `range_report`. -/
def rangeReport (node : VersionNode T) (q : BoundingBox) : List Value :=
  let view := getQueryView node
  let fromBase :=
    match view.outBase with
    | some base =>
      if !kd.empty base then
        ((kd.rangeQuery base q).filter (isAlive view.outRemovedIds)).map PointT.toValue
      else []
    | none => []
  fromBase ++ view.outPendingInserts.filter (intersects · q)

/-- The points that a query view shows: the base without what is removed, and the pending inserts. -/
def visible (node : VersionNode T) : List Value :=
  let view := getQueryView node
  (liveTreePts kd view).map PointT.toValue ++ view.outPendingInserts

/-- A sequence of deletions, each with its threshold. -/
def deleteAll (memory : ℕ → PointT) : List (List Value × FT) → VersionNode T →
    Option (VersionNode T)
  | [], node => some node
  | (deletePts, p) :: calls, node => do
    let next ← mapDelete kd memory node deletePts p
    deleteAll memory calls next

/-- No deletion of the sequence fires a compaction. -/
def Quiet (baseSize : ℕ) : (logSize : ℕ) → List (List Value × FT) → Prop
  | _, [] => True
  | logSize, (deletePts, p) :: calls =>
    ¬fires p (logSize + deletePts.length) baseSize ∧ Quiet baseSize (logSize + deletePts.length) calls

/-- The identifiers that a sequence of deletions names. -/
def deletedIds (calls : List (List Value × FT)) : List ℕ :=
  calls.flatMap fun call => call.1.map Value.id

end

end PKDLog

end Silva
