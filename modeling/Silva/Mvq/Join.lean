import Silva.Mvq.Tree

/-!
# Spatial join of two versions (`include/silva/index/mvq.hpp`)

The walk descends in both trees at once, or in one of them when the other node is a leaf. Each tree
has its own box, prefix, level and split dimension.
-/

namespace Silva

namespace Tree

open BaseNode

/-- The condition on a pair of records: different identifiers, and not farther apart than `pointDis`
up to `FT_EPS` in the square. -/
def joins (pointDis : FT) (pts : Point × Point) : Bool :=
  pts.1.id ≠ pts.2.id ∧ dcmp (pointPointSqrdis pts.1 pts.2 - pointDis * pointDis) ≤ 0

/-- The arguments of `spatial_join` that go with one of its nodes. -/
structure Frame where
  /-- The box of the node. -/
  mbr : BoundingBox
  /-- The lower bound of the first coordinate. -/
  xPrefix : FT
  /-- The lower bound of the second coordinate. -/
  yPrefix : FT
  /-- The level of the node. -/
  b : Nat
  /-- The node splits the first coordinate. -/
  xSplitter : Bool

/-- The arguments for the two children of an interior node, by `compute_cur_box`. -/
def Frame.children (fr : Frame) : Frame × Frame :=
  let (LBox, RBox, rxPrefix, ryPrefix) :=
    computeCurBox fr.mbr fr.xPrefix fr.yPrefix fr.b fr.xSplitter
  (⟨LBox, fr.xPrefix, fr.yPrefix, fr.b - 1, !fr.xSplitter⟩,
    ⟨RBox, rxPrefix, ryPrefix, fr.b - 1, !fr.xSplitter⟩)

/-- The double loop over the records of two leaves. -/
def joinLeaves (pointDis : FT) (records1 records2 : List Point) (joinRes : List (Point × Point)) :
    List (Point × Point) :=
  records1.foldl (fun joinRes pt1 =>
    records2.foldl (fun joinRes pt2 =>
      if joins pointDis (pt1, pt2) then joinRes ++ [(pt1, pt2)] else joinRes) joinRes) joinRes

/-- `spatial_join` when `node1` is a leaf, as it then is in all further calls. -/
def spatialJoinLeaf (pointDis : FT) (records1 : List Point) (fr1 : Frame) :
    BaseNode → Frame → List (Point × Point) → List (Point × Point)
  | nullptr, _, joinRes => joinRes
  | leafNode records2, fr2, joinRes =>
    if !mbrMbrWithinDis fr1.mbr fr2.mbr pointDis then joinRes
    else joinLeaves pointDis records1 records2 joinRes
  | inteNode lSon2 rSon2 _, fr2, joinRes =>
    if !mbrMbrWithinDis fr1.mbr fr2.mbr pointDis then joinRes
    else
      let joinRes := spatialJoinLeaf pointDis records1 fr1 lSon2 fr2.children.1 joinRes
      spatialJoinLeaf pointDis records1 fr1 rSon2 fr2.children.2 joinRes

/-- `spatial_join`. -/
def spatialJoin (pointDis : FT) :
    BaseNode → BaseNode → Frame → Frame → List (Point × Point) → List (Point × Point)
  | nullptr, _, _, _, joinRes => joinRes
  | leafNode records1, node2, fr1, fr2, joinRes =>
    spatialJoinLeaf pointDis records1 fr1 node2 fr2 joinRes
  | inteNode _ _ _, nullptr, _, _, joinRes => joinRes
  | inteNode lSon1 rSon1 _, leafNode records2, fr1, fr2, joinRes =>
    if !mbrMbrWithinDis fr1.mbr fr2.mbr pointDis then joinRes
    else
      let joinRes := spatialJoin pointDis lSon1 (leafNode records2) fr1.children.1 fr2 joinRes
      spatialJoin pointDis rSon1 (leafNode records2) fr1.children.2 fr2 joinRes
  | inteNode lSon1 rSon1 _, inteNode lSon2 rSon2 _, fr1, fr2, joinRes =>
    if !mbrMbrWithinDis fr1.mbr fr2.mbr pointDis then joinRes
    else
      let joinRes := spatialJoin pointDis lSon1 lSon2 fr1.children.1 fr2.children.1 joinRes
      let joinRes := spatialJoin pointDis lSon1 rSon2 fr1.children.1 fr2.children.2 joinRes
      let joinRes := spatialJoin pointDis rSon1 lSon2 fr1.children.2 fr2.children.1 joinRes
      spatialJoin pointDis rSon1 rSon2 fr1.children.2 fr2.children.2 joinRes

/-- `two_version_spatial_join`. -/
def twoVersionSpatialJoin (node1 node2 : BaseNode) (pointDis : FT) (joinRes : List (Point × Point))
    (mbr1 mbr2 : BoundingBox) : List (Point × Point) :=
  spatialJoin pointDis node1 node2 ⟨mbr1, 0, 0, 64, true⟩ ⟨mbr2, 0, 0, 64, true⟩ joinRes

end Tree

end Silva
