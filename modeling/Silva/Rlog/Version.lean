import Silva.Geo.Point
import Silva.Lib.DeltaLog

/-!
# Versions as logs over an R-tree (`include/silva/baselines/rlog_tree.hpp`)

A version holds the batch that made it and points to its parent; some versions also cache an R-tree of
all their points. The R-tree library is a parameter: of a tree only the values it iterates over matter
here. A node is not changed once it is returned, so a `shared_ptr<VersionNode>` is read as the chain
that it starts. The accounting of live memory is left out.
-/

namespace Silva

namespace Rlog

/-- `Value`: a `BoostPoint` and an identifier. -/
structure Value where
  /-- The first coordinate. -/
  x : FT
  /-- The second coordinate. -/
  y : FT
  /-- The identifier. -/
  id : Nat
  deriving DecidableEq, Repr, Inhabited

/-- R-trees of type `T`: the constructor from a range, and the iteration from `begin()` to `end()`. -/
structure RTree (T : Type*) where
  /-- A tree of some values. -/
  ofRange : List Value → T
  /-- The values of a tree, in the order of the iterator. -/
  iterate : T → List Value

/-- A tree iterates over exactly the values that it was built from. -/
def RTree.Faithful {T : Type*} (rtree : RTree T) : Prop :=
  ∀ vs, (rtree.iterate (rtree.ofRange vs)).Perm vs

/-- What a `shared_ptr<VersionNode>` points to. -/
inductive VersionNode (T : Type*) where
  /-- The null pointer. -/
  | nullptr
  /-- A version: the batch that made it on top of its parent, and a base if it caches one. -/
  | node (parent : VersionNode T) (depth : Nat) (deltaInserts deltaRemoves : List Value)
      (cachedBase : Option T) (cumulativeLogSize currentBaseSize : Nat)

namespace VersionNode

variable {T : Type*}

def depth : VersionNode T → Nat
  | nullptr => 0
  | node _ depth _ _ _ _ _ => depth

def deltaInserts : VersionNode T → List Value
  | nullptr => []
  | node _ _ deltaInserts _ _ _ _ => deltaInserts

def deltaRemoves : VersionNode T → List Value
  | nullptr => []
  | node _ _ _ deltaRemoves _ _ _ => deltaRemoves

def cachedBase : VersionNode T → Option T
  | nullptr => none
  | node _ _ _ _ cachedBase _ _ => cachedBase

def cumulativeLogSize : VersionNode T → Nat
  | nullptr => 0
  | node _ _ _ _ _ cumulativeLogSize _ => cumulativeLogSize

def currentBaseSize : VersionNode T → Nat
  | nullptr => 0
  | node _ _ _ _ _ _ currentBaseSize => currentBaseSize

/-- The first loop of `get_query_view`: the nodes up to the first one with a base, nearest first, and
that base. -/
def path : VersionNode T → List (VersionNode T) × Option T
  | nullptr => ([], none)
  | node parent depth ins rem none logSize baseSize =>
    (node parent depth ins rem none logSize baseSize :: parent.path.1, parent.path.2)
  | node _ _ _ _ (some base) _ _ => ([], some base)

end VersionNode

/-- The three results of `get_query_view`. -/
structure QueryView (T : Type*) where
  /-- The nearest base on the path. -/
  outBase : Option T
  /-- The identifiers that are removed behind it. -/
  outRemovedIds : Finset ℕ
  /-- The inserts behind it that are not removed. -/
  outPendingInserts : List Value

section

variable {T : Type*}

/-- `get_query_view`: first all removed identifiers of the path, then the inserts that they leave. -/
def getQueryView (node : VersionNode T) : QueryView T :=
  let (path, outBase) := node.path
  let outRemovedIds := (path.reverse.flatMap fun n => n.deltaRemoves.map Value.id).toFinset
  let outPendingInserts :=
    (path.reverse.flatMap VersionNode.deltaInserts).filter fun ins => ins.id ∉ outRemovedIds
  { outBase, outRemovedIds, outPendingInserts }

variable (rtree : RTree T)

/-- `is_alive`, over a range of the base. -/
def aliveIn (removedIds : Finset ℕ) (base : T) : List Value :=
  (rtree.iterate base).filter fun v => v.id ∉ removedIds

/-- `map_init`. -/
def mapInit (basePoints : List Value) : VersionNode T :=
  .node .nullptr 0 [] [] (some (rtree.ofRange basePoints)) 0 basePoints.length

/-- `check_compact`: cache a base when the log has grown to `p` times the size of the last one. A
path without a base would be a null dereference. -/
def checkCompact (p : FT) : VersionNode T → Option (VersionNode T)
  | .nullptr => none
  | .node parent depth ins rem cached logSize baseSize =>
    let node := .node parent depth ins rem cached logSize baseSize
    if (logSize : FT) ≥ p * baseSize then do
      let view := getQueryView node
      let base ← view.outBase
      let nextPts := aliveIn rtree view.outRemovedIds base ++ view.outPendingInserts
      return .node parent depth ins rem (some (rtree.ofRange nextPts)) 0 nextPts.length
    else some node

/-- The node of `map_insert` before `check_compact`. -/
def insertNode (parent : VersionNode T) (insertPts : List Value) : VersionNode T :=
  match parent with
  | .nullptr => .node .nullptr 0 insertPts [] none 0 0
  | parent => .node parent (parent.depth + 1) insertPts [] none
      (parent.cumulativeLogSize + insertPts.length) parent.currentBaseSize

/-- `map_insert`. -/
def mapInsert (parent : VersionNode T) (insertPts : List Value) (p : FT) : Option (VersionNode T) :=
  checkCompact rtree p (insertNode parent insertPts)

/-- The node of `map_delete` before `check_compact`. -/
def deleteNode (parent : VersionNode T) (deletePts : List Value) : VersionNode T :=
  match parent with
  | .nullptr => .node .nullptr 0 [] deletePts none 0 0
  | parent => .node parent (parent.depth + 1) [] deletePts none
      (parent.cumulativeLogSize + deletePts.length) parent.currentBaseSize

/-- `map_delete`. -/
def mapDelete (parent : VersionNode T) (deletePts : List Value) (p : FT) : Option (VersionNode T) :=
  checkCompact rtree p (deleteNode parent deletePts)

/-! ## Chains of versions -/

/-- The points that the query view of a version shows. -/
def visible (node : VersionNode T) : List Value :=
  let view := getQueryView node
  (match view.outBase with
    | some base => aliveIn rtree view.outRemovedIds base
    | none => []) ++ view.outPendingInserts

/-- One call that grows a chain, with its threshold. -/
inductive Step where
  /-- Insertion of a batch. -/
  | mapInsert (insertPts : List Value) (p : FT)
  /-- Deletion of a batch. -/
  | mapDelete (deletePts : List Value) (p : FT)

/-- The version that a call makes. -/
def Step.apply (parent : VersionNode T) : Step → Option (VersionNode T)
  | mapInsert insertPts p => Rlog.mapInsert rtree parent insertPts p
  | mapDelete deletePts p => Rlog.mapDelete rtree parent deletePts p

/-- All versions of a chain, from the given one on. -/
def grow (node : VersionNode T) : List Step → Option (List (VersionNode T))
  | [] => some [node]
  | s :: steps => do
    let next ← s.apply rtree node
    let rest ← grow next steps
    return node :: rest

/-- What a call is meant to do to the points. -/
def Step.delta : Step → DeltaLog.Delta Value
  | mapInsert insertPts _ => .insert insertPts
  | mapDelete deletePts _ => .delete deletePts

/-- The contents of all versions of a chain: its calls replayed one after the other. -/
def replays (points : List Value) : List Step → List (List Value)
  | [] => [points]
  | s :: steps => points :: replays (s.delta.apply Value.id points) steps

/-- The identifiers that deletions have removed since the last version with a base of its own. -/
def pendingRemovals : VersionNode T → List ℕ
  | .node parent _ _ rem none _ _ => pendingRemovals parent ++ rem.map Value.id
  | _ => []

/-- No insertion of the chain names an identifier that is pending as removed at that time. -/
def NoReinsertion (node : VersionNode T) : List Step → Prop
  | [] => True
  | s :: steps =>
    (∀ insertPts p, s = .mapInsert insertPts p → ∀ v ∈ insertPts, v.id ∉ pendingRemovals node) ∧
      ∀ next, s.apply rtree node = some next → NoReinsertion next steps

end

end Rlog

end Silva
