import Silva.Geo.Operations

/-!
# The multi-version quadtree: nodes and updates (`include/silva/index/mvq.hpp`)

A `shared_ptr<BaseNode>` is read as the tree it owns. Path copying never changes a tree that another
version can reach, so an update is a function from trees to trees; `Silva.Mvq.Store` models the same
updates on a store with addresses. The two calls of a `par_do` touch disjoint subtrees and are run
one after the other.
-/

namespace Silva

/-- What a `shared_ptr<BaseNode>` points to. -/
inductive BaseNode where
  /-- The null pointer: an empty version, or a missing child. -/
  | nullptr
  /-- A leaf: its records. -/
  | leafNode (records : List Point)
  /-- An interior node: its sons and the number of points below it. -/
  | inteNode (lSon rSon : BaseNode) (numPts : Nat)
  deriving DecidableEq, Repr, Inhabited

namespace BaseNode

/-- `get_num_points`, guarded as everywhere in the source: `x == nullptr ? 0 : x->get_num_points()`. -/
def getNumPoints : BaseNode → Nat
  | nullptr => 0
  | leafNode records => records.length
  | inteNode _ _ numPts => numPts

/-- The records read through `static_cast<LeafNode*>`; the cast is undefined on other nodes. -/
def asLeaf : BaseNode → Option (List Point)
  | leafNode records => some records
  | _ => none

end BaseNode

namespace Tree

open BaseNode

/-- `create_internal`, through `merge_nodes`. -/
def createInternal (L R : BaseNode) : BaseNode := inteNode L R (L.getNumPoints + R.getNumPoints)

/-- `build(P, b)`. -/
def buildNode (leafSize : Nat) : (P : List Point) → (b : Nat) → BaseNode
  | P, 0 => leafNode P
  | P, b + 1 =>
    if P.length ≤ leafSize then leafNode P
    else
      let splitter := splitByBit P 0 P.length (b + 1)
      let L := if 0 < splitter then buildNode leafSize (P.take splitter) b else nullptr
      let R := if splitter < P.length then buildNode leafSize (P.drop splitter) b else nullptr
      createInternal L R

/-- `build(P)` on a fresh tree: the root that it leaves behind. -/
def build (leafSize : Nat) (P : List Point) : BaseNode :=
  if P.isEmpty then nullptr else buildNode leafSize P 64

/-- `multi_version_batch_insert_sorted_node`: the node that `x` refers to afterwards. -/
def multiVersionBatchInsertSortedNode (leafSize : Nat) : BaseNode → List Point → Nat → BaseNode
  | nullptr, P, b => buildNode leafSize P b
  | leafNode records, P, b =>
    if b = 0 ∨ records.length + P.length ≤ leafSize then
      leafNode (parlayMerge mortonCmp records P)
    else buildNode leafSize (parlayMerge mortonCmp records P) b
  | inteNode lSon rSon _, P, b =>
    let splitter := splitByBit P 0 P.length b
    let newLSon :=
      if 0 < splitter then multiVersionBatchInsertSortedNode leafSize lSon (P.take splitter) (b - 1)
      else lSon
    let newRSon :=
      if splitter < P.length then
        multiVersionBatchInsertSortedNode leafSize rSon (P.drop splitter) (b - 1)
      else rSon
    inteNode newLSon newRSon (newLSon.getNumPoints + newRSon.getNumPoints)

/-- `multi_version_batch_insert_sorted`. -/
def multiVersionBatchInsertSorted (leafSize : Nat) (P : List Point) (oldRoot : BaseNode) : BaseNode :=
  multiVersionBatchInsertSortedNode leafSize oldRoot P 64

/-- The end of `multi_version_batch_delete_sorted_node`: what becomes of an interior node once its
children are updated. Two children that fit into one leaf are merged through leaf casts. Where the node
is replaced, the source still reads and writes it after it may have been destroyed (`Store.collapse`);
only the value of `x` is modelled. -/
def collapse (leafSize : Nat) (newLSon newRSon : BaseNode) : Option BaseNode :=
  match newLSon, newRSon with
  | nullptr, nullptr => some nullptr
  | nullptr, newRSon =>
    if newRSon.getNumPoints ≤ leafSize then some newRSon
    else some (inteNode nullptr newRSon (0 + newRSon.getNumPoints))
  | newLSon, nullptr =>
    if newLSon.getNumPoints ≤ leafSize then some newLSon
    else some (inteNode newLSon nullptr (newLSon.getNumPoints + 0))
  | newLSon, newRSon =>
    if newLSon.getNumPoints + newRSon.getNumPoints ≤ leafSize then do
      let L ← newLSon.asLeaf
      let R ← newRSon.asLeaf
      some (leafNode (parlayMerge mortonCmp L R))
    else some (inteNode newLSon newRSon (newLSon.getNumPoints + newRSon.getNumPoints))

/-- `multi_version_batch_delete_sorted_node`: the node that `x` refers to afterwards, unless a leaf
cast is invalid. -/
def multiVersionBatchDeleteSortedNode (leafSize : Nat) :
    BaseNode → List Point → Nat → Option BaseNode
  | nullptr, _, _ => some nullptr
  | leafNode records, P, _ =>
    let records := getDeleteP records P 0 P.length (fun _ => true)
    if records.length = 0 then some nullptr else some (leafNode records)
  | inteNode lSon rSon _, P, b => do
    let splitter := splitByBit P 0 P.length b
    let newLSon ←
      if 0 < splitter then multiVersionBatchDeleteSortedNode leafSize lSon (P.take splitter) (b - 1)
      else some lSon
    let newRSon ←
      if splitter < P.length then
        multiVersionBatchDeleteSortedNode leafSize rSon (P.drop splitter) (b - 1)
      else some rSon
    collapse leafSize newLSon newRSon

/-- `multi_version_batch_delete_sorted`. -/
def multiVersionBatchDeleteSorted (leafSize : Nat) (P : List Point) (oldRoot : BaseNode) :
    Option BaseNode :=
  multiVersionBatchDeleteSortedNode leafSize oldRoot P 64

/-- `commit`: delete, then insert. -/
def commit (leafSize : Nat) (oldVersion : BaseNode) (PInsert PDelete : List Point) :
    Option BaseNode := do
  let tmpVer ← multiVersionBatchDeleteSorted leafSize (getSortedPoints PDelete) oldVersion
  return multiVersionBatchInsertSorted leafSize (getSortedPoints PInsert) tmpVer

/-- `collect_records(x)`: the records of a version, in order. -/
def collectRecords : BaseNode → List Point
  | nullptr => []
  | leafNode records => records
  | inteNode lSon rSon _ => collectRecords lSon ++ collectRecords rSon

end Tree

end Silva
