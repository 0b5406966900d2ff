import Silva.Mvq.History
import Silva.Lib.RefCount

/-!
# The updates on a store of nodes (`include/silva/index/mvq.hpp`)

The functions of `Silva.Mvq.Tree` once more, on a store with addresses. A node is allocated at the end
of the store, an assignment to a field overwrites the node in place, and reading through a pointer
that has no node is an error. A function that takes `shared_ptr<BaseNode> &x` returns the new `x`.
-/

namespace Silva

open RefCount (Ptr Mem)

/-- `InteNode` and `LeafNode`. -/
inductive Node where
  /-- An interior node: its sons and the number of points below it. -/
  | inteNode (lSon rSon : Ptr) (numPts : Nat)
  /-- A leaf: its records. -/
  | leafNode (records : List Point)
  deriving DecidableEq, Repr

/-- All nodes, by address. A destroyed node keeps its address and holds no pointer. -/
abbrev Store := List Node

namespace Node

/-- The pointers that a node holds. -/
def sons : Node → List Ptr
  | inteNode lSon rSon _ => [lSon, rSon]
  | leafNode _ => []

def getNumPoints : Node → Nat
  | inteNode _ _ numPts => numPts
  | leafNode records => records.length

end Node

namespace Store

open Node

/-- `x == nullptr ? 0 : x->get_num_points()`. -/
def getNumPoints (store : Store) : Ptr → Option Nat
  | none => some 0
  | some a => do
    let n ← store[a]?
    return n.getNumPoints

/-- The records read through `static_cast<LeafNode*>`; the cast is undefined on other nodes. -/
def asLeaf (store : Store) : Ptr → Option (List Point)
  | none => none
  | some a => do
    match ← store[a]? with
    | leafNode records => some records
    | inteNode _ _ _ => none

/-- `new`: a fresh node. -/
def alloc (store : Store) (n : Node) : Store × Ptr := (store ++ [n], some store.length)

/-- `node_copy`. -/
def nodeCopy (store : Store) : Ptr → Option (Store × Ptr)
  | none => some (store, none)
  | some a => do
    let n ← store[a]?
    return store.alloc n

/-- `create_leaf`. -/
def createLeaf (store : Store) (P : List Point) : Store × Ptr := store.alloc (leafNode P)

/-- `merge_nodes` and `delete_merge_nodes`: the fields of the interior node at `curNode` are set. -/
def mergeNodes (store : Store) (L R : Ptr) (curNode : Nat) : Option Store := do
  let lNumPts ← store.getNumPoints L
  let rNumPts ← store.getNumPoints R
  return store.set curNode (inteNode L R (lNumPts + rNumPts))

/-- `cur_inte->num_pts = …`, from the sons that the node has. -/
def updateNumPts (store : Store) (curInte : Nat) : Option Store := do
  match ← store[curInte]? with
  | inteNode lSon rSon _ => mergeNodes store lSon rSon curInte
  | leafNode _ => none

/-- `create_internal`. -/
def createInternal (store : Store) (L R : Ptr) : Option (Store × Ptr) := do
  let curNode := store.length
  let store ← mergeNodes (store ++ [inteNode none none 0]) L R curNode
  return (store, some curNode)

/-- `build(P, b)`. -/
def buildNode (leafSize : Nat) : (b : Nat) → Store → (P : List Point) → Option (Store × Ptr)
  | 0, store, P => some (store.createLeaf P)
  | b + 1, store, P =>
    if P.length ≤ leafSize then some (store.createLeaf P)
    else do
      let splitter := splitByBit P 0 P.length (b + 1)
      let (store, L) ← (if 0 < splitter then buildNode leafSize b store (P.take splitter)
        else some (store, none))
      let (store, R) ← (if splitter < P.length then buildNode leafSize b store (P.drop splitter)
        else some (store, none))
      createInternal store L R

/-- `build(P)` on a fresh tree: the root that it leaves behind. -/
def build (leafSize : Nat) (store : Store) (P : List Point) : Option (Store × Ptr) :=
  if P.isEmpty then some (store, none) else buildNode leafSize 64 store P

/-- `multi_version_batch_insert_sorted_node`. No interior node sits at level 0. -/
def multiVersionBatchInsertSortedNode (leafSize : Nat) :
    (b : Nat) → Store → (x : Ptr) → (P : List Point) → Option (Store × Ptr)
  | b, store, none, P => buildNode leafSize b store P
  | b, store, some a, P => do
    match ← store[a]? with
    | leafNode records =>
      if b = 0 ∨ records.length + P.length ≤ leafSize then
        some (store.set a (leafNode (parlayMerge mortonCmp records P)), some a)
      else buildNode leafSize b store (parlayMerge mortonCmp records P)
    | inteNode lSon rSon _ =>
      match b with
      | 0 => none
      | b + 1 =>
        let splitter := splitByBit P 0 P.length (b + 1)
        let (store, newLSon) ← (if 0 < splitter then do
            let (store, newLSon) ← nodeCopy store lSon
            multiVersionBatchInsertSortedNode leafSize b store newLSon (P.take splitter)
          else some (store, lSon))
        let (store, newRSon) ← (if splitter < P.length then do
            let (store, newRSon) ← nodeCopy store rSon
            multiVersionBatchInsertSortedNode leafSize b store newRSon (P.drop splitter)
          else some (store, rSon))
        let store ← mergeNodes store newLSon newRSon a
        return (store, some a)

/-- `multi_version_batch_insert_sorted`. -/
def multiVersionBatchInsertSorted (leafSize : Nat) (store : Store) (P : List Point)
    (oldRoot : Ptr) : Option (Store × Ptr) := do
  let (store, newRoot) ← nodeCopy store oldRoot
  multiVersionBatchInsertSortedNode leafSize 64 store newRoot P

/-- What `x` becomes once the sons of its interior node, at `a`, are updated and not both null. Two
sons that fit into one leaf go there; the leaf is created twice. -/
def chooseNode (leafSize : Nat) (store : Store) (a : Nat) (newLSon newRSon : Ptr) :
    Option (Store × Ptr) := do
  let lNumPts ← store.getNumPoints newLSon
  let rNumPts ← store.getNumPoints newRSon
  if newLSon = none then return (store, if rNumPts ≤ leafSize then newRSon else some a)
  else if newRSon = none then return (store, if lNumPts ≤ leafSize then newLSon else some a)
  else if lNumPts + rNumPts ≤ leafSize then do
    let L ← store.asLeaf newLSon
    let R ← store.asLeaf newRSon
    let (store, _) := store.createLeaf (parlayMerge mortonCmp L R)
    return store.createLeaf (parlayMerge mortonCmp L R)
  else do
    let store ← mergeNodes store newLSon newRSon a
    return (store, some a)

/-- The interior node at `a` is destroyed when `x`, its only owner, no longer points to it. -/
def destroyUnless (store : Store) (a : Nat) (x : Ptr) : Store :=
  if x = some a then store else store.set a (inteNode none none 0)

/-- The end of `multi_version_batch_delete_sorted_node`, when the node has its new sons. The source
assigns to `x` first (lines 1456, 1460 and 1467) and then reads the sons of `cur_inte` and assigns to
its `num_pts` (lines 1475 to 1477). Where `x` was the only owner the node is destroyed by then, and
these accesses are undefined behaviour. Here the node is destroyed after them. -/
def collapse (leafSize : Nat) (store : Store) (a : Nat) (newLSon newRSon : Ptr) :
    Option (Store × Ptr) :=
  if newLSon = none ∧ newRSon = none then some (destroyUnless store a none, none)
  else do
    let (store, x) ← chooseNode leafSize store a newLSon newRSon
    let store ← updateNumPts store a
    return (destroyUnless store a x, x)

/-- `multi_version_batch_delete_sorted_node`. -/
def multiVersionBatchDeleteSortedNode (leafSize : Nat) :
    (b : Nat) → Store → (x : Ptr) → (P : List Point) → Option (Store × Ptr)
  | _, store, none, _ => some (store, none)
  | b, store, some a, P => do
    match ← store[a]? with
    | leafNode records =>
      let records := getDeleteP records P 0 P.length (fun _ => true)
      return (store.set a (leafNode records), if records.length = 0 then none else some a)
    | inteNode lSon rSon numPts =>
      match b with
      | 0 => none
      | b + 1 =>
        let splitter := splitByBit P 0 P.length (b + 1)
        let (store, newLSon) ← (if 0 < splitter then do
            let (store, newLSon) ← nodeCopy store lSon
            multiVersionBatchDeleteSortedNode leafSize b store newLSon (P.take splitter)
          else some (store, lSon))
        let (store, newRSon) ← (if splitter < P.length then do
            let (store, newRSon) ← nodeCopy store rSon
            multiVersionBatchDeleteSortedNode leafSize b store newRSon (P.drop splitter)
          else some (store, rSon))
        let store := store.set a (inteNode newLSon newRSon numPts)
        collapse leafSize store a newLSon newRSon

/-- `multi_version_batch_delete_sorted`. -/
def multiVersionBatchDeleteSorted (leafSize : Nat) (store : Store) (P : List Point)
    (oldRoot : Ptr) : Option (Store × Ptr) := do
  let (store, newRoot) ← nodeCopy store oldRoot
  multiVersionBatchDeleteSortedNode leafSize 64 store newRoot P

/-- The son of the node that `x` points to, the left one for `false`. -/
def son (store : Store) (x : Ptr) (side : Bool) : Ptr :=
  match x.bind (store[·]?) with
  | some (inteNode lSon rSon _) => if side then rSon else lSon
  | _ => none

/-- The pointer at the end of a path. -/
def ptrAt (store : Store) (x : Ptr) (path : List Bool) : Ptr := path.foldl (son store) x

/-- There is an interior node at the address. -/
def IsInte (store : Store) (a : Nat) : Prop := ∃ l r n, store[a]? = some (inteNode l r n)

/-- A code lies in the region at the end of a path that starts at level `b`. -/
def InRegion : (b : Nat) → (path : List Bool) → (code : Nat) → Prop
  | _, [], _ => True
  | b, side :: path, code => code.testBit (b - 1) = side ∧ InRegion (b - 1) path code

/-- Every interior node below `x` whose region has no key of the batch is below `x'`, at the same
position and the same address. -/
def Shares (b : Nat) (P : List Point) (store : Store) (x : Ptr) (store' : Store) (x' : Ptr) : Prop :=
  ∀ path a, path ≠ [] → IsInte store a → ptrAt store x path = some a →
    (∀ p ∈ P, ¬InRegion b path p.mortonId) → ptrAt store' x' path = some a

/-- The tree that is read from a pointer. -/
inductive Reads (store : Store) : Ptr → BaseNode → Prop where
  /-- A null pointer is the empty tree. -/
  | null : Reads store none .nullptr
  /-- A pointer to a leaf. -/
  | leaf {a : Nat} {P : List Point} (ha : store[a]? = some (leafNode P)) :
      Reads store (some a) (.leafNode P)
  /-- A pointer to an interior node, whose sons are read in turn. -/
  | inte {a n : Nat} {l r : Ptr} {tl tr : BaseNode} (ha : store[a]? = some (inteNode l r n))
      (hl : Reads store l tl) (hr : Reads store r tr) : Reads store (some a) (.inteNode tl tr n)

end Store

/-! ## Garbage collection -/

/-- A reference to a shared pointer: a variable, or a field of an interior node. -/
inductive Ref where
  /-- A variable. -/
  | var (i : Nat)
  /-- The left son of the node at `a`. -/
  | lSon (a : Nat)
  /-- The right son of the node at `a`. -/
  | rSon (a : Nat)
  deriving DecidableEq, Repr

namespace Tree

open Node

/-- The pointer that a reference stands for. -/
def deref (m : Mem Node) : Ref → Option Ptr
  | .var i => m.vars[i]?
  | .lSon a => do
    match ← m.store[a]? with
    | inteNode lSon _ _ => some lSon
    | leafNode _ => none
  | .rSon a => do
    match ← m.store[a]? with
    | inteNode _ rSon _ => some rSon
    | leafNode _ => none

/-- `x.reset()`, for an `x` whose node has other owners or holds no pointer. -/
def reset (m : Mem Node) : Ref → Mem Node
  | .var i => { m with vars := m.vars.set i none }
  | .lSon a =>
    match m.store[a]? with
    | some (inteNode _ rSon numPts) => { m with store := m.store.set a (inteNode none rSon numPts) }
    | _ => m
  | .rSon a =>
    match m.store[a]? with
    | some (inteNode lSon _ numPts) => { m with store := m.store.set a (inteNode lSon none numPts) }
    | _ => m

/-- `gc_nocheck`. The first argument bounds the depth of the walk. -/
def gcNocheck : Nat → Mem Node → (x : Ref) → Option (Mem Node)
  | 0, _, _ => none
  | depth + 1, m, x => do
    match ← deref m x with
    | none => some m
    | some a =>
      match ← m.store[a]? with
      | leafNode _ => some (reset m x)
      | inteNode _ _ _ =>
        if m.useCount sons a = 1 then do
          let m ← gcNocheck depth m (.lSon a)
          let m ← gcNocheck depth m (.rSon a)
          return reset m x
        else return reset m x

end Tree

/-! ## Histories -/

namespace Op

/-- The version that an operation works on. -/
def version : Op → Nat
  | insert v _ => v
  | delete v _ => v
  | commit v _ _ => v

/-- The points of the batches, with the codes that the operation gives them. -/
def batch : Op → List Point
  | insert _ P => P
  | delete _ P => P
  | commit _ PInsert PDelete => withCodes PDelete ++ withCodes PInsert

/-- One operation on a memory whose variables are the retained roots: the new root is added. A tree
has at most 65 levels, so `gc_nocheck` goes down to the null pointers below them. -/
def applyStore (leafSize : Nat) (m : Mem Node) : Op → Option (Mem Node)
  | insert v P => do
    let x ← m.vars[v]?
    let (store, newRoot) ← Store.multiVersionBatchInsertSorted leafSize m.store P x
    return { store, vars := m.vars ++ [newRoot] }
  | delete v P => do
    let x ← m.vars[v]?
    let (store, newRoot) ← Store.multiVersionBatchDeleteSorted leafSize m.store P x
    return { store, vars := m.vars ++ [newRoot] }
  | commit v PInsert PDelete => do
    let x ← m.vars[v]?
    let (store, tmpVer) ←
      Store.multiVersionBatchDeleteSorted leafSize m.store (getSortedPoints PDelete) x
    let (store, newVer) ←
      Store.multiVersionBatchInsertSorted leafSize store (getSortedPoints PInsert) tmpVer
    let tmp := m.vars.length + 1
    let m ← Tree.gcNocheck 66 { store, vars := m.vars ++ [newVer, tmpVer] } (.var tmp)
    return { m with vars := m.vars.eraseIdx tmp }

end Op

/-- A history on the store. -/
def runStore (leafSize : Nat) : List Op → Mem Node → Option (Mem Node)
  | [], m => some m
  | op :: ops, m => do
    let m ← op.applyStore leafSize m
    runStore leafSize ops m

/-- The memories that histories lead to. A version that is no longer retained takes the nodes with it
that only it owns, which are those that `gc_nocheck` resets. -/
inductive Reachable (leafSize : Nat) : Mem Node → Prop where
  /-- The first version. -/
  | build {P : List Point} {store : Store} {x : Ptr} (hP : Batch P)
      (h : Store.build leafSize [] P = some (store, x)) : Reachable leafSize { store, vars := [x] }
  /-- A persistent operation on one of the versions. -/
  | step {m m' : Mem Node} {op : Op} (hm : Reachable leafSize m) (hop : op.Sorted)
      (h : op.applyStore leafSize m = some m') : Reachable leafSize m'
  /-- A version is released. -/
  | release {m m' : Mem Node} {v : Nat} (hm : Reachable leafSize m) (hv : v < m.vars.length)
      (h : Tree.gcNocheck 66 m (.var v) = some m') :
      Reachable leafSize { m' with vars := m'.vars.eraseIdx v }

end Silva
