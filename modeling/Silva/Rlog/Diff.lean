import Silva.Geo.Operations
import Silva.Rlog.Version

/-!
# The difference of two versions (`map_spatial_diff` in `include/silva/baselines/rlog_tree.hpp`)

The function compares pointers, so here a `shared_ptr<VersionNode>` is read as the chain of nodes that
it starts, each with its address. It walks both chains back to their common node and folds what it
meets into one state for each identifier and branch and one value for each identifier. The order in
which an `unordered_map` is iterated is left open.
-/

namespace Silva

namespace Rlog

variable {T : Type*}

/-- A `shared_ptr<VersionNode>`: the node that it points to, then its ancestors, with their
addresses. The null pointer is the empty chain. -/
abbrev Ptr (T : Type*) := List (ℕ × VersionNode T)

namespace Ptr

/-- The address of a pointer. -/
def address (p : Ptr T) : Option ℕ := p.head?.map Prod.fst

/-- `ptr->depth`. -/
def depth : Ptr T → ℕ
  | [] => 0
  | (_, n) :: _ => n.depth

/-- What a pointer points to. -/
def node : Ptr T → VersionNode T
  | [] => .nullptr
  | (_, n) :: _ => n

end Ptr

/-- `bg::intersects(val.first, box)`. -/
def Value.intersects (val : Value) (box : BoundingBox) : Bool := pointInMbr (.ofXY val.x val.y) box

/-- `diff_type`. -/
structure DiffType where
  /-- The added points. -/
  add : List Value
  /-- The removed points. -/
  remove : List Value
  deriving DecidableEq, Repr, Inhabited

/-- `while (ptr1 && ptr2 && ptr1->depth > ptr2->depth) ptr1 = ptr1->parent`. -/
def raise : Ptr T → Ptr T → Ptr T
  | [], _ => []
  | p, [] => p
  | (a, n) :: parent, ptr2 => if n.depth > ptr2.depth then raise parent ptr2 else (a, n) :: parent

/-- The loop that moves both pointers up until they meet. -/
def commonAncestor : Ptr T → Ptr T → Ptr T
  | [], _ => []
  | p, [] => p
  | (a, n) :: parent1, (b, _) :: parent2 =>
    if a = b then (a, n) :: parent1 else commonAncestor parent1 parent2

/-- The state of one branch and the values, which both branches share. -/
structure Trace where
  /-- What the branch has done to each identifier. -/
  state : AList fun _ : ℕ => ℤ
  /-- The point that was seen last under each identifier. -/
  values : AList fun _ : ℕ => Value

/-- One iteration over `delta_removes`. -/
def traceRemove (t : Trace) (rm : Value) : Trace where
  state := if rm.id ∈ t.state then t.state else t.state.insert rm.id (-1)
  values := t.values.insert rm.id rm

/-- One iteration over `delta_inserts`. -/
def traceInsert (t : Trace) (ins : Value) : Trace where
  state :=
    match t.state.lookup ins.id with
    | none => t.state.insert ins.id 1
    | some s => if s = -1 then t.state.insert ins.id 0 else t.state
  values := t.values.insert ins.id ins

/-- `trace_branch`, from a leaf up to the common ancestor. -/
def traceBranch (lca : Ptr T) : Ptr T → Trace → Trace
  | [], t => t
  | (a, n) :: parent, t =>
    if lca.address = some a then t
    else traceBranch lca parent (n.deltaInserts.foldl traceInsert (n.deltaRemoves.foldl traceRemove t))

/-- One iteration over `values`. -/
def diffStep (state1 state2 : AList fun _ : ℕ => ℤ) (q : BoundingBox) (outDiff : DiffType)
    (kv : Sigma fun _ : ℕ => Value) : DiffType :=
  if !kv.2.intersects q then outDiff
  else
    let s1 := (state1.lookup kv.1).getD 0
    let s2 := (state2.lookup kv.1).getD 0
    let netChange := s2 - s1
    if netChange > 0 then { outDiff with add := outDiff.add ++ [kv.2] }
    else if netChange < 0 then { outDiff with remove := outDiff.remove ++ [kv.2] }
    else outDiff

/-- `map_spatial_diff`. -/
def mapSpatialDiff (v1 v2 : Ptr T) (q : BoundingBox) (outDiff : DiffType) : DiffType :=
  if v1.address = v2.address then outDiff
  else
    let ptr1 := raise v1 v2
    let ptr2 := raise v2 ptr1
    let lca := commonAncestor ptr1 ptr2
    let trace1 := traceBranch lca v1 ⟨∅, ∅⟩
    let trace2 := traceBranch lca v2 ⟨∅, trace1.values⟩
    trace2.values.entries.foldl (diffStep trace1.state trace2.state q) outDiff

/-! ## Version trees -/

/-- The pointers to the versions that have grown from one `map_init`, in the order of the calls. A new
node gets a new address. -/
inductive VersionTree (rtree : RTree T) (basePoints : List Value) : List (Ptr T) → Prop where
  /-- The first version. -/
  | mapInit : VersionTree rtree basePoints [[(0, mapInit rtree basePoints)]]
  /-- A call on one of the versions. -/
  | apply {ptrs : List (Ptr T)} (h : VersionTree rtree basePoints ptrs) {parent : Ptr T}
      (hparent : parent ∈ ptrs) (s : Step) {next : VersionNode T}
      (hnext : s.apply rtree parent.node = some next) :
      VersionTree rtree basePoints (ptrs ++ [(ptrs.length, next) :: parent])

open DeltaLog (Delta)

/-- The contents of a version: the batches of its chain replayed one after the other. -/
def contents (basePoints : List Value) : Ptr T → List Value
  | [] => basePoints
  | (_, n) :: parent =>
    Delta.apply Value.id (Delta.apply Value.id (contents basePoints parent) (.delete n.deltaRemoves))
      (.insert n.deltaInserts)

/-! ## Changes -/

/-- What happens to one point in one version. -/
inductive Change where
  /-- The point is removed. -/
  | removed (val : Value)
  /-- The point is inserted. -/
  | inserted (val : Value)
  deriving DecidableEq, Repr

namespace Change

/-- The point that a change names. -/
def val : Change → Value
  | removed val => val
  | inserted val => val

def isInserted : Change → Bool
  | removed _ => false
  | inserted _ => true

end Change

/-- The changes of a branch, newest version first. -/
def changes (branch : Ptr T) : List Change :=
  branch.flatMap fun n => n.2.deltaRemoves.map .removed ++ n.2.deltaInserts.map .inserted

/-- The changes of one identifier. -/
def changesOf (branch : Ptr T) (i : ℕ) : List Change :=
  (changes branch).filter fun c => c.val.id = i

/-- The versions of a chain that are not on the other one. -/
def branchOf (v other : Ptr T) : Ptr T := v.filter fun n => n.1 ∉ other.map Prod.fst

/-- The point of an identifier in a version. -/
def stored (basePoints : List Value) (v : Ptr T) (i : ℕ) : Option Value :=
  (contents basePoints v).find? fun w => w.id = i

/-- Batches as the index expects them: deletions name stored points, and no version has an identifier
twice. -/
def Proper (basePoints : List Value) : Ptr T → Prop
  | [] => (basePoints.map Value.id).Nodup
  | n :: parent => Proper basePoints parent ∧ n.2.deltaRemoves ⊆ contents basePoints parent ∧
      ((contents basePoints (n :: parent)).map Value.id).Nodup

instance decidableProper (basePoints : List Value) : ∀ v : Ptr T, Decidable (Proper basePoints v)
  | [] => inferInstanceAs (Decidable (basePoints.map Value.id).Nodup)
  | n :: parent =>
    have := decidableProper basePoints parent
    inferInstanceAs (Decidable (Proper basePoints parent ∧
      n.2.deltaRemoves ⊆ contents basePoints parent ∧
        ((contents basePoints (n :: parent)).map Value.id).Nodup))

/-- The logs of an identifier on two branches, newest change first, that the walk misreads. `first` is
the oldest change that it meets. -/
inductive Misread (q : BoundingBox) (first : Change) : List Change → List Change → Prop where
  /-- Inserted on both branches, at different points: nothing is reported. -/
  | twoPoints {b c : Value} {older older' : List Change} (hne : b ≠ c)
      (hbox : b.intersects q ∨ c.intersects q) :
      Misread q first (.inserted b :: older) (.inserted c :: older')
  /-- Inserted on one branch only, at another point than the one that is remembered. -/
  | otherPoint {b : Value} {older other : List Change}
      (hother : ∀ c ∈ other.head?, c.isInserted = false) (hne : first.val ≠ b)
      (hbox : b.intersects q ∨ first.val.intersects q) : Misread q first (.inserted b :: older) other
  /-- Inserted again where it was removed, and left alone on the other branch: it is reported. -/
  | samePoint {b : Value} {older : List Change} (hfirst : first = .removed b)
      (hbox : b.intersects q) : Misread q first (.inserted b :: older) []
  /-- Removed, inserted and removed again, which counts as no change, and never inserted on the other
  branch. -/
  | removedAgain {a b : Value} {older other : List Change} (holder : older.any Change.isInserted)
      (hother : other.any Change.isInserted = false) (hfirst : first = .removed a)
      (hbox : a.intersects q) : Misread q first (.removed b :: older) other

/-- An identifier whose logs on the branches of two versions are misread. The walk ends with the
second branch, so the oldest change that it meets is there, if there is one. -/
def Misreported (v1 v2 : Ptr T) (q : BoundingBox) (i : ℕ) : Prop :=
  let log1 := changesOf (branchOf v1 v2) i
  let log2 := changesOf (branchOf v2 v1) i
  ∃ first, log2.getLast?.or log1.getLast? = some first ∧
    (Misread q first log1 log2 ∨ Misread q first log2 log1)

end Rlog

end Silva
