import Silva.Mvq.History
import Silva.Mvq.Versioning
import Silva.Lib.KeyedList

/-!
# What a three-way merge is for

A version whose identifiers are unique is a partial function from identifiers to points. A merge is
specified one identifier at a time, from its states in the base version and in the two branches.
-/

namespace Silva

/-- The versions that the merge is meant for. -/
structure PlainVersion (leafSize : Nat) (t : BaseNode) : Prop where
  /-- A version of some history. -/
  version : Version leafSize t
  /-- No identifier occurs twice. -/
  uniqueIds : ((Tree.collectRecords t).map Point.id).Nodup
  /-- All coordinates are integers. -/
  integer : ∀ p ∈ Tree.collectRecords t, p.IsInteger

/-- The state of an identifier in a version: its point, or none. -/
def stateOf (t : BaseNode) (i : Nat) : Option Point :=
  KeyedList.lookup Point.id (Tree.collectRecords t) i

/-- The outcome of an identifier: a change that only one branch made, or that both made alike, wins
over the base; two different changes leave the base as it is. -/
def threeWay (base state1 state2 : Option Point) : Option Point :=
  if state1 = state2 then state1
  else if state1 = base then state2
  else if state2 = base then state1
  else base

/-- Both branches inserted the identifier, at different coordinates. -/
def InsertConflict (base state1 state2 : Option Point) : Prop :=
  base = none ∧ ∃ p q, state1 = some p ∧ state2 = some q ∧ ¬SamePlace p q

/-- Both branches moved the identifier, to different coordinates. -/
def UpdateConflict (base state1 state2 : Option Point) : Prop :=
  ∃ b p q, base = some b ∧ state1 = some p ∧ state2 = some q ∧ ¬SamePlace p b ∧ ¬SamePlace q b ∧
    ¬SamePlace p q

/-- One branch deleted the identifier and the other one moved it. -/
def DeleteConflict (base state1 state2 : Option Point) : Prop :=
  ∃ b, base = some b ∧ ((state1 = none ∧ ∃ q, state2 = some q ∧ ¬SamePlace q b) ∨
    (state2 = none ∧ ∃ p, state1 = some p ∧ ¬SamePlace p b))

/-- What a merge has to report about an identifier `i`: each conflict in its own list, with the points
of the two sides, the base's point standing for a deletion, and nothing else. -/
structure ConflictsExact (ret : Tree.MergeResult) (base state1 state2 : Option Point) (i : Nat) :
    Prop where
  insert_iff : i ∈ ret.conflictInsert.map Point.id ↔ InsertConflict base state1 state2
  update_iff : i ∈ ret.conflictUpdate.map Point.id ↔ UpdateConflict base state1 state2
  delete_iff : i ∈ ret.conflictDelete.map Point.id ↔ DeleteConflict base state1 state2
  insert_points : InsertConflict base state1 state2 →
    ∃ p q, state1 = some p ∧ state2 = some q ∧ pointsOf ret.conflictInsert i = [p, q]
  update_points : UpdateConflict base state1 state2 →
    ∃ p q, state1 = some p ∧ state2 = some q ∧ pointsOf ret.conflictUpdate i = [p, q]
  delete_points : DeleteConflict base state1 state2 →
    ∃ b p, base = some b ∧ (state1 = some p ∨ state2 = some p) ∧
      pointsOf ret.conflictDelete i = [b, p]
  insert_not_update : ¬(InsertConflict base state1 state2 ∧ UpdateConflict base state1 state2)
  insert_not_delete : ¬(InsertConflict base state1 state2 ∧ DeleteConflict base state1 state2)
  update_not_delete : ¬(UpdateConflict base state1 state2 ∧ DeleteConflict base state1 state2)

/-- An identifier that all three versions hold is left in place by both branches, or moved by both to
different coordinates. -/
def NoLostMove (base node1 node2 : BaseNode) : Prop :=
  ∀ b ∈ Tree.collectRecords base, ∀ p ∈ Tree.collectRecords node1,
    ∀ q ∈ Tree.collectRecords node2, p.id = b.id → q.id = b.id →
      (SamePlace p b ∧ SamePlace q b) ∨ (¬SamePlace p b ∧ ¬SamePlace q b ∧ ¬SamePlace p q)

end Silva
