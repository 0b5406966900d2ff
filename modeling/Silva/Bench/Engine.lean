import Silva.Bench.Dataset

/-!
# Replaying a workload (`benchmarks/benchmark_engine.hpp`)

The engine keeps the live points in a map, turns every event into a batch of added and a batch of
removed points, and commits the two to a runner. The queries at checkpoints do not change anything and
are left out, with the list of all points that they draw from.
-/

namespace Silva

namespace Bench

/-- `active_nodes`, a map from identifiers to points with that identifier. -/
structure ActiveNodes where
  /-- The points that are active. -/
  points : List Point
  /-- A map has one point for each identifier. -/
  nodup : (points.map Point.id).Nodup

namespace ActiveNodes

/-- The map without an entry. -/
def empty : ActiveNodes := ⟨[], List.nodup_nil⟩

/-- `active_nodes.find(id)`. -/
def find (active : ActiveNodes) (id : ℕ) : Option Point := active.points.find? fun p => p.id = id

/-- `active_nodes.erase(id)`. -/
def erase (active : ActiveNodes) (id : ℕ) : ActiveNodes where
  points := active.points.filter fun p => p.id ≠ id
  nodup := active.nodup.sublist (List.filter_sublist.map _)

/-- `active_nodes[pt.id] = pt`. -/
def insert (active : ActiveNodes) (pt : Point) : ActiveNodes where
  points := (active.erase pt.id).points ++ [pt]
  nodup := by
    rw [List.map_append, List.nodup_append']
    refine ⟨(active.erase pt.id).nodup, List.nodup_singleton _, fun i hi hpt => ?_⟩
    obtain ⟨p, hp, rfl⟩ := List.mem_map.mp hi
    exact of_decide_eq_true (List.mem_filter.mp hp).2 (List.mem_singleton.mp hpt)

end ActiveNodes

/-- The variables of the loop over the operations of an event. -/
structure EventState where
  /-- The points to be inserted. -/
  adds : List Point
  /-- The points to be deleted. -/
  rems : List Point
  /-- The active points after the operations so far. -/
  active : ActiveNodes

/-- One iteration of that loop. -/
def EventState.applyOp (s : EventState) (op : Operation) : EventState :=
  if op.opType = 'A' then
    { s with adds := s.adds ++ [op.pt], active := s.active.insert op.pt }
  else if op.opType = 'M' then
    { adds := s.adds ++ [op.pt]
      rems := s.rems ++ (s.active.find op.nodeId).toList
      active := s.active.insert op.pt }
  else if op.opType = 'D' then
    match s.active.find op.nodeId with
    | some old => { s with rems := s.rems ++ [old], active := s.active.erase op.nodeId }
    | none => s
  else s

/-- The batches of an event, and the live points after it. -/
def applyEvent (active : ActiveNodes) (event : Event) : EventState :=
  event.ops.foldl EventState.applyOp ⟨[], [], active⟩

/-- The live points of the snapshot. -/
def initActive (baseData : List Point) : ActiveNodes :=
  baseData.foldl ActiveNodes.insert .empty

variable {σ : Type*} (commit : σ → List Point → List Point → Option σ)

/-- The loop over the events: the runner and the live points after every commit. -/
def runEvents : σ → ActiveNodes → List Event → Option (List (σ × ActiveNodes))
  | _, _, [] => some []
  | runner, active, event :: events => do
    let s := applyEvent active event
    let runner ← commit runner (getSortedPoints s.adds) (getSortedPoints s.rems)
    let rest ← runEvents runner s.active events
    return (runner, s.active) :: rest

/-- `run_workload`. -/
def runWorkload (runner : σ) (data : DatasetLoader) : Option (List (σ × ActiveNodes)) :=
  runEvents commit runner (initActive data.baseData) data.allEvents

end Bench

end Silva
