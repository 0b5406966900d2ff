import Silva.Geo.Operations

/-!
# Workloads (`include/silva/core/dataset_loader.hpp`)

A workload is a base snapshot and a list of events, each one the operations of a changeset. The loader
reads one file with the snapshot and at most one file with operations for each year; here a file is
the list of its lines, with the numbers parsed.
-/

namespace Silva

namespace Bench

/-- `struct Operation`. -/
structure Operation where
  /-- The kind of the operation; `D` is a deletion. -/
  opType : Char
  /-- The identifier of the point. -/
  nodeId : ℕ
  /-- Its first coordinate. -/
  lon : FT
  /-- Its second coordinate. -/
  lat : FT
  deriving DecidableEq, Repr

/-- The point of an operation that has coordinates. -/
def Operation.pt (op : Operation) : Point :=
  { id := op.nodeId, x := op.lon, y := op.lat, mortonId := 0 }

/-- `struct Event`, without the fields that are only printed. -/
structure Event where
  /-- The changeset that the operations come from. -/
  changesetId : ℕ
  /-- The operations, in the order of the file. -/
  ops : List Operation
  deriving DecidableEq, Repr

/-- The results of `DatasetLoader::load`. -/
structure DatasetLoader where
  /-- The points of the snapshot. -/
  baseData : List Point
  /-- The events of all years. -/
  allEvents : List Event
  /-- A box around all points of the data. -/
  largestMbr : BoundingBox

/-! ## Loading -/

/-- A line of the snapshot. -/
structure BaseRow where
  /-- The identifier of the point. -/
  nid : ℕ
  /-- Its first coordinate. -/
  lon : FT
  /-- Its second coordinate. -/
  lat : FT

/-- A line of a file with operations. -/
structure CommitRow where
  /-- The changeset. -/
  cs : ℕ
  /-- The kind of the operation; `D` is a deletion. -/
  op : Char
  /-- The identifier of the point. -/
  nid : ℕ
  /-- Its first coordinate. -/
  lon : FT
  /-- Its second coordinate. -/
  lat : FT

/-- `min_x`, `min_y`, `max_x` and `max_y`. -/
structure Extent where
  /-- The smallest first coordinate so far. -/
  minX : FT := 10 ^ 18
  /-- The smallest second coordinate so far. -/
  minY : FT := 10 ^ 18
  /-- The largest first coordinate so far. -/
  maxX : FT := -10 ^ 18
  /-- The largest second coordinate so far. -/
  maxY : FT := -10 ^ 18

/-- `update_mbr`. -/
def Extent.updateMbr (e : Extent) (lon lat : FT) : Extent :=
  { minX := if lon < e.minX then lon else e.minX
    minY := if lat < e.minY then lat else e.minY
    maxX := if lon > e.maxX then lon else e.maxX
    maxY := if lat > e.maxY then lat else e.maxY }

/-- `largest_mbr`, with 1% padding. -/
def Extent.largestMbr (e : Extent) : BoundingBox :=
  let dx := (e.maxX - e.minX) * (1 / 100)
  let dy := (e.maxY - e.minY) * (1 / 100)
  { first := .ofXY (e.minX - dx) (e.minY - dy), second := .ofXY (e.maxX + dx) (e.maxY + dy) }

/-- One line of the snapshot: degrees become millionths. -/
def loadBaseRow (st : Extent × List Point) (row : BaseRow) : Extent × List Point :=
  let lon := row.lon * 1000000
  let lat := row.lat * 1000000
  (st.1.updateMbr lon lat, st.2 ++ [{ id := row.nid, x := lon, y := lat, mortonId := 0 }])

/-- The variables of the loop over the lines of one year. -/
structure YearState where
  /-- The extent of the points so far. -/
  extent : Extent
  /-- The events that are complete. -/
  allEvents : List Event
  /-- The event that the lines are added to. -/
  currentEvent : Event
  /-- No line has been read yet. -/
  first : Bool

/-- The operation on a line; a deletion has no coordinates. -/
def CommitRow.operation (row : CommitRow) : Operation :=
  if row.op ≠ 'D' then
    { opType := row.op, nodeId := row.nid, lon := row.lon * 1000000, lat := row.lat * 1000000 }
  else { opType := row.op, nodeId := row.nid, lon := 0, lat := 0 }

/-- One line of a year: a new changeset identifier closes the current event. -/
def loadCommitRow (st : YearState) (row : CommitRow) : YearState :=
  let op := row.operation
  let extent := if op.opType ≠ 'D' then st.extent.updateMbr op.lon op.lat else st.extent
  let currentEvent :=
    if st.first then { st.currentEvent with changesetId := row.cs } else st.currentEvent
  let (allEvents, currentEvent) :=
    if currentEvent.changesetId ≠ row.cs then
      (st.allEvents ++ [currentEvent], { changesetId := row.cs, ops := [] })
    else (st.allEvents, currentEvent)
  { extent, allEvents, first := false
    currentEvent := { currentEvent with ops := currentEvent.ops ++ [op] } }

/-- The file of one year. -/
def loadYear (st : Extent × List Event) (rows : List CommitRow) : Extent × List Event :=
  let st := rows.foldl loadCommitRow
    { extent := st.1, allEvents := st.2, currentEvent := ⟨0, []⟩, first := true }
  (st.extent,
    if !st.currentEvent.ops.isEmpty then st.allEvents ++ [st.currentEvent] else st.allEvents)

/-- `load`, when the snapshot can be opened; years without a file are left out of `years`. -/
def load (snapshot : List BaseRow) (years : List (List CommitRow)) : DatasetLoader :=
  let (extent, baseData) := snapshot.foldl loadBaseRow ({}, [])
  let (extent, allEvents) := years.foldl loadYear (extent, [])
  { baseData, allEvents, largestMbr := extent.largestMbr }

end Bench

end Silva
