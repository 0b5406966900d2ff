import Silva.Bench.Engine
import Silva.Mvq.Query
import Silva.Pacz.Map
import Silva.Rlog.Version

/-!
# Runners (`benchmarks/runners/`)

A runner holds one index and the versions that the commits have made of it. The measurements of memory
and of touched nodes are left out.
-/

namespace Silva

namespace Bench

open Rlog (Value RTree VersionNode)

/-- The conversion of `build_base`. -/
def toPoint (v : Value) : Point := { id := v.id, x := v.x, y := v.y, mortonId := 0 }

/-- A point as the R-tree sees it. -/
def toValue (p : Point) : Value := { x := p.x, y := p.y, id := p.id }

/-- `P_base` of `verify_bench`. -/
def baseValues (data : DatasetLoader) : List Value := data.baseData.map toValue

/-- `Config`. The static instance is zero where the struct has no initializer. -/
structure Config where
  /-- `leaf_size`. -/
  leafSize : ℕ := 32
  /-- `largest_mbr`. -/
  largestMbr : BoundingBox := ⟨.ofXY 0 0, .ofXY 0 0⟩

/-! ## The quadtree -/

structure MVQRunner where
  /-- The leaf size of the tree. -/
  leafSize : ℕ
  /-- The newest version. -/
  master : BaseNode
  /-- All versions, oldest first. -/
  history : List BaseNode

namespace MVQRunner

/-- `build_base` on a new runner. -/
def buildBase (leafSize : ℕ) (PBase : List Value) : MVQRunner :=
  let sortedPts := getSortedPoints (PBase.map toPoint)
  let master := Tree.build leafSize sortedPts
  { leafSize, master, history := [master] }

/-- `range_query`: `shared_out`, `cnt` and `h`. -/
def rangeQuery (config : Config) (runner : MVQRunner) (q : BoundingBox) (sharedOut : List Point)
    (h : ℕ) : List Point × ℕ × ℕ :=
  let (cnt, sharedOut) := Tree.rangeReport runner.master q config.largestMbr 0 sharedOut
  (sharedOut, cnt, (h + ((sharedOut.take cnt).map Point.id).sum) % 2 ^ 64)

/-- `commit`. -/
def commit (runner : MVQRunner) (adds rems : List Point) : Option MVQRunner := do
  let master ← Tree.commit runner.leafSize runner.master adds rems
  return { runner with master, history := runner.history ++ [master] }

/-- The points that the runner shows. -/
def exposed (runner : MVQRunner) : List Value := (Tree.collectRecords runner.master).map toValue

end MVQRunner

/-! ## The map of PaC trees -/

structure PACZRunner (M : Type*) where
  /-- The newest version. -/
  master : M
  /-- All versions, oldest first. -/
  history : List M

namespace PACZRunner

variable {M : Type*} (zmap : OrderedMap PACZ.KeyType Point M)

/-- `build_base` on a new runner; `ofEntries` is the constructor of `zmap` from a sequence. -/
def buildBase (ofEntries : List (PACZ.KeyType × Point) → M) (PBase : List Value) : PACZRunner M :=
  let master := ofEntries (PACZ.toEntries (PBase.map toPoint))
  { master, history := [master] }

/-- `commit`: insertions come before deletions. -/
def commit (runner : PACZRunner M) (adds rems : List Point) : Option (PACZRunner M) :=
  let vPacz := PACZ.mapInsert zmap adds runner.master
  let vPacz := if rems.length > 0 then PACZ.mapDelete zmap rems vPacz else vPacz
  some { master := vPacz, history := runner.history ++ [vPacz] }

/-- The points that the runner shows. -/
def exposed (runner : PACZRunner M) : List Value := (PACZ.values zmap runner.master).map toValue

end PACZRunner

/-! ## The log over an R-tree -/

structure RlogRunner (T : Type*) where
  /-- The newest version. -/
  tree : VersionNode T

namespace RlogRunner

variable {T : Type*} (rtree : RTree T)

/-- `build_base` on a new runner. -/
def buildBase (PBase : List Value) : RlogRunner T := { tree := Rlog.mapInit rtree PBase }

/-- `commit`. -/
def commit (runner : RlogRunner T) (adds rems : List Point) : Option (RlogRunner T) := do
  let tree ← Rlog.mapInsert rtree runner.tree (adds.map toValue) (1 / 5)
  let tree ← Rlog.mapDelete rtree tree (rems.map toValue) (1 / 5)
  return { tree }

/-- `commit` when neither of the two versions that it makes is compacted. -/
def commitUncompacted (runner : RlogRunner T) (adds rems : List Point) : Option (RlogRunner T) :=
  let tree := Rlog.insertNode runner.tree (adds.map toValue)
  let tree := Rlog.deleteNode tree (rems.map toValue)
  some { tree }

/-- The points that the runner shows. -/
def exposed (runner : RlogRunner T) : List Value := Rlog.visible rtree runner.tree

end RlogRunner

end Bench

end Silva
