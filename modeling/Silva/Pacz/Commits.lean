import Silva.Mvq.History
import Silva.Mvq.Query
import Silva.Pacz.Map
import Silva.Pacz.Tree

/-!
# The same commits on both indexes

A run applies a list of commits, each one to the version that the commit before has made. The tree
index stores a bag of records and the map one record for every key.
-/

namespace Silva

/-- The batches of one commit. -/
structure Commit where
  /-- The points to be inserted. -/
  PInsert : List Point
  /-- The points to be deleted. -/
  PDelete : List Point

/-- All points of both batches have integer coordinates. -/
def Commit.IsInteger (c : Commit) : Prop := ∀ p ∈ c.PInsert ++ c.PDelete, p.IsInteger

/-- The versions that a run of `commit` makes. -/
def Tree.commits (leafSize : Nat) : BaseNode → List Commit → Option (List BaseNode)
  | _, [] => some []
  | oldVersion, c :: cs => do
    let newVer ← commit leafSize oldVersion c.PInsert c.PDelete
    let rest ← commits leafSize newVer cs
    return newVer :: rest

namespace PACZ

variable {M : Type*} (zmap : OrderedMap KeyType Point M)

/-- The versions that a run of `map_commit` makes. -/
def mapCommits : M → List Commit → List M
  | _, [] => []
  | mmp, c :: cs =>
    let newVer := mapCommit zmap mmp c.PInsert c.PDelete
    newVer :: mapCommits newVer cs

/-- Both versions hold the same points with the same multiplicity, and for every query box and every
PaC tree of the map `range_count` gives the same number on both. -/
structure SamePoints (m : M) (t : BaseNode) : Prop where
  values : (values zmap m).Perm (Tree.collectRecords t)
  rangeCount : ∀ tree, IsMap tree (zmap.entries m) → ∀ queryMbr curMbr : BoundingBox,
    (∀ p ∈ Tree.collectRecords t, pointInMbr p curMbr = true) →
    Tree.rangeCount t queryMbr curMbr = some (rangeCount tree queryMbr)

end PACZ

/-- Every insertion names a key once, and none that the deletions of its commit leave in the contents. -/
def FreshInserts (C : List Point) : List Commit → Prop
  | [] => True
  | c :: cs =>
    ((withCodes c.PInsert).map Point.key).Nodup ∧
      (∀ p ∈ minus C (withCodes c.PDelete), p.key ∉ (withCodes c.PInsert).map Point.key) ∧
      FreshInserts (minus C (withCodes c.PDelete) ++ withCodes c.PInsert) cs

end Silva
