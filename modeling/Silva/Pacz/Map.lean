import Silva.Geo.Operations
import Silva.Lib.OrderedMap

/-!
# Versions as ordered maps (`include/silva/index/pacz.hpp`)

A version is a map from keys to points. The map library is a parameter: `zmap` has its operations, and
the results about versions assume that they are those of finite maps.
-/

namespace Silva

namespace PACZ

/-- `key_type`: code and identifier. -/
abbrev KeyType := ℕ ×ₗ ℕ

variable {M : Type*} (zmap : OrderedMap KeyType Point M)

/-- `zmap::values`, in key order. -/
def values (m : M) : List Point := (zmap.entries m).map Prod.snd

/-- `map_diff`, what `rhs` adds to `lhs` and what it removes. -/
def mapDiff (lhs rhs : M) : List Point × List Point :=
  let add := values zmap (zmap.mapDifference rhs lhs)
  let remove := values zmap (zmap.mapDifference lhs rhs)
  (add, remove)

/-- The entries that `map_insert` and `map_delete` make of a batch: the code is filled in first. -/
def toEntries (P : List Point) : List (KeyType × Point) :=
  (withCodes P).map fun p => (p.key, p)

/-- `map_insert`. -/
def mapInsert (P : List Point) (mmp : M) : M := zmap.multiInsert mmp (toEntries P)

/-- `map_delete`. -/
def mapDelete (P : List Point) (mmp : M) : M := zmap.multiDelete mmp (toEntries P)

/-- `map_commit`: deletions come before insertions. -/
def mapCommit (mmp : M) (PInsert PDelete : List Point) : M :=
  mapInsert zmap PInsert (mapDelete zmap PDelete mmp)

/-- What `map_merge` returns. -/
structure MergeResult (M : Type*) where
  /-- The merged version. -/
  newVer : M
  /-- Points that both sides insert. -/
  conflictInsert : List Point
  /-- Points that both sides move. -/
  conflictUpdate : List Point
  /-- Points that one side deletes and the other one moves. -/
  conflictDelete : List Point

/-- `map_merge`. The updates without a conflict are computed and not used. -/
def mapMerge (base v1 v2 : M) : MergeResult M :=
  let (add1, remove1) := mapDiff zmap base v1
  let (add2, remove2) := mapDiff zmap base v2
  let (insert1, delete1, update1) := filterDiffResults add1 remove1
  let (insert2, delete2, update2) := filterDiffResults add2 remove2
  let (noConflictInsert, conflictInsert) := mergeByIdWithConflict insert1 insert2
  let (_noConflictUpdate, conflictUpdate) := mergeByIdWithConflict update1 update2
  let (noConflictDelete, conflictDelete) := mergeByIdWithConflict delete1 update2
  let (noConflictDelete1, conflictDelete1) := mergeByIdWithConflict delete2 update1
  let newVer := mapCommit zmap base noConflictInsert (noConflictDelete ++ noConflictDelete1)
  { newVer, conflictInsert, conflictUpdate, conflictDelete := conflictDelete ++ conflictDelete1 }

end PACZ

end Silva
