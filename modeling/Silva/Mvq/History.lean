import Silva.Mvq.Tree
import Silva.Geo.Proofs.RecordProofs

/-!
# Histories of persistent operations

A history starts from one built version and makes further ones, each from a version that already
exists. `run` applies it to trees; `runContents` says what the versions are supposed to hold.
-/

namespace Silva

/-- An operation on the version with index `v`. -/
inductive Op where
  /-- Insertion of a batch. -/
  | insert (v : Nat) (P : List Point)
  /-- Deletion of a batch. -/
  | delete (v : Nat) (P : List Point)
  /-- A commit of two batches. -/
  | commit (v : Nat) (PInsert PDelete : List Point)
  deriving DecidableEq, Repr

namespace Op

/-- The batches of an insertion or a deletion are given sorted; `commit` sorts its own. -/
def Sorted : Op → Prop
  | insert _ P => Batch P
  | delete _ P => Batch P
  | commit _ _ _ => True

/-- The version that an operation makes, given all versions so far. -/
def apply (leafSize : Nat) (versions : List BaseNode) : Op → Option BaseNode
  | insert v P => do
    let x ← versions[v]?
    return Tree.multiVersionBatchInsertSorted leafSize P x
  | delete v P => do
    let x ← versions[v]?
    Tree.multiVersionBatchDeleteSorted leafSize P x
  | commit v PInsert PDelete => do
    let x ← versions[v]?
    Tree.commit leafSize x PInsert PDelete

end Op

/-- The trees of all versions after a history. -/
def run (leafSize : Nat) : List Op → List BaseNode → Option (List BaseNode)
  | [], versions => some versions
  | op :: ops, versions => do
    let x ← op.apply leafSize versions
    run leafSize ops (versions ++ [x])

/-! ## What the versions are supposed to hold -/

/-- The points of `C` whose key does not occur in `D`. -/
def minus (C D : List Point) : List Point := C.filter fun p => p.key ∉ D.map Point.key

/-- The contents of the version that an operation makes. -/
def Op.applyContents (contents : List (List Point)) : Op → Option (List Point)
  | insert v P => do
    let C ← contents[v]?
    return C ++ P
  | delete v P => do
    let C ← contents[v]?
    return minus C P
  | commit v PInsert PDelete => do
    let C ← contents[v]?
    return minus C (withCodes PDelete) ++ withCodes PInsert

/-- The contents of all versions after a history. -/
def runContents : List Op → List (List Point) → Option (List (List Point))
  | [], contents => some contents
  | op :: ops, contents => do
    let C ← op.applyContents contents
    runContents ops (contents ++ [C])

/-- The tree is the one that `build` makes of the contents, sorted; without contents it is null or a
leaf without records. -/
def Canonical (leafSize : Nat) (t : BaseNode) (C : List Point) : Prop :=
  (C ≠ [] → t = Tree.buildNode leafSize (getSortedPoints C) 64) ∧
    (C = [] → t = .nullptr ∨ t = .leafNode [])

/-- A version that some sequence of persistent operations produces. -/
inductive Version (leafSize : Nat) : BaseNode → Prop where
  /-- A tree that is built from a batch. -/
  | build {P : List Point} (hP : Batch P) : Version leafSize (Tree.build leafSize P)
  /-- A version after an insertion. -/
  | insert {t : BaseNode} {P : List Point} (ht : Version leafSize t) (hP : Batch P) :
      Version leafSize (Tree.multiVersionBatchInsertSorted leafSize P t)
  /-- A version after a deletion. -/
  | delete {t t' : BaseNode} {P : List Point} (ht : Version leafSize t) (hP : Batch P)
      (h : Tree.multiVersionBatchDeleteSorted leafSize P t = some t') : Version leafSize t'
  /-- A version after a commit. -/
  | commit {t t' : BaseNode} {PInsert PDelete : List Point} (ht : Version leafSize t)
      (h : Tree.commit leafSize t PInsert PDelete = some t') : Version leafSize t'

end Silva
