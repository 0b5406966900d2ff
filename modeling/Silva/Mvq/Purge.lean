import Silva.Mvq.Store

/-!
# Purging a version (`include/silva/index/mvq.hpp`)

The two overloads of `garbage_collect`, which take the roots by reference and reset sons of `x` in
place. The two calls of a `par_do` are run one after the other.
-/

namespace Silva

open RefCount (Ptr Mem)

namespace Tree

open Node

/-- `x.reset()`. A node that loses its last owner is destroyed: its own sons are reset, in the same
way, which is the walk of `gc_nocheck`. -/
def release (depth : Nat) (m : Mem Node) (x : Ref) : Option (Mem Node) := gcNocheck depth m x

/-- The node that a pointer `p` is cast to, for `p && !p->is_leaf()`. -/
def asInte (store : Store) (p : Ptr) : Option Nat := do
  let a ← p
  match ← store[a]? with
  | inteNode _ _ _ => some a
  | leafNode _ => none

/-- `garbage_collect(base, x)`. The first argument bounds the depth of the walk. -/
def garbageCollectBase (granularityCutoff : Nat) :
    Nat → Mem Node → (base x : Ref) → Option (Mem Node)
  | 0, _, _, _ => none
  | depth + 1, m, base, x => do
    let basePtr ← deref m base
    match ← deref m x with
    | none => some m
    | some a =>
      if basePtr = some a then some m
      else match ← m.store[a]? with
        | leafNode _ => release (depth + 1) m x
        | inteNode _ _ numPts =>
          match asInte m.store basePtr with
          | none => gcNocheck (depth + 1) m x
          | some b => do
            let m ← (if granularityCutoff < numPts then do
                let m ← garbageCollectBase granularityCutoff depth m (.lSon b) (.lSon a)
                garbageCollectBase granularityCutoff depth m (.rSon b) (.rSon a)
              else some m)
            release (depth + 1) m x

/-- `garbage_collect(base, new_ver, x)`. The calls on the sons pass the son of `x` as `new_ver`, and
the son of `new_ver` as `x`. -/
def garbageCollect (granularityCutoff : Nat) :
    Nat → Mem Node → (base newVer x : Ref) → Option (Mem Node)
  | 0, _, _, _, _ => none
  | depth + 1, m, base, newVer, x => do
    let basePtr ← deref m base
    let newVerPtr ← deref m newVer
    match ← deref m x with
    | none => some m
    | some a =>
      if basePtr = some a ∨ newVerPtr = some a then some m
      else match ← m.store[a]? with
        | leafNode _ => release (depth + 1) m x
        | inteNode _ _ numPts =>
          match asInte m.store basePtr, asInte m.store newVerPtr with
          | none, _ => garbageCollectBase granularityCutoff (depth + 1) m newVer x
          | some _, none => garbageCollectBase granularityCutoff (depth + 1) m base x
          | some b, some c => do
            let m ← (if granularityCutoff < numPts then do
                let m ← garbageCollect granularityCutoff depth m (.lSon b) (.lSon a) (.lSon c)
                garbageCollect granularityCutoff depth m (.rSon b) (.rSon a) (.rSon c)
              else some m)
            release (depth + 1) m x

end Tree

/-! ## What a purge leaves behind -/

/-- The tree that is read from variable `v` is the same in both memories. -/
def Intact (m m' : Mem Node) (v : Nat) : Prop :=
  ∃ y y' t, m.vars[v]? = some y ∧ m'.vars[v]? = some y' ∧ Store.Reads m.store y t ∧
    Store.Reads m'.store y' t

/-- The son of `new_ver` is neither null nor the son of `base` or of `x`. -/
def OwnSon (store : Store) (base newVer x : Ptr) (side : Bool) : Prop :=
  Store.son store newVer side ≠ none ∧
    Store.son store newVer side ≠ Store.son store base side ∧
    Store.son store newVer side ≠ Store.son store x side

/-- The three roots are interior nodes, `x` is neither of the other two and large enough for the
calls on the sons, and one of these gets a son that only `new_ver` has. -/
def Misdirected (granularityCutoff : Nat) (store : Store) (base newVer x : Ptr) : Prop :=
  ∃ a b c lSon rSon numPts, x = some a ∧ base = some b ∧ newVer = some c ∧ a ≠ b ∧ a ≠ c ∧
    store[a]? = some (.inteNode lSon rSon numPts) ∧ Store.IsInte store b ∧ Store.IsInte store c ∧
    granularityCutoff < numPts ∧ ∃ side, OwnSon store base newVer x side

end Silva
