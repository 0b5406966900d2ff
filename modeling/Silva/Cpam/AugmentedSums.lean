import Silva.Cpam.MapOps

/-!
# Sums over ranges of keys (`third_party/cpam/augmented_ops.h`)

The sums walk down a tree and take the stored value of every subtree that they pass by. `regularEntries`
names what the code tells apart without saying so: whether the entry of a key is the one of a node or
lies in a block.
-/

namespace Silva

namespace Cpam

open Node

variable {K V A : Type*} [LinearOrder K] (ent : Entry K V A)

/-- `aug_sum_t::add_entry`. -/
def addEntry (result : A) (e : K × V) : A := ent.combine result (ent.fromEntry e)

/-- `aug_sum_t::add_aug_val`. -/
def addAugVal (result av : A) : A := ent.combine result av

/-- `aug_sum_left`. The scan of a block stops at the first key that is not smaller. -/
def augSumLeft (key : K) : Node K V A → A → A
  | null, a => a
  | compressed es _, a => (es.takeWhile fun et => et.1 < key).foldl (addEntry ent) a
  | regular lc e rc _ _, a =>
    if !(key < e.1) then
      let a := addEntry ent a e
      let a := if !lc.isNull then addAugVal ent a (lc.augVal ent) else a
      augSumLeft key rc a
    else augSumLeft key lc a

/-- `aug_sum_right`. -/
def augSumRight (key : K) : Node K V A → A → A
  | null, a => a
  | compressed es _, a => (es.filter fun et => !(et.1 < key)).foldl (addEntry ent) a
  | regular lc e rc _ _, a =>
    if !(e.1 < key) then
      let a := addEntry ent a e
      let a := if !rc.isNull then addAugVal ent a (rc.augVal ent) else a
      augSumRight key lc a
    else augSumRight key rc a

/-- `aug_sum_range`. -/
def augSumRange (t : Node K V A) (keyLeft keyRight : K) (a : A) : A :=
  match rangeRoot2 t keyLeft keyRight with
  | null => a
  | compressed es _ =>
    (es.filter fun et => keyLeft < et.1 && et.1 < keyRight).foldl (addEntry ent) a
  | regular lc e rc _ _ =>
    let a := augSumRight ent keyLeft lc a
    let a := addEntry ent a e
    augSumLeft ent keyRight rc a

omit [LinearOrder K] in
/-- The entries of regular nodes. -/
def regularEntries : Node K V A → List (K × V)
  | null => []
  | compressed _ _ => []
  | regular lc e rc _ _ => regularEntries lc ++ e :: regularEntries rc

end Cpam

end Silva
