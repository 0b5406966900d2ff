import Silva.Cpam.AugmentedOps

/-!
# Joining PaC trees (`third_party/cpam/balance_utils.h`, `weight_balanced_tree.h`)

`none` is a failed assertion about the arguments, a cast of a compressed or missing node to a regular
one, or an overflow of a buffer on the stack. The doubles `alpha`, `ratio` and `beta` are exact here: for
sizes of 32 bits the comparisons with them come out the same. The left and the right version of a
function are one definition over the side of the tree that is joined to.
-/

namespace Silva

namespace Cpam

variable {K V A : Type*}

open Node

/-! ## Weights -/

def alpha : ℚ := 29 / 100

/-- `ratio`, and `wb_ratio`. -/
def ratio : ℚ := alpha / (1 - alpha)

def beta : ℚ := (1 - 2 * alpha) / (1 - alpha)

namespace Node

def isCompressed : Node K V A → Bool
  | compressed _ _ => true
  | _ => false

/-- `is_regular`. -/
def isRegular (a : Node K V A) : Bool := !a.isCompressed

def weight (t : Node K V A) : ℚ := t.size + 1

def isLeftHeavy (t1 t2 : Node K V A) : Bool := ratio * t1.weight > t2.weight

def couldSingleRotate (lc rc : Node K V A) : Bool :=
  let tot : ℚ := lc.size + rc.size + 1 + 1
  lc.weight ≤ beta * tot && rc.weight ≤ beta * tot

end Node

def willBeCompressed (B sz : ℕ) : Bool := B ≤ sz && sz ≤ 2 * B

/-! ## Sides -/

/-- The side of a tree on which the other tree of a join hangs. -/
inductive Side where
  /-- The other tree hangs on the left. -/
  | left
  /-- The other tree hangs on the right. -/
  | right
  deriving DecidableEq

namespace Side

variable {α : Type*}

/-- The first of two things as seen from the side: for the right side, the first one. -/
def fst (d : Side) (a b : α) : α :=
  match d with
  | right => a
  | left => b

def snd (d : Side) (a b : α) : α :=
  match d with
  | right => b
  | left => a

end Side

section Joins

variable (ent : Entry K V A) (B : ℕ)

/-- `update` of a node over `a` and, on side `d`, over `b`. -/
def Side.node (d : Side) (a : Node K V A) (e : K × V) (b : Node K V A) : Node K V A :=
  regularNode ent (d.fst a b) e (d.snd a b)

/-- `is_single_rotation`: the inner child of the node on side `d` is light. -/
def isSingleRotation (d : Side) (t : Node K V A) : Bool :=
  match t with
  | regular lc _ rc _ _ => (d.fst lc rc).weight ≤ beta * t.weight
  | _ => false

/-- `make_compressed` of two trees, with an entry between them or without one. -/
def makeCompressedOf (l r : Node K V A) (e : Option (K × V)) : Option (Node K V A) :=
  let tot := l.size + r.size + e.toList.length
  let stack := l.entries ++ e.toList ++ r.entries
  if B ≤ tot ∧ tot ≤ 7 * B ∧ stack.length = tot then some (makeCompressed ent B stack) else none

/-- `rotate_left` is the rotation on the right side: `t` lies there, `a` and `e` are above it. -/
def rotate (d : Side) (a : Node K V A) (e : K × V) (t : Node K V A) : Option (Node K V A) :=
  match t with
  | regular lc root rc _ _ => some (d.node ent (d.node ent a e (d.fst lc rc)) root (d.snd lc rc))
  | _ => none

/-- `double_rotate_left` on the right side. -/
def doubleRotate (d : Side) (a : Node K V A) (e : K × V) (t : Node K V A) : Option (Node K V A) :=
  match t with
  | regular lc r rc _ _ =>
    match d.fst lc rc with
    | regular lc' root rc' s augVal =>
      let outer := d.node ent (d.snd lc' rc') r (d.snd lc rc)
      -- `s` and `augVal` of `root` are out of date until it is rotated
      rotate ent d a e (regular (d.fst (d.fst lc' rc') outer) root (d.snd (d.fst lc' rc') outer) s augVal)
    | _ => none
  | _ => none

/-- `balanced_join`. -/
def balancedJoin (l r : Node K V A) (e : K × V) : Option (Node K V A) :=
  if isLeftHeavy l r || isLeftHeavy r l then none
  else if (l.size < B || r.size < B) && B ≤ l.size + r.size + 1 then
    makeCompressedOf ent B l r (some e)
  else some (regularNode ent l e r)

/-- The end of `right_join` and `left_join`: `t` has grown on side `d`. -/
def rebalance (d : Side) (a : Node K V A) (e : K × V) (t : Node K V A) : Option (Node K V A) :=
  if isLeftHeavy t a then
    match t with
    | regular lc _ rc _ _ =>
      if isSingleRotation d t then rotate ent d a e t
      else if (d.fst lc rc).isCompressed then makeCompressedOf ent B (d.node ent a e t) null none
      else doubleRotate ent d a e t
    | _ => none
  else some (d.node ent a e t)

/-- `right_join` and `left_join`: `t2` is joined to side `d` of `t1`. -/
def joinInto (d : Side) (t1 t2 : Node K V A) (k : K × V) : Option (Node K V A) :=
  if t1.isCompressed then makeCompressedOf ent B (d.fst t1 t2) (d.snd t1 t2) (some k)
  else if !isLeftHeavy t1 t2 then balancedJoin ent B (d.fst t1 t2) (d.snd t1 t2) k
  else if willBeCompressed B (t1.size + t2.size + 1) then
    makeCompressedOf ent B (d.fst t1 t2) (d.snd t1 t2) (some k)
  else
    match t1 with
    | regular lc e rc _ _ =>
      match d with
      | .right => (joinInto d rc t2 k).bind (rebalance ent B d lc e)
      | .left => (joinInto d lc t2 k).bind (rebalance ent B d rc e)
    | _ => none

def rightJoin (t1 t2 : Node K V A) (k : K × V) : Option (Node K V A) := joinInto ent B .right t1 t2 k

def leftJoin (t1 t2 : Node K V A) (k : K × V) : Option (Node K V A) := joinInto ent B .left t2 t1 k

/-- `upper_threshold`. -/
def upperThreshold : ℕ := ⌈(B : ℚ) * (1 + 1 / ratio)⌉₊

/-- `regular_join`. -/
def regularJoin (t1 t2 : Node K V A) (k : K × V) : Option (Node K V A) :=
  let tot := t1.size + t2.size + 1
  if B ≤ tot ∧ tot ≤ upperThreshold B then makeCompressedOf ent B t1 t2 (some k)
  else if isLeftHeavy t1 t2 then rightJoin ent B t1 t2 k
  else if isLeftHeavy t2 t1 then leftJoin ent B t1 t2 k
  else balancedJoin ent B t1 t2 k

/-- `node_join`. -/
def nodeJoin (t1 t2 : Node K V A) (k : K × V) : Option (Node K V A) :=
  if t1.isRegular && t2.isRegular then regularJoin ent B t1 t2 k
  else if t1.isRegular then
    if isLeftHeavy t1 t2 then rightJoin ent B t1 t2 k
    else if isLeftHeavy t2 t1 then makeCompressedOf ent B t1 t2 (some k)
    else balancedJoin ent B t1 t2 k
  else if t2.isRegular then
    if isLeftHeavy t2 t1 then leftJoin ent B t1 t2 k
    else if isLeftHeavy t1 t2 then makeCompressedOf ent B t1 t2 (some k)
    else balancedJoin ent B t1 t2 k
  else
    let balanced := !(isLeftHeavy t1 t2 || isLeftHeavy t2 t1)
    if balanced || !couldSingleRotate t1 t2 then balancedJoin ent B t1 t2 k
    else makeCompressedOf ent B t1 t2 (some k)

/-! ## Joins of regular nodes only -/

/-- `regular_right_join` and `regular_left_join`. -/
def regularJoinInto (d : Side) (t1 t2 : Node K V A) (k : K × V) : Option (Node K V A) :=
  if !isLeftHeavy t1 t2 then some (d.node ent t1 k t2)
  else
    match t1 with
    | regular lc e rc _ _ =>
      let rebalance := fun a t =>
        if isLeftHeavy t a then
          if isSingleRotation d t then rotate ent d a e t else doubleRotate ent d a e t
        else some (d.node ent a e t)
      match d with
      | .right => (regularJoinInto d rc t2 k).bind (rebalance lc)
      | .left => (regularJoinInto d lc t2 k).bind (rebalance rc)
    | _ => none

/-- `regular_node_join`. -/
def regularNodeJoin (t1 t2 : Node K V A) (k : K × V) : Option (Node K V A) :=
  if isLeftHeavy t1 t2 then regularJoinInto ent .right t1 t2 k
  else if isLeftHeavy t2 t1 then regularJoinInto ent .left t2 t1 k
  else some (regularNode ent t1 k t2)

end Joins

/-- `check_structure`: `none` is an `exit`, or the assertion of `check_compressed_node`. The size of the
tree is the one of the node where the check has started. -/
def checkStructure (B : ℕ) (origTreeSize : Option ℕ) : Node K V A → Option Bool
  | null => some true
  | regular lc _ rc sz _ =>
    let origTreeSize := origTreeSize.getD sz
    if ¬(2 * B ≤ sz ∨ sz < B) ∨ (2 * B < origTreeSize ∧ sz < B) then none
    else if isLeftHeavy lc rc || isLeftHeavy rc lc then none
    else
      (checkStructure B (some origTreeSize) lc).bind fun l =>
        (checkStructure B (some origTreeSize) rc).map fun r => l && r
  | compressed es _ => if es.length ≤ 2 * B then some true else none

end Cpam

end Silva
