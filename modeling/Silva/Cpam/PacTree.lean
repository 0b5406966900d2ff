import Silva.Cpam.BalanceUtils
import Silva.Cpam.WellFormed
import Silva.Lib.WeightBalance

/-!
# The shape of PaC trees

`PaC ent B t`: the blocks of `t` hold between `B` and `2 * B` entries, the weights of siblings are
balanced, and no block lies below a node with less than `B` entries. The fields that a node stores about
its subtree are up to date.
-/

namespace Silva

namespace Cpam

open Node WeightBalance

variable {K V A : Type*} {ent : Entry K V A} {B : ℕ} {t a b lc rc : Node K V A} {d : Side}
  {es : List (K × V)} {e : K × V}

/-- What two siblings have to satisfy. -/
structure Siblings (B : ℕ) (a b : Node K V A) : Prop where
  /-- Their weights are balanced. -/
  balanced : Balanced alpha a.weight b.weight
  /-- With an entry they are too small for a block, or each is large enough for one. -/
  blocks : a.size + b.size + 1 < B ∨ (B ≤ a.size ∧ B ≤ b.size)

/-- The trees that the operations build and take. -/
inductive PaC (ent : Entry K V A) (B : ℕ) : Node K V A → Prop where
  /-- The empty tree. -/
  | null : PaC ent B null
  /-- A regular node over two siblings. -/
  | regular {lc rc : Node K V A} (left : PaC ent B lc) (e : K × V) (right : PaC ent B rc)
      (siblings : Siblings B lc rc) : PaC ent B (regularNode ent lc e rc)
  /-- A block of `B` to `2 * B` entries. -/
  | compressed {es : List (K × V)} (lower : B ≤ es.length) (upper : es.length ≤ 2 * B) :
      PaC ent B (makeSingleCompressedNode ent es)

/-- The root of a map: `finalize` makes one block of a tree with less than `B` entries. -/
def Valid (ent : Entry K V A) (B : ℕ) (root : Bool) (t : Node K V A) : Prop :=
  PaC ent B t ∨
    (root = true ∧ ∃ es, es ≠ [] ∧ es.length < B ∧ t = makeSingleCompressedNode ent es)

namespace Node

theorem eq_null (h : t.isNull = true) : t = null := by
  cases t with
  | null => rfl
  | regular lc e rc s augVal => cases h
  | compressed es augVal => cases h

@[simp] theorem size_null : (null : Node K V A).size = 0 := rfl

@[simp] theorem size_regular {s : ℕ} {augVal : A} : (regular lc e rc s augVal).size = s := rfl

@[simp] theorem size_compressed {augVal : A} : (compressed es augVal).size = es.length := rfl

end Node

/-! ## Weights as numbers of entries -/

theorem alpha_admissible : Admissible alpha := by
  constructor <;> norm_num [alpha]

theorem isLeftHeavy_eq : isLeftHeavy a b = true ↔ Heavy alpha a.weight b.weight := decide_eq_true_iff

theorem isLeftHeavy_iff : isLeftHeavy a b = true ↔ 71 * (b.size + 1) < 29 * (a.size + 1) := by
  rw [isLeftHeavy_eq, alpha_admissible.heavy_iff]
  unfold weight alpha
  rw [← Nat.cast_lt (α := ℚ)]
  push_cast
  constructor <;> intro h <;> linarith

theorem balanced_weight_iff : Balanced alpha a.weight b.weight ↔
    29 * (b.size + 1) ≤ 71 * (a.size + 1) ∧ 29 * (a.size + 1) ≤ 71 * (b.size + 1) := by
  rw [alpha_admissible.balanced_iff, ← isLeftHeavy_eq, ← isLeftHeavy_eq, isLeftHeavy_iff,
    isLeftHeavy_iff, not_lt, not_lt, and_comm]

theorem not_isLeftHeavy : ¬isLeftHeavy a b = true ↔ 29 * (a.size + 1) ≤ 71 * (b.size + 1) := by
  rw [isLeftHeavy_iff, not_lt]

/-! ## Sides -/

namespace Side

variable {α β : Type*} {x y : α}

theorem fst_fst_snd : d.fst (d.fst x y) (d.snd x y) = x := by cases d <;> rfl

theorem snd_fst_snd : d.snd (d.fst x y) (d.snd x y) = y := by cases d <;> rfl

/-- The entries of `a`, then `e`, then those of `b`, as seen from the side. -/
def order (d : Side) (es : List (K × V)) (e : K × V) (es' : List (K × V)) : List (K × V) :=
  d.fst es es' ++ e :: d.snd es es'

theorem order_assoc (es es' es'' : List (K × V)) (e e' : K × V) :
    d.order (d.order es e es') e' es'' = d.order es e (d.order es' e' es'') := by
  cases d <;> simp [order, fst, snd]

theorem length_order (es es' : List (K × V)) (e : K × V) :
    (d.order es e es').length = es.length + es'.length + 1 := by
  cases d <;> simp only [order, fst, snd, List.length_append, List.length_cons] <;> omega

theorem entries_node : (d.node ent a e b).entries = d.order a.entries e b.entries := by
  cases d <;> rfl

theorem entries_regular {s : ℕ} {augVal : A} : (Node.regular lc e rc s augVal).entries =
    d.order (d.fst lc rc).entries e (d.snd lc rc).entries := by
  cases d <;> rfl

theorem size_node : (d.node ent a e b).size = a.size + b.size + 1 := by
  cases d
  · exact congrArg (· + 1) (Nat.add_comm ..)
  · rfl

theorem weight_node : (d.node ent a e b).weight = a.weight + b.weight := by
  unfold weight
  rw [size_node]
  push_cast
  ring

end Side

theorem Siblings.symm (h : Siblings B a b) : Siblings B b a :=
  ⟨h.balanced.symm, by have := h.blocks; omega⟩

theorem PaC.node (ha : PaC ent B a) (e : K × V) (hb : PaC ent B b) (h : Siblings B a b) :
    PaC ent B (d.node ent a e b) := by
  cases d with
  | left => exact .regular hb e ha h.symm
  | right => exact .regular ha e hb h

/-! ## Taking a tree apart -/

namespace PaC

variable {s : ℕ} {augVal : A}

theorem of_regular (h : PaC ent B (Node.regular lc e rc s augVal)) :
    PaC ent B lc ∧ PaC ent B rc ∧ Siblings B lc rc ∧
      Node.regular lc e rc s augVal = regularNode ent lc e rc := by
  cases h with
  | regular left e right siblings => exact ⟨left, right, siblings, rfl⟩

theorem of_regular_side (h : PaC ent B (Node.regular lc e rc s augVal)) (d : Side) :
    PaC ent B (d.fst lc rc) ∧ PaC ent B (d.snd lc rc) ∧ Siblings B (d.fst lc rc) (d.snd lc rc) ∧
      s = (d.fst lc rc).size + (d.snd lc rc).size + 1 := by
  obtain ⟨hl, hr, hs, heq⟩ := h.of_regular
  have hsize : s = lc.size + rc.size + 1 := congrArg Node.size heq
  cases d with
  | left => exact ⟨hr, hl, hs.symm, by rw [hsize, Nat.add_comm lc.size]; rfl⟩
  | right => exact ⟨hl, hr, hs, hsize⟩

theorem of_compressed (h : PaC ent B (Node.compressed es augVal)) :
    B ≤ es.length ∧ es.length ≤ 2 * B := by
  cases h with
  | compressed lower upper => exact ⟨lower, upper⟩

theorem size (h : PaC ent B t) : t.size = t.entries.length := by
  induction h with
  | null => rfl
  | regular left e right siblings ihl ihr =>
    rw [entries_regularNode, List.length_append, List.length_cons, ← ihl, ← ihr]
    rfl
  | compressed lower upper => rfl

theorem valid {root : Bool} (h : PaC ent B t) : Valid ent B root t := Or.inl h

/-- A tree that is no root. -/
theorem inner (h : PaC ent B t) : Valid ent B false t := h.valid

end PaC

namespace Valid

variable {root root' : Bool}

theorem mono (hroot : root = true → root' = true) (h : Valid ent B root t) : Valid ent B root' t :=
  h.imp_right fun ⟨hr, hblock⟩ => ⟨hroot hr, hblock⟩

theorem size (h : Valid ent B root t) : t.size = t.entries.length := by
  rcases h with h | ⟨-, es, -, -, rfl⟩
  · exact h.size
  · rfl

end Valid

/-! ## A small tree -/

/-- Sums of numbers. -/
def sumEntry : Entry ℕ ℕ ℕ where
  getEmpty := 0
  fromEntry e := e.2
  combine := (· + ·)

/-- A block, which lists ten times its keys. -/
def tens (ks : List ℕ) : Node ℕ ℕ ℕ := makeSingleCompressedNode sumEntry (ks.map fun k => (k, 10 * k))

theorem paC_tens {ks : List ℕ} (h2 : 2 ≤ ks.length) (h4 : ks.length ≤ 4) : PaC sumEntry 2 (tens ks) :=
  .compressed (by rwa [List.length_map]) (by rwa [List.length_map])

/-- Two blocks below a node. -/
def fiveTens : Node ℕ ℕ ℕ := regularNode sumEntry (tens [1, 2]) (3, 30) (tens [4, 5])

theorem paC_fiveTens : PaC sumEntry 2 fiveTens :=
  .regular (paC_tens (by decide) (by decide)) _ (paC_tens (by decide) (by decide))
    ⟨balanced_weight_iff.mpr (by decide), Or.inr (by decide)⟩

end Cpam

end Silva
