import Mathlib

/-!
# Weight balance

Sibling subtrees are balanced when neither weight is below the share `α` of their sum. The lemmas say
which rotation restores the balance after one of two siblings has grown by a join, in terms of the
weights alone; the weight of a tree is its size plus one, so that the weights of siblings add up to the
weight of their parent.
-/

namespace WeightBalance

variable {F : Type*} [Field F] [LinearOrder F] {α a b c l r t : F}

/-- Neither weight is below the share `α` of the sum. -/
structure Balanced (α a b : F) : Prop where
  left : α * (a + b) ≤ a
  right : α * (a + b) ≤ b

/-- The first of two siblings is too heavy for the second one. -/
def Heavy (α a b : F) : Prop := b < α / (1 - α) * a

/-- The share of an inner grandchild up to which a single rotation is enough. -/
def rotationShare (α : F) : F := (1 - 2 * α) / (1 - α)

/-- The shares for which the rotations work: `α` is positive and at most `1 - 1 / √2`. -/
structure Admissible (α : F) : Prop where
  pos : 0 < α
  lt_third : 3 * α < 1
  rotation : α ≤ (1 - 2 * α) * (1 - α)

theorem Balanced.symm (h : Balanced α a b) : Balanced α b a :=
  ⟨by rw [add_comm]; exact h.right, by rw [add_comm]; exact h.left⟩

/-- A child has at most the share `1 - α` of its parent. -/
theorem Balanced.left_le [IsStrictOrderedRing F] (h : Balanced α a b) : a ≤ (1 - α) * (a + b) := by
  have hb := h.right
  linarith

namespace Admissible

variable [IsStrictOrderedRing F] (hα : Admissible α)

include hα

theorem lt_one : α < 1 := by
  have h1 := hα.pos
  have h2 := hα.lt_third
  linarith

theorem one_sub_pos : 0 < 1 - α := sub_pos.mpr hα.lt_one

theorem heavy_iff : Heavy α a b ↔ b < α * (a + b) := by
  have h := hα.one_sub_pos
  unfold Heavy
  rw [div_mul_eq_mul_div, lt_div_iff₀ h]
  constructor <;> intro hlt <;> linarith

theorem balanced_iff : Balanced α a b ↔ ¬Heavy α a b ∧ ¬Heavy α b a := by
  rw [hα.heavy_iff, hα.heavy_iff, not_lt, not_lt, add_comm b a]
  exact ⟨fun h => ⟨h.right, h.left⟩, fun h => ⟨h.2, h.1⟩⟩

theorem rotationShare_mul (t : F) : (1 - α) * (rotationShare α * t) = (1 - 2 * α) * t := by
  unfold rotationShare
  have h := hα.one_sub_pos.ne'
  field_simp

/-! ## Joining a light tree -/

/-- The sibling of a child that has grown by a light tree keeps a large enough share. -/
theorem sibling_share (h : Balanced α l c) (ht : Heavy α (l + c) t) :
    α * (1 - α) * (l + (c + t)) ≤ l := by
  have h1 := hα.pos
  have hl := h.left
  rw [hα.heavy_iff] at ht
  have hw : (1 - α) * (l + (c + t)) ≤ l + c := by linarith
  calc α * (1 - α) * (l + (c + t)) = α * ((1 - α) * (l + (c + t))) := by ring
    _ ≤ α * (l + c) := mul_le_mul_of_nonneg_left hw h1.le
    _ ≤ l := hl

/-! ## Rotations

The sibling of weight `l` is too light for a child of weight `c` with the inner grandchild `a` and the
outer one `r`; its share is still at least `α * (1 - α)`. -/

section Rotations

variable (hshare : α * (1 - α) * (l + c) ≤ l) (hheavy : Heavy α c l)

include hheavy in
theorem heavy_child : (1 - α) * (l + c) ≤ c := by
  rw [hα.heavy_iff] at hheavy
  linarith

include hshare hheavy in
theorem heavy_sum_nonneg : 0 ≤ l + c := by
  have h1 := hα.pos
  by_contra! hneg
  rw [hα.heavy_iff] at hheavy
  have h2 : α * α * (l + c) < 0 := mul_neg_of_pos_of_neg (mul_pos h1 h1) hneg
  linarith

include hheavy in
/-- Each inner part keeps its share when it has at least the share `α` of the heavy child. -/
theorem share_of_heavy (ha : α * c ≤ a) : α * (1 - α) * (l + c) ≤ a := by
  have hcw := mul_le_mul_of_nonneg_left (hα.heavy_child hheavy) hα.pos.le
  linarith

include hshare hheavy

theorem two_shares {x y : F} (hx : α * (1 - α) * (l + c) ≤ x) (hy : α * (1 - 2 * α) * (l + c) ≤ y) :
    α * (l + c) ≤ x + y := by
  have hw := hα.heavy_sum_nonneg hshare hheavy
  have h3 := mul_nonneg (mul_nonneg hα.pos.le (sub_pos.mpr hα.lt_third).le) hw
  linarith

/-- A single rotation, when the inner grandchild is light. -/
theorem single_rotation (h : Balanced α a r) (hc : a + r = c)
    (hrot : a ≤ rotationShare α * c) : Balanced α l a ∧ Balanced α (l + a) r := by
  have h1 := hα.pos
  have h2 := hα.lt_third
  have hpos := hα.one_sub_pos
  have hw := hα.heavy_sum_nonneg hshare hheavy
  have hcw := hα.heavy_child hheavy
  obtain ⟨ha, hr⟩ := h
  rw [hc] at ha hr
  have hshare_a := hα.share_of_heavy hheavy ha
  have hlw := hα.heavy_iff.mp hheavy
  have hrot' : (1 - α) * a ≤ (1 - 2 * α) * c := by
    rw [← hα.rotationShare_mul]
    exact mul_le_mul_of_nonneg_left hrot hpos.le
  refine ⟨⟨?_, ?_⟩, ?_, ?_⟩
  · have h3 : α * ((1 - α) * a) ≤ α * ((1 - 2 * α) * c) := mul_le_mul_of_nonneg_left hrot' h1.le
    have h4 : (1 - α - α * α) * (α * (1 - α) * (l + c)) ≤ (1 - α - α * α) * l :=
      mul_le_mul_of_nonneg_left hshare (by nlinarith)
    have h5 : 0 ≤ α * α * (α * α) * (l + c) := mul_nonneg (by positivity) hw
    refine le_of_mul_le_mul_left ?_ hpos
    linarith
  · have h3 : α * l ≤ α * (α * (c + l)) := mul_le_mul_of_nonneg_left hlw.le h1.le
    have h4 : (1 - α) * (α * (1 - α) * (l + c)) ≤ (1 - α) * a :=
      mul_le_mul_of_nonneg_left hshare_a hpos.le
    have h5 : 0 ≤ α * (1 - 3 * α + α * α) * (l + c) :=
      mul_nonneg (mul_nonneg h1.le (by nlinarith)) hw
    linarith
  · have h3 : 0 ≤ α * (1 - 2 * α) * (l + c) := mul_nonneg (mul_nonneg h1.le (by linarith)) hw
    calc α * (l + a + r) = α * (l + c) := by rw [add_assoc, hc]
      _ ≤ l + a := by linarith
  · have h3 : α * ((1 - α) * (l + c)) ≤ α * c := mul_le_mul_of_nonneg_left hcw h1.le
    have h4 : (1 - α) * (α * (l + c)) ≤ (1 - α) * r := by
      rw [← hc] at h3 hrot' ⊢
      linarith
    calc α * (l + a + r) = α * (l + c) := by rw [add_assoc, hc]
      _ ≤ r := le_of_mul_le_mul_left h4 hpos

/-- A double rotation, when the inner grandchild, of weight `a + b`, is heavy. -/
theorem double_rotation (h : Balanced α (a + b) r) (hc : a + b + r = c) (hab : Balanced α a b)
    (hrot : rotationShare α * c ≤ a + b) :
    Balanced α l a ∧ Balanced α b r ∧ Balanced α (l + a) (b + r) := by
  have h1 := hα.pos
  have h2 := hα.lt_third
  have hpos := hα.one_sub_pos
  have hw := hα.heavy_sum_nonneg hshare hheavy
  have hcw := hα.heavy_child hheavy
  obtain ⟨hin, hr⟩ := h
  obtain ⟨ha, hb⟩ := hab
  rw [hc] at hin hr
  have hshare_r := hα.share_of_heavy hheavy hr
  have hlw := hα.heavy_iff.mp hheavy
  have hrot' : (1 - 2 * α) * c ≤ (1 - α) * (a + b) := by
    rw [← hα.rotationShare_mul]
    exact mul_le_mul_of_nonneg_left hrot hpos.le
  -- the inner grandchild, and with it both of its children
  have hin' : (1 - 2 * α) * (l + c) ≤ a + b := by
    refine le_of_mul_le_mul_left ?_ hpos
    have h3 : (1 - 2 * α) * ((1 - α) * (l + c)) ≤ (1 - 2 * α) * c :=
      mul_le_mul_of_nonneg_left hcw (by linarith)
    linarith
  have hpart : α * (1 - 2 * α) * (l + c) ≤ α * (a + b) := by
    have := mul_le_mul_of_nonneg_left hin' h1.le
    linarith
  have ha' := hpart.trans ha
  have hb' := hpart.trans hb
  have hab0 : 0 ≤ a + b := (mul_nonneg (by linarith) hw).trans hin'
  have hl : 0 ≤ l := (mul_nonneg (mul_nonneg h1.le hpos.le) hw).trans hshare
  refine ⟨⟨?_, ?_⟩, ⟨?_, ?_⟩, ?_, ?_⟩
  · have h3 : α * (a + b) ≤ α * ((1 - α) * c) :=
      mul_le_mul_of_nonneg_left (by linarith) h1.le
    have h4 : (1 - α) * (α * (a + b)) ≤ (1 - α) * (α * ((1 - α) * c)) :=
      mul_le_mul_of_nonneg_left h3 hpos.le
    have h5 : α * a ≤ α * ((1 - α) * (a + b)) := mul_le_mul_of_nonneg_left (by linarith) h1.le
    have h6 : (1 - α) * (α * (1 - α) * (l + c)) ≤ (1 - α) * l :=
      mul_le_mul_of_nonneg_left hshare hpos.le
    have h7 : 0 ≤ (1 - α) * (α * (1 - α) * l) :=
      mul_nonneg hpos.le (mul_nonneg (mul_nonneg h1.le hpos.le) hl)
    linarith
  · have h3 : α * l ≤ α * (α * (c + l)) := mul_le_mul_of_nonneg_left hlw.le h1.le
    have h4 : (1 - α) * (α * (1 - 2 * α) * (l + c)) ≤ (1 - α) * a :=
      mul_le_mul_of_nonneg_left ha' hpos.le
    have h5 : α * (α * (l + c)) ≤ (1 - 2 * α) * (1 - α) * (α * (l + c)) :=
      mul_le_mul_of_nonneg_right hα.rotation (mul_nonneg h1.le hw)
    linarith
  · have h3 : α * ((1 - 2 * α) * r) ≤ α * (α * (a + b)) :=
      mul_le_mul_of_nonneg_left (by rw [← hc] at hrot'; linarith) h1.le
    have h4 : α * (α * (a + b)) ≤ (1 - 2 * α) * (1 - α) * (α * (a + b)) :=
      mul_le_mul_of_nonneg_right hα.rotation (mul_nonneg h1.le hab0)
    have h5 : (1 - 2 * α) * (1 - α) * (α * (a + b)) ≤ (1 - 2 * α) * (1 - α) * b :=
      mul_le_mul_of_nonneg_left hb (mul_nonneg (by linarith) hpos.le)
    have h6 : (1 - 2 * α) * (α * r) ≤ (1 - 2 * α) * ((1 - α) * b) := by linarith
    have h7 : α * r ≤ (1 - α) * b := le_of_mul_le_mul_left h6 (by linarith)
    linarith
  · have h3 : α * b ≤ α * ((1 - α) * (a + b)) := mul_le_mul_of_nonneg_left (by linarith) h1.le
    have h4 : 0 ≤ α * (α * (a + b)) := mul_nonneg h1.le (mul_nonneg h1.le hab0)
    rw [← hc] at hr
    linarith
  · calc α * (l + a + (b + r)) = α * (l + c) := by rw [← hc]; ring
      _ ≤ l + a := hα.two_shares hshare hheavy hshare ha'
  · calc α * (l + a + (b + r)) = α * (l + c) := by rw [← hc]; ring
      _ ≤ r + b := hα.two_shares hshare hheavy hshare_r hb'
      _ = b + r := add_comm ..

end Rotations

end Admissible

end WeightBalance
