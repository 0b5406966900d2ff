import Mathlib

/-!
# The highest bit in which two numbers differ

It decides which of the two is smaller, and its place is the size of their xor. Two sizes can be
compared without computing them: `x < y && x < (x ^ y)`.
-/

namespace TopBit

variable {a b i j x y : Nat}

/-- Bit `i` is the highest one in which `a` and `b` differ. -/
structure TopDiff (a b i : Nat) : Prop where
  differ : a.testBit i ≠ b.testBit i
  agree : ∀ j, i < j → a.testBit j = b.testBit j

/-- The number that has the bit is the larger one. -/
theorem TopDiff.lt_iff (h : TopDiff a b i) : a < b ↔ b.testBit i = true := by
  cases hb : b.testBit i with
  | true =>
    have ha : a.testBit i = false := Bool.eq_false_iff.mpr fun ha => h.differ (ha.trans hb.symm)
    exact iff_of_true (Nat.lt_of_testBit i ha hb h.agree) rfl
  | false =>
    have ha : a.testBit i = true := Bool.eq_true_of_not_eq_false fun ha => h.differ (ha.trans hb.symm)
    have hlt := Nat.lt_of_testBit i hb ha fun j hj => (h.agree j hj).symm
    exact iff_of_false hlt.not_gt Bool.false_ne_true

/-- From the size of the xor on, two numbers have the same bits. -/
theorem testBit_eq_of_size_le (h : (a ^^^ b).size ≤ i) (hj : i ≤ j) : a.testBit j = b.testBit j := by
  have hlt : a ^^^ b < 2 ^ j := Nat.size_le.mp (h.trans hj)
  have hbit := Nat.testBit_lt_two_pow hlt
  rw [Nat.testBit_xor] at hbit
  exact bne_eq_false_iff_eq.mp hbit

/-- The last bit below the size is set. -/
theorem testBit_of_size_eq (h : x.size = i + 1) : x.testBit i = true := by
  have hle : 2 ^ i ≤ x := Nat.lt_size.mp (by omega)
  obtain ⟨j, hij, hj⟩ := Nat.exists_ge_and_testBit_of_ge_two_pow hle
  have hlt : j < x.size := Nat.lt_size.mpr (Nat.ge_two_pow_of_testBit hj)
  obtain rfl : j = i := by omega
  exact hj

theorem topDiff_of_size (h : (a ^^^ b).size = i + 1) : TopDiff a b i where
  differ heq := by
    have hbit := testBit_of_size_eq h
    rw [Nat.testBit_xor, heq, Bool.xor_self] at hbit
    exact Bool.false_ne_true hbit
  agree j hj := testBit_eq_of_size_le h.le hj

/-- A comparison of sizes by one xor. -/
theorem lt_and_lt_xor_iff : x < y ∧ x < x ^^^ y ↔ x.size < y.size := by
  constructor
  · rintro ⟨hxy, hxor⟩
    by_contra hsize
    have hsize : x.size = y.size := le_antisymm (Nat.size_le_size hxy.le) (not_lt.mp hsize)
    obtain ⟨m, hm⟩ : ∃ m, x.size = m + 1 := by
      refine Nat.exists_eq_succ_of_ne_zero fun h0 => ?_
      have hy : y = 0 := Nat.size_eq_zero.mp (hsize ▸ h0)
      exact Nat.not_lt_zero x (hy ▸ hxy)
    -- both have the last bit below the common size, so the xor is shorter
    have hlt : x ^^^ y < 2 ^ m := by
      refine Nat.lt_pow_two_of_testBit _ fun i hi => ?_
      rw [Nat.testBit_xor]
      rcases hi.eq_or_lt with rfl | hi
      · rw [testBit_of_size_eq hm, testBit_of_size_eq (hsize ▸ hm), Bool.xor_self]
      · rw [Nat.testBit_lt_two_pow (Nat.size_le.mp (hm.le.trans hi)),
          Nat.testBit_lt_two_pow (Nat.size_le.mp ((hsize ▸ hm.le).trans hi)), Bool.xor_self]
    have hle : 2 ^ m ≤ x := Nat.lt_size.mp (by omega)
    exact absurd (hxor.trans hlt) hle.not_gt
  · intro hsize
    have hx : x < 2 ^ x.size := Nat.lt_size_self x
    obtain ⟨k, hk, hbit⟩ := Nat.exists_ge_and_testBit_of_ge_two_pow (Nat.lt_size.mp hsize)
    have hxk : x < 2 ^ k := hx.trans_le (Nat.pow_le_pow_right Nat.two_pos hk)
    have hxor : (x ^^^ y).testBit k = true := by
      rw [Nat.testBit_xor, Nat.testBit_lt_two_pow hxk, hbit, Bool.false_xor]
    exact ⟨hxk.trans_le (Nat.ge_two_pow_of_testBit hbit),
      hxk.trans_le (Nat.ge_two_pow_of_testBit hxor)⟩

end TopBit
