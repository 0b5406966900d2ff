import Silva.Geo.Operations

/-!
# Proofs: the Morton code and the bit that a level splits on

Bit `2i + 1` of the code is bit `i` of `x` and bit `2i` is bit `i` of `y`, so the coordinate bit that
`split_by_bit` tests at level `b` is bit `b - 1` of the code.
-/

namespace Silva

/-- The mask of one loop step selects one bit. -/
theorem testBit_mask_shift (n i s j : Nat) :
    ((n &&& (1 <<< i)) <<< s).testBit j = (decide (j = i + s) && n.testBit i) := by
  rw [Nat.testBit_shiftLeft, Nat.testBit_and, Nat.one_shiftLeft, Nat.testBit_two_pow]
  by_cases hj : j = i + s
  · subst hj; simp
  · by_cases hs : s ≤ j
    · have : i ≠ j - s := by omega
      simp [hj, this]
    · simp [hj, hs]

theorem testBit_interleaveStep (ix iy ret i j : Nat) :
    (Point.interleaveStep ix iy ret i).testBit j =
      (ret.testBit j || ((decide (j = 2 * i + 1) && ix.testBit i) ||
        (decide (j = 2 * i) && iy.testBit i))) := by
  unfold Point.interleaveStep
  rw [Nat.testBit_or, Nat.testBit_or, testBit_mask_shift, testBit_mask_shift]
  have h1 : i + (i + 1) = 2 * i + 1 := by omega
  have h2 : i + i = 2 * i := by omega
  rw [h1, h2]

/-- The bits written by the first `n` loop steps. -/
theorem testBit_interleave_loop (ix iy n j : Nat) :
    ((List.range n).foldl (Point.interleaveStep ix iy) 0).testBit j =
      (decide (j / 2 < n) && (if j % 2 = 1 then ix.testBit (j / 2) else iy.testBit (j / 2))) := by
  induction n with
  | zero => simp
  | succ n ih =>
    rw [List.range_succ, List.foldl_append, List.foldl_cons, List.foldl_nil,
      testBit_interleaveStep, ih]
    by_cases hodd : j = 2 * n + 1
    · subst hodd
      have h1 : (2 * n + 1) / 2 = n := by omega
      have h2 : (2 * n + 1) % 2 = 1 := by omega
      simp [h1]
    · by_cases heven : j = 2 * n
      · subst heven
        have h1 : 2 * n / 2 = n := by omega
        simp [h1]
      · have hlt : (j / 2 < n + 1) ↔ j / 2 < n := by omega
        simp [hodd, heven, hlt]

theorem toUint_lt (x : FT) : toUint x < 2 ^ 32 := Nat.mod_lt _ (by norm_num)

theorem testBit_interleaveBits (p : Point) (j : Nat) :
    p.interleaveBits.testBit j =
      if j % 2 = 1 then (toUint p.x).testBit (j / 2) else (toUint p.y).testBit (j / 2) := by
  unfold Point.interleaveBits
  rw [testBit_interleave_loop]
  by_cases h : j / 2 < 32
  · simp [h]
  · have hx : (toUint p.x).testBit (j / 2) = false :=
      Nat.testBit_lt_two_pow ((toUint_lt p.x).trans_le (Nat.pow_le_pow_right (by norm_num) (by omega)))
    have hy : (toUint p.y).testBit (j / 2) = false :=
      Nat.testBit_lt_two_pow ((toUint_lt p.y).trans_le (Nat.pow_le_pow_right (by norm_num) (by omega)))
    simp [h, hx, hy]

/-- The code fits into 64 bits. -/
theorem interleaveBits_lt (p : Point) : p.interleaveBits < 2 ^ 64 := by
  apply Nat.lt_pow_two_of_testBit
  intro j hj
  have h : 32 ≤ j / 2 := by omega
  have hx : (toUint p.x).testBit (j / 2) = false :=
    Nat.testBit_lt_two_pow ((toUint_lt p.x).trans_le (Nat.pow_le_pow_right (by norm_num) h))
  have hy : (toUint p.y).testBit (j / 2) = false :=
    Nat.testBit_lt_two_pow ((toUint_lt p.y).trans_le (Nat.pow_le_pow_right (by norm_num) h))
  rw [testBit_interleaveBits, hx, hy]
  simp

theorem land_mask_eq_zero (n i : Nat) : (n &&& (1 <<< i) == 0) = !n.testBit i := by
  rw [Nat.one_shiftLeft, Nat.and_two_pow]
  cases n.testBit i <;> simp

/-- `split_by_bit` at level `b + 1` tests bit `b` of the code. -/
theorem bitLess_eq (b : Nat) (p : Point) :
    bitLess (b + 1) p = !p.interleaveBits.testBit b := by
  unfold bitLess
  simp only [Nat.add_sub_cancel]
  rw [land_mask_eq_zero, land_mask_eq_zero, testBit_interleaveBits]
  by_cases h : b % 2 = 1
  · have h' : (b + 1) % 2 = 0 := by omega
    simp [h, h']
  · have h' : (b + 1) % 2 = 1 := by omega
    simp [h, h']

theorem Point.Coded.mortonId_lt {p : Point} (h : p.Coded) : p.mortonId < 2 ^ 64 := by
  rw [h]; exact interleaveBits_lt p

theorem Point.Coded.bitLess {p : Point} (h : p.Coded) (b : Nat) :
    bitLess (b + 1) p = !p.mortonId.testBit b := by
  rw [bitLess_eq, h]

/-- A coordinate in the domain is cast to its integer part. -/
theorem toUint_eq_floor {x : FT} (hlt : x < 2 ^ 32) : toUint x = ⌊x⌋₊ := by
  unfold toUint
  apply Nat.mod_eq_of_lt
  by_cases h0 : 0 ≤ x
  · exact (Nat.floor_lt h0).mpr (by exact_mod_cast hlt)
  · rw [Nat.floor_of_nonpos (le_of_not_ge h0)]; norm_num

/-- Two points have the same code exactly when both coordinates fall into the same unit cell. -/
theorem interleaveBits_inj {p q : Point} :
    p.interleaveBits = q.interleaveBits ↔ toUint p.x = toUint q.x ∧ toUint p.y = toUint q.y := by
  constructor
  · intro h
    constructor
    · apply Nat.eq_of_testBit_eq
      intro i
      have := congrArg (fun n => n.testBit (2 * i + 1)) h
      simp only [testBit_interleaveBits] at this
      have h1 : (2 * i + 1) / 2 = i := by omega
      have h2 : (2 * i + 1) % 2 = 1 := by omega
      simpa [h1, h2] using this
    · apply Nat.eq_of_testBit_eq
      intro i
      have := congrArg (fun n => n.testBit (2 * i)) h
      simp only [testBit_interleaveBits] at this
      have h1 : 2 * i / 2 = i := by omega
      simpa [h1] using this
  · rintro ⟨hx, hy⟩
    unfold Point.interleaveBits
    rw [hx, hy]

theorem Point.IsInteger.inDomain {p : Point} (h : p.IsInteger) : p.InDomain := by
  obtain ⟨m, n, hm, hn, hx, hy⟩ := h
  refine ⟨?_, ?_, ?_, ?_⟩
  · rw [hx]; positivity
  · rw [hx]; exact_mod_cast hm
  · rw [hy]; positivity
  · rw [hy]; exact_mod_cast hn

theorem Point.IsInteger.onGrid {p : Point} (h : p.IsInteger) : p.OnGrid := by
  have hd := h.inDomain
  obtain ⟨m, n, -, -, hx, hy⟩ := h
  refine ⟨hd, ⟨m * 2 ^ 52, ?_⟩, ⟨n * 2 ^ 52, ?_⟩⟩
  · rw [hx]; unfold ftEps; push_cast; ring
  · rw [hy]; unfold ftEps; push_cast; ring

theorem Point.IsInteger.eq_toUint {p : Point} (h : p.IsInteger) :
    p.x = toUint p.x ∧ p.y = toUint p.y := by
  obtain ⟨m, n, hm, hn, hx, hy⟩ := h
  constructor
  · rw [toUint_eq_floor (by rw [hx]; exact_mod_cast hm), hx, Nat.floor_natCast]
  · rw [toUint_eq_floor (by rw [hy]; exact_mod_cast hn), hy, Nat.floor_natCast]

/-- For integer coordinates the code determines the point. -/
theorem Point.IsInteger.ext_of_code {p q : Point} (hp : p.IsInteger) (hq : q.IsInteger)
    (h : p.interleaveBits = q.interleaveBits) : p.x = q.x ∧ p.y = q.y := by
  obtain ⟨hx, hy⟩ := interleaveBits_inj.mp h
  rw [hp.eq_toUint.1, hp.eq_toUint.2, hq.eq_toUint.1, hq.eq_toUint.2, hx, hy]
  exact ⟨rfl, rfl⟩

end Silva
