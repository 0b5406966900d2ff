import Silva.Geo.Proofs.HilbertProofs

/-!
# Proofs: Hilbert codes follow a curve

The words that the loop of `hilbert_i2c` reads for an index and the next one differ in one bit. Above
its digit the loop does the same for both, and below it there is nothing but highest bits, which cancel
with the flipped bits. So the outputs differ in one bit, too, and one coordinate carries over.
-/

namespace Silva

namespace Hilbert

open BitWord

variable {n m q e r a k t : ℕ} {x y index : Bitmask} {d : BitVec n}

/-! ## Places in a rotated digit -/

/-- Back to the range, for numbers that are less than `n` too large. -/
def wrap (n a : ℕ) : ℕ := if n ≤ a then a - n else a

theorem wrap_lt (h : a < 2 * n) : wrap n a < n := by
  unfold wrap
  split <;> omega

theorem getLsbD_rotateLeft_wrap (hr : r < n) {i : ℕ} (hi : i < n) (d : BitVec n) :
    (d.rotateLeft r).getLsbD (wrap n (i + r)) = d.getLsbD i := by
  rw [BitVec.getLsbD_rotateLeft_of_le hr]
  unfold wrap
  split
  · rw [decide_eq_true (show i + r - n < r by omega), cond_true,
      show n - r + (i + r - n) = i by omega]
  · rw [decide_eq_false (show ¬i + r < r by omega), cond_false,
      decide_eq_true (show i + r < n by omega), Bool.true_and, Nat.add_sub_cancel]

/-- Digits are equal when they agree in all rotated places. -/
theorem eq_of_wrap {d d' : BitVec n} (hr : r < n)
    (h : ∀ i < n, d.getLsbD (wrap n (i + r)) = d'.getLsbD (wrap n (i + r))) : d = d' := by
  refine BitVec.eq_of_getLsbD_eq fun k hk => ?_
  have hplace : wrap n ((if r ≤ k then k - r else k + n - r) + r) = k := by
    unfold wrap
    split <;> split <;> omega
  have := h (if r ≤ k then k - r else k + n - r) (by split <;> omega)
  rwa [hplace] at this

/-! ## The next rotation -/

theorem countShifts_zero (r : ℕ) : countShifts 0 r = r := by
  rw [countShifts, if_pos rfl]

theorem countShifts_of_bit {i : ℕ} (h : ∀ k, x.getLsbD k = true ↔ k = i) :
    countShifts x r = r + i + 1 := by
  induction i generalizing x r with
  | zero =>
    have hne : x ≠ 0 := fun hzero => by simpa [hzero] using h 0
    have hshift : x >>> 1 = 0 := Below.ushiftRight_eq_zero (k := 1) (fun k hk => by
      rw [← Bool.not_eq_true, h]
      omega) le_rfl
    rw [countShifts, if_neg hne, hshift, countShifts_zero]
  | succ i ih =>
    have hne : x ≠ 0 := fun hzero => by simpa [hzero] using h (i + 1)
    rw [countShifts, if_neg hne, ih fun k => by rw [BitVec.getLsbD_ushiftRight, h]; omega]
    omega

/-- What `adjust_rotation` keeps of a digit. -/
theorem getLsbD_lowest (hn : 0 < n) (hn64 : n ≤ 64) (k : ℕ) :
    (d.setWidth 64 &&& (-d.setWidth 64 &&& ones n >>> 1)).getLsbD k = true ↔
      k + 1 < n ∧ d.getLsbD k = true ∧ ∀ j < k, d.getLsbD j = false := by
  rw [BitVec.getLsbD_and, BitVec.getLsbD_and, BitVec.getLsbD_neg, BitVec.getLsbD_ushiftRight,
    Bool.and_eq_true, Bool.and_eq_true, getLsbD_ones hn hn64, getLsbD_digit hn64]
  have hlow : (∃ j < k, (d.setWidth 64).getLsbD j = true) ↔ ¬∀ j < k, d.getLsbD j = false := by
    push Not
    refine exists_congr fun j => and_congr_right fun hj => ?_
    rw [getLsbD_digit hn64, ne_eq, Bool.not_eq_false]
  rw [decide_eq_decide.mpr hlow, decide_not]
  constructor
  · rintro ⟨hbit, hcarry, hk⟩
    rw [hbit, decide_eq_true (show k < 64 by omega)] at hcarry
    exact ⟨by omega, hbit, by simpa using hcarry⟩
  · rintro ⟨hk, hbit, hzero⟩
    rw [hbit, decide_eq_true hzero]
    exact ⟨rfl, by simp, by omega⟩

/-- The lowest bit of a digit, unless it is the highest place, tells how far the rotation goes. -/
theorem nextRotation_of_low (hn64 : n ≤ 64) {i : ℕ} (hi : i + 1 < n) (hbit : d.getLsbD i = true)
    (hlow : ∀ j < i, d.getLsbD j = false) (r : ℕ) : nextRotation r d = wrap n (r + i + 2) := by
  have hcount : countShifts (d.setWidth 64 &&& (-d.setWidth 64 &&& ones n >>> 1)) r = r + i + 1 := by
    refine countShifts_of_bit fun k => ?_
    rw [getLsbD_lowest (by omega) hn64]
    constructor
    · rintro ⟨-, hk, hzero⟩
      rcases lt_trichotomy k i with hlt | rfl | hlt
      · rw [hlow k hlt] at hk
        cases hk
      · rfl
      · rw [hzero i hlt] at hbit
        cases hbit
    · rintro rfl
      exact ⟨hi, hbit, hlow⟩
  unfold nextRotation adjustRotation wrap
  dsimp only
  rw [hcount]

theorem nextRotation_of_high (hn : 0 < n) (hn64 : n ≤ 64) (hlow : ∀ j, j + 1 < n → d.getLsbD j = false)
    (r : ℕ) : nextRotation r d = wrap n (r + 1) := by
  have hzero : d.setWidth 64 &&& (-d.setWidth 64 &&& ones n >>> 1) = 0 := by
    refine BitVec.eq_of_getLsbD_eq fun k _ => ?_
    refine (Bool.not_eq_true _).mp ?_ |>.trans BitVec.getLsbD_zero.symm
    rw [getLsbD_lowest hn hn64]
    rintro ⟨hk, hbit, -⟩
    rw [hlow k hk] at hbit
    cases hbit
  unfold nextRotation adjustRotation wrap
  dsimp only
  rw [hzero, countShifts_zero]

/-! ## The digits below the change -/

/-- A digit of a word. -/
theorem getLsbD_digitOf (x : Bitmask) (j : ℕ) {i : ℕ} (hi : i < n) :
    (x.extractLsb' (j * n) n).getLsbD i = x.getLsbD (j * n + i) := by
  rw [BitVec.getLsbD_extractLsb', decide_eq_true hi, Bool.true_and]

/-- A digit with the highest bit only cancels with the bit that is flipped. -/
theorem run_top (hn : 0 < n) (hn64 : n ≤ 64) (hr : r < n)
    (htop : ∀ j < k, ∀ i < n, x.getLsbD (j * n + i) = decide (i + 1 = n)) :
    run coordStep (wrap n (r + 1), BitVec.twoPow n r) (digits n k x) = List.replicate k 0 := by
  induction k generalizing r with
  | zero => rfl
  | succ k ih =>
    have hw : wrap n (r + 1) < n := wrap_lt (by omega)
    have hdigit : ∀ i < n, (x.extractLsb' (k * n) n).getLsbD i = decide (i + 1 = n) := fun i hi => by
      rw [getLsbD_digitOf x k hi, htop k (Nat.lt_succ_self k) i hi]
    rw [digits, run, List.replicate_succ]
    refine congrArg₂ _ (eq_of_wrap hw fun i hi => ?_) ?_
    · rw [coordStep, BitVec.getLsbD_xor, getLsbD_rotateLeft_wrap hw hi, hdigit i hi,
        BitVec.getLsbD_twoPow, decide_eq_true hr, Bool.true_and]
      refine Eq.trans ?_ BitVec.getLsbD_zero.symm
      have hsame : i + 1 = n ↔ r = wrap n (i + wrap n (r + 1)) := by
        unfold wrap
        split <;> split <;> omega
      rw [decide_eq_decide.mpr hsame, Bool.xor_self]
    · have hnext : nextRotation (wrap n (r + 1)) (x.extractLsb' (k * n) n) =
          wrap n (wrap n (r + 1) + 1) :=
        nextRotation_of_high hn hn64 (fun j hj => by
          rw [hdigit j (by omega), decide_eq_false (by omega)]) _
      rw [coordStep, hnext]
      exact ih hw fun j hj => htop j (by omega)

/-- The first digit below the change, and all others. -/
theorem run_below (hn : 0 < n) (hn64 : n ≤ 64) (hr : r < n) (he : e < n) {s : ℕ} (hs : s < n)
    (hstate : 0 < e → s = wrap n (r + e + 1))
    (hlow : ∀ j < q + 1, ∀ i < n, x.getLsbD (j * n + i) = decide (i + 1 = n ∧ ¬(e = 0 ∧ j = q))) :
    run coordStep (s, BitVec.twoPow n r) (digits n (q + 1) x) =
      (BitVec.twoPow n r ^^^ if e = 0 then 0 else BitVec.twoPow n (wrap n (r + e))) ::
        List.replicate q 0 := by
  have hdigit : ∀ i < n, (x.extractLsb' (q * n) n).getLsbD i = decide (i + 1 = n ∧ ¬e = 0) := by
    intro i hi
    rw [getLsbD_digitOf x q hi, hlow q (Nat.lt_succ_self q) i hi]
    simp
  rw [digits, run]
  refine congrArg₂ _ (eq_of_wrap hs fun i hi => ?_) ?_
  · rw [coordStep, BitVec.getLsbD_xor, BitVec.getLsbD_xor, getLsbD_rotateLeft_wrap hs hi, hdigit i hi,
      Bool.xor_comm]
    congr 1
    by_cases hzero : e = 0
    · simp [hzero]
    · have hplace : i + 1 = n ↔ wrap n (r + e) = wrap n (i + s) := by
        rw [hstate (by omega)]
        unfold wrap
        split <;> split <;> split <;> omega
      rw [if_neg hzero, BitVec.getLsbD_twoPow, decide_eq_true (wrap_lt (by omega)), Bool.true_and,
        decide_eq_decide.mpr (show (i + 1 = n ∧ ¬e = 0) ↔ _ by rw [and_iff_left hzero, hplace])]
  · have hnext : nextRotation s (x.extractLsb' (q * n) n) = wrap n (s + 1) :=
      nextRotation_of_high hn hn64 (fun j hj => by
        rw [hdigit j (by omega), decide_eq_false (by omega)]) _
    rw [coordStep, hnext]
    refine run_top hn hn64 hs fun j hj i hi => ?_
    rw [hlow j (by omega) i hi]
    exact decide_eq_decide.mpr (and_iff_left (by omega))

/-! ## The outputs for an index and the next one -/

/-- One bit of a digit changes one bit of the output. -/
theorem coordStep_change {s : ℕ × BitVec n} (hs : s.1 < n) (he : e < n) {d' : BitVec n}
    (hd : ∀ i < n, d'.getLsbD i = (d.getLsbD i ^^ decide (i = e))) :
    (coordStep s d').1 = (coordStep s d).1 ^^^ BitVec.twoPow n (wrap n (s.1 + e)) := by
  refine eq_of_wrap hs fun i hi => ?_
  have hplace : i = e ↔ wrap n (s.1 + e) = wrap n (i + s.1) := by
    unfold wrap
    split <;> split <;> omega
  rw [coordStep, coordStep, BitVec.getLsbD_xor, BitVec.getLsbD_xor, BitVec.getLsbD_xor,
    getLsbD_rotateLeft_wrap hs hi, getLsbD_rotateLeft_wrap hs hi, hd i hi, BitVec.getLsbD_twoPow,
    decide_eq_true (wrap_lt (by omega)), Bool.true_and, decide_eq_decide.mpr hplace, Bool.xor_assoc,
    Bool.xor_assoc, Bool.xor_comm (decide _)]

/-- What the words that are read for an index and the next one have to do with each other: bit `e` of
the digit `q` is the one that changes. -/
structure Step (n q e : ℕ) (x y : Bitmask) : Prop where
  /-- No other bit changes. -/
  change : ∀ k, y.getLsbD k = (x.getLsbD k ^^ decide (k = q * n + e))
  /-- Below it the digit has the next bit only. -/
  digit : ∀ i < e, x.getLsbD (q * n + i) = decide (i + 1 = e)
  /-- The digits below have their highest bit only; the first one has none for `e = 0`. -/
  below : ∀ j < q, ∀ i < n, x.getLsbD (j * n + i) = decide (i + 1 = n ∧ ¬(e = 0 ∧ j + 1 = q))

/-- The outputs differ in one bit `a` of one digit. The digits that follow are equal, the first one has
the bit `a`, and all others are zero. -/
theorem Step.run (h : Step n q e x y) (hn64 : n ≤ 64) (hq : q < m) (he : e < n) :
    ∃ a < n, ∃ H o L, BitWord.run coordStep (0, 0) (digits n m x) = H ++ o :: L ∧
      BitWord.run coordStep (0, 0) (digits n m y) = H ++ (o ^^^ BitVec.twoPow n a) :: L ∧
      L.length = q ∧
      ∀ p, q = p + 1 → ∃ v : BitVec n, v.getLsbD a = true ∧ L = v :: List.replicate p 0 := by
  obtain ⟨k, rfl⟩ : ∃ k, m = k + (q + 1) := ⟨m - (q + 1), by omega⟩
  have hhigh : y >>> ((q + 1) * n) = x >>> ((q + 1) * n) := by
    refine BitVec.eq_of_getLsbD_eq fun i _ => ?_
    rw [BitVec.getLsbD_ushiftRight, BitVec.getLsbD_ushiftRight, h.change, Nat.succ_mul,
      decide_eq_false (by omega), Bool.xor_false]
  have hdigit : ∀ i < n, (y.extractLsb' (q * n) n).getLsbD i =
      ((x.extractLsb' (q * n) n).getLsbD i ^^ decide (i = e)) := fun i hi => by
    rw [getLsbD_digitOf y q hi, getLsbD_digitOf x q hi, h.change,
      decide_eq_decide.mpr Nat.add_left_cancel_iff]
  rw [digits_add k x, digits_add k y, hhigh, run_append, run_append, digits, digits, BitWord.run,
    BitWord.run]
  generalize hs : reach coordStep (0, 0) (digits n k (x >>> ((q + 1) * n))) = s
  have hr : s.1 < n := hs ▸ reach_inv (I := fun s : ℕ × BitVec n => s.1 < n)
    (fun s a hs => adjustRotation_lt hn64 hs _) (show 0 < n by omega) _
  rw [coordStep_change hr he hdigit]
  -- both words leave the digit in states that treat the digits below alike
  have hbelow : ∀ p, q = p + 1 → ∀ z : Bitmask, (∀ i < e, z.getLsbD (q * n + i) = decide (i + 1 = e)) →
      (∀ j < q, ∀ i < n, z.getLsbD (j * n + i) = decide (i + 1 = n ∧ ¬(e = 0 ∧ j + 1 = q))) →
      BitWord.run coordStep (coordStep s (z.extractLsb' (q * n) n)).2 (digits n q z) =
        (BitVec.twoPow n s.1 ^^^ if e = 0 then 0 else BitVec.twoPow n (wrap n (s.1 + e))) ::
          List.replicate p 0 := by
    rintro p rfl z hz hlow
    refine run_below (by omega) hn64 hr he (adjustRotation_lt hn64 hr _) (fun he0 => ?_)
      fun j hj i hi => ?_
    · have hnext := nextRotation_of_low (d := z.extractLsb' ((p + 1) * n) n) hn64
        (show e - 1 + 1 < n by omega)
        (by rw [getLsbD_digitOf _ _ (by omega), hz _ (by omega), decide_eq_true (by omega)])
        (fun j hj => by
          rw [getLsbD_digitOf _ _ (by omega), hz _ (by omega), decide_eq_false (by omega)]) s.1
      rwa [show s.1 + (e - 1) + 2 = s.1 + e + 1 by omega] at hnext
    · rw [hlow j hj i hi]
      exact decide_eq_decide.mpr (by simp)
  have hy : ∀ k < q * n + e, y.getLsbD k = x.getLsbD k := fun k hk => by
    rw [h.change, decide_eq_false (by omega), Bool.xor_false]
  have hybelow : ∀ j < q, ∀ i < n, y.getLsbD (j * n + i) = x.getLsbD (j * n + i) := fun j hj i hi => by
    refine hy _ ?_
    have := Nat.mul_le_mul_right n (show j + 1 ≤ q from hj)
    rw [Nat.succ_mul] at this
    omega
  have hsame : BitWord.run coordStep (coordStep s (y.extractLsb' (q * n) n)).2 (digits n q y) =
      BitWord.run coordStep (coordStep s (x.extractLsb' (q * n) n)).2 (digits n q x) := by
    cases q with
    | zero => rfl
    | succ p =>
      rw [hbelow p rfl x h.digit h.below]
      refine hbelow p rfl y (fun i hi => ?_) fun j hj i hi => ?_
      · rw [hy _ (by omega), h.digit i hi]
      · rw [hybelow j hj i hi, h.below j hj i hi]
  refine ⟨wrap n (s.1 + e), wrap_lt (by omega), _, _, _, rfl, by rw [hsame], ?_, fun p hp => ?_⟩
  · rw [length_run, length_digits]
  · refine ⟨_, ?_, hbelow p hp x h.digit h.below⟩
    have hw : wrap n (s.1 + e) < n := wrap_lt (by omega)
    rw [BitVec.getLsbD_xor, BitVec.getLsbD_twoPow, decide_eq_true hr, Bool.true_and]
    by_cases he0 : e = 0
    · rw [if_pos he0, show BitVec.getLsbD (0 : BitVec n) _ = false from BitVec.getLsbD_zero,
        Bool.xor_false, decide_eq_true]
      unfold wrap
      split <;> omega
    · rw [if_neg he0, BitVec.getLsbD_twoPow, decide_eq_true hw, decide_eq_true rfl, decide_eq_false]
      · rfl
      · unfold wrap
        split <;> omega

/-! ## The words that are read -/

theorem toNat_ones (hk : 0 < k) (hk64 : k ≤ 64) : (ones k).toNat = 2 ^ k - 1 := by
  refine Nat.eq_of_testBit_eq fun j => ?_
  rw [BitVec.testBit_toNat, Nat.testBit_two_pow_sub_one, Bool.eq_iff_iff, getLsbD_ones hk hk64,
    decide_eq_true_iff]

/-- `nthbits` has the lowest bit of every digit. -/
theorem getLsbD_nthbits (hn : 0 < n) (hm : 0 < m) (h64 : n * m ≤ 64) (k : ℕ) :
    (nthbits n m).getLsbD k = true ↔ ∃ j < m, k = j * n := by
  have hn64 : n ≤ 64 := (Nat.le_mul_of_pos_right n hm).trans h64
  have hinj : Set.InjOn (· * n) (Finset.range m : Set ℕ) := fun a _ b _ h =>
    Nat.eq_of_mul_eq_mul_right hn h
  have hsum : (nthbits n m).toNat = ∑ a ∈ (Finset.range m).image (· * n), 2 ^ a := by
    rw [nthbits, BitVec.toNat_udiv, toNat_ones (Nat.mul_pos hn hm) h64, toNat_ones hn hn64, pow_mul,
      ← Nat.geomSum_eq (Nat.le_self_pow hn.ne' 2), Finset.sum_image hinj]
    exact Finset.sum_congr rfl fun j _ => by rw [← pow_mul, Nat.mul_comm]
  rw [getLsbD_of_sum hsum, Finset.mem_image]
  simp only [Finset.mem_range, eq_comm]

theorem digit_place_iff {j j' i i' : ℕ} (hi : i < n) (hi' : i' < n) :
    j * n + i = j' * n + i' ↔ j = j' ∧ i = i' := by
  constructor
  · intro h
    have hdiv := congrArg (· / n) h
    have hmod := congrArg (· % n) h
    simp only [Nat.mul_comm _ n, Nat.mul_add_div (Nat.zero_lt_of_lt hi), Nat.div_eq_of_lt hi,
      Nat.div_eq_of_lt hi', Nat.add_zero] at hdiv
    simp only [Nat.mul_comm _ n, Nat.mul_add_mod, Nat.mod_eq_of_lt hi, Nat.mod_eq_of_lt hi'] at hmod
    exact ⟨hdiv, hmod⟩
  · rintro ⟨rfl, rfl⟩
    rfl

/-- After the shift it has the highest bit of every digit but the first one. -/
theorem getLsbD_nthbits_shift (hn : 0 < n) (hm : 0 < m) (h64 : n * m ≤ 64) {j i : ℕ} (hi : i < n) :
    (nthbits n m >>> 1).getLsbD (j * n + i) = decide (i + 1 = n ∧ j + 1 < m) := by
  rw [BitVec.getLsbD_ushiftRight, Bool.eq_iff_iff, getLsbD_nthbits hn hm h64, decide_eq_true_iff]
  rcases Nat.lt_or_eq_of_le (Nat.succ_le_of_lt hi) with hlt | heq
  · constructor
    · rintro ⟨j', -, heq⟩
      have hplace : j * n + (i + 1) = j' * n + 0 := by omega
      have := (digit_place_iff hlt hn).mp hplace
      omega
    · omega
  · have hnext : 1 + (j * n + i) = (j + 1) * n := by
      rw [Nat.succ_mul]
      omega
    rw [hnext]
    constructor
    · rintro ⟨j', hj', hmul⟩
      have := Nat.eq_of_mul_eq_mul_right hn hmul
      omega
    · rintro ⟨-, hj⟩
      exact ⟨j + 1, hj, rfl⟩

/-- The words that are read for an index and the next one. -/
theorem Step.read (hn : 0 < n) (hm : 0 < m) (h64 : n * m ≤ 64) (h : Carry x y (q * n + e)) (hq : q < m)
    (he : e < n) : Step n q e ((x ^^^ x >>> 1) ^^^ nthbits n m >>> 1)
      ((y ^^^ y >>> 1) ^^^ nthbits n m >>> 1) := by
  refine ⟨fun k => ?_, fun i hi => ?_, fun j hj i hi => ?_⟩
  · rw [BitVec.getLsbD_xor (x := y ^^^ y >>> 1), BitVec.getLsbD_xor (x := x ^^^ x >>> 1), (h.gray k).1,
      Bool.xor_assoc, Bool.xor_assoc, Bool.xor_comm (decide _)]
  · rw [BitVec.getLsbD_xor, (h.gray _).2 (by omega), getLsbD_nthbits_shift hn hm h64 (by omega),
      decide_eq_false (show ¬(i + 1 = n ∧ q + 1 < m) by omega), Bool.xor_false]
    exact decide_eq_decide.mpr (by omega)
  · have hend : (j + 1) * n ≤ q * n := Nat.mul_le_mul_right n hj
    rw [Nat.succ_mul] at hend
    rw [BitVec.getLsbD_xor, (h.gray _).2 (by omega), getLsbD_nthbits_shift hn hm h64 hi]
    rcases Nat.lt_or_eq_of_le (Nat.succ_le_of_lt hi) with hlt | heq
    · rw [decide_eq_false (by omega), decide_eq_false (by omega), decide_eq_false (by omega)]
      rfl
    · have hsame : j * n + i + 1 = q * n + e ↔ e = 0 ∧ j + 1 = q := by
        have hplace : (j + 1) * n + 0 = q * n + e ↔ j + 1 = q ∧ 0 = e := digit_place_iff hn he
        rw [Nat.succ_mul] at hplace
        omega
      rw [decide_eq_decide.mpr hsame, decide_eq_true (show i + 1 = n ∧ j + 1 < m by omega),
        decide_eq_decide.mpr (and_iff_right (show i + 1 = n from heq)), decide_not, Bool.xor_true]

/-! ## The words of coordinates -/

theorem getLsbD_of_digits_zero (h : digits n k x = List.replicate k 0) {i : ℕ}
    (hi : i < k * n) : x.getLsbD i = false := by
  induction k with
  | zero => omega
  | succ k ih =>
    rw [digits, List.replicate_succ, List.cons.injEq] at h
    by_cases hlow : i < k * n
    · exact ih h.2 hlow
    · rw [Nat.succ_mul] at hi
      have hbit := getLsbD_digitOf x k (show i - k * n < n by omega)
      rw [h.1, show k * n + (i - k * n) = i by omega] at hbit
      exact hbit.symm.trans BitVec.getLsbD_zero

/-- What the outputs for an index and the next one have to do with each other: they differ in one bit of
the digit `q`. -/
structure Outputs (n m q a : ℕ) (x y : Bitmask) : Prop where
  below_left : Below (n * m) x
  below_right : Below (n * m) y
  /-- No other bit changes. -/
  change : ∀ k, y.getLsbD k = (x.getLsbD k ^^ decide (k = q * n + a))
  first : ∀ p, q = p + 1 → x.getLsbD (p * n + a) = true
  rest : ∀ p, q = p + 1 → ∀ k < p * n, x.getLsbD k = false

theorem Step.outputs (h : Step n q e x y) (hm : 0 < m) (h64 : n * m ≤ 64) (hq : q < m)
    (he : e < n) : ∃ a < n, Outputs n m q a
      (appendDigits 0 (BitWord.run coordStep (0, 0) (digits n m x)))
      (appendDigits 0 (BitWord.run coordStep (0, 0) (digits n m y))) := by
  have hn64 : n ≤ 64 := (Nat.le_mul_of_pos_right n hm).trans h64
  obtain ⟨a, ha, H, o, L, hx, hy, hlen, hlow⟩ := h.run hn64 hq he
  obtain ⟨hdx, hbx⟩ := digits_run h64 coordStep x
  obtain ⟨-, hby⟩ := digits_run h64 coordStep y
  have hroom : q * n + n ≤ n * m := by
    have := Nat.mul_le_mul_right n (show q + 1 ≤ m from hq)
    rwa [Nat.succ_mul, Nat.mul_comm m] at this
  -- the word for the next index
  have hsplit : appendDigits (0 : Bitmask) (H ++ (o ^^^ BitVec.twoPow n a) :: L) =
      appendDigits 0 (H ++ o :: L) ^^^ (BitVec.twoPow n a).setWidth 64 <<< (q * n) := by
    rw [appendDigits, appendDigits, List.foldl_append, List.foldl_append, List.foldl_cons,
      List.foldl_cons, ← hlen]
    refine Eq.trans ?_ (appendDigits_xor L _ _)
    refine congrArg (appendDigits · L) (BitVec.eq_of_getLsbD_eq fun k hk64 => ?_)
    simp only [BitVec.getLsbD_or, BitVec.getLsbD_xor, BitVec.getLsbD_setWidth, BitVec.getLsbD_shiftLeft]
    by_cases hk : k < n
    · simp [hk, hk64]
    · rw [BitVec.getLsbD_of_ge o k (by omega), BitVec.getLsbD_of_ge (BitVec.twoPow n a) k (by omega)]
      simp
  -- the digits below the change
  have hdigits : digits n q (appendDigits (0 : Bitmask)
      (BitWord.run coordStep (0, 0) (digits n m x))) = L := by
    rw [← hlen]
    exact digits_of_append ((hdx.trans hx).trans (List.append_cons ..))
  refine ⟨a, ha, hbx, hby, fun k => ?_, fun p hp => ?_, fun p hp k hk => ?_⟩
  · rw [hx, hy, hsplit, BitVec.getLsbD_xor, BitVec.getLsbD_shiftLeft, getLsbD_digit hn64,
      BitVec.getLsbD_twoPow, decide_eq_true ha, Bool.true_and]
    congr 1
    rw [Bool.eq_iff_iff]
    simp only [Bool.and_eq_true, decide_eq_true_eq, Bool.not_eq_true', decide_eq_false_iff_not]
    omega
  · obtain ⟨v, hv, rfl⟩ := hlow p hp
    subst hp
    rw [digits, List.cons.injEq] at hdigits
    rw [← getLsbD_digitOf _ p ha, hdigits.1, hv]
  · obtain ⟨v, hv, rfl⟩ := hlow p hp
    subst hp
    rw [digits, List.cons.injEq] at hdigits
    exact getLsbD_of_digits_zero hdigits.2 hk

/-- The digits are summed up from the highest one on. -/
theorem getLsbD_xorLoop (hn : 0 < n) (hx : Below (n * m) x) (k : ℕ) : (xorLoop (n * m) n x).getLsbD k =
    (x.getLsbD k ^^ (xorLoop (n * m) n x).getLsbD (n + k)) := by
  have hbit := congrArg (·.getLsbD k) (xor_xorLoop hn hx)
  simp only [BitVec.getLsbD_xor, BitVec.getLsbD_ushiftRight] at hbit
  rw [← hbit, Bool.xor_assoc, Bool.xor_self, Bool.xor_false]

namespace Outputs

variable (h : Outputs n m q a x y) (hn : 0 < n) (ha : a < n)

include h hn ha

/-- The sums differ in the bit `a` of every digit from `q` on. -/
theorem sum_change (j : ℕ) {i : ℕ} (hi : i < n) : (xorLoop (n * m) n y).getLsbD (j * n + i) =
    ((xorLoop (n * m) n x).getLsbD (j * n + i) ^^ decide (i = a ∧ j ≤ q)) := by
  induction hd : 64 + q + 1 - j generalizing j with
  | zero =>
    have hge : 64 ≤ j * n + i := by
      have := Nat.le_mul_of_pos_right j hn
      omega
    rw [BitVec.getLsbD_of_ge _ _ hge, BitVec.getLsbD_of_ge _ _ hge, decide_eq_false (by omega)]
    rfl
  | succ c ih =>
    have hnext := ih (j + 1) (by omega)
    rw [Nat.succ_mul, show j * n + n + i = n + (j * n + i) by omega] at hnext
    rw [getLsbD_xorLoop hn h.below_right, getLsbD_xorLoop hn h.below_left, h.change, hnext,
      decide_eq_decide.mpr (digit_place_iff hi ha)]
    have hcase : (decide (j = q ∧ i = a) ^^ decide (i = a ∧ j + 1 ≤ q)) = decide (i = a ∧ j ≤ q) := by
      rcases lt_trichotomy j q with hlt | rfl | hgt
      · rw [decide_eq_false (by omega), Bool.false_xor]
        exact decide_eq_decide.mpr (by omega)
      · rw [decide_eq_false (show ¬(i = a ∧ j + 1 ≤ j) by omega), Bool.xor_false]
        exact decide_eq_decide.mpr (by omega)
      · rw [decide_eq_false (by omega), decide_eq_false (by omega), decide_eq_false (by omega)]
        rfl
    rw [← hcase]
    cases x.getLsbD (j * n + i) <;> cases (xorLoop (n * m) n x).getLsbD (n + (j * n + i)) <;>
      cases decide (j = q ∧ i = a) <;> cases decide (i = a ∧ j + 1 ≤ q) <;> rfl

/-- Below `q` the sums have the other value in the bit `a`. -/
theorem sum_below {j : ℕ} (hj : j < q) : (xorLoop (n * m) n x).getLsbD (j * n + a) =
    !(xorLoop (n * m) n x).getLsbD (q * n + a) := by
  obtain ⟨p, rfl⟩ : ∃ p, q = p + 1 := ⟨q - 1, by omega⟩
  induction hd : p - j generalizing j with
  | zero =>
    obtain rfl : j = p := by omega
    rw [getLsbD_xorLoop hn h.below_left, h.first j rfl, Nat.succ_mul, Bool.true_xor,
      show j * n + n + a = n + (j * n + a) by omega]
  | succ c ih =>
    have hroom := Nat.mul_le_mul_right n (show j + 1 ≤ p by omega)
    rw [Nat.succ_mul] at hroom
    have hnext := ih (show j + 1 < p + 1 by omega) (by omega)
    rw [Nat.succ_mul j, show j * n + n + a = n + (j * n + a) by omega] at hnext
    rw [getLsbD_xorLoop hn h.below_left, h.rest p rfl _ (by omega), Bool.false_xor, hnext]

end Outputs

/-! ## Neighbours -/

/-- Cells that differ by one in one coordinate. -/
def Adjacent (p q : List Bitmask) : Prop := ∃ front c c' rest, p = front ++ c :: rest ∧
  q = front ++ c' :: rest ∧ (c'.toNat = c.toNat + 1 ∨ c.toNat = c'.toNat + 1)

theorem getElem?_unpack {i : ℕ} (hi : i < n) :
    (unpack m n x)[i]? = some (x >>> (i * m) &&& ones m) := by
  induction n generalizing x i with
  | zero => omega
  | succ n ih =>
    cases i with
    | zero =>
      rw [unpack, List.getElem?_cons_zero, Nat.zero_mul, BitVec.ushiftRight_zero]
    | succ i =>
      rw [unpack, List.getElem?_cons_succ, ih (by omega), ← BitVec.shiftRight_add, Nat.succ_mul,
        Nat.add_comm]

/-- The bits of a coordinate. -/
theorem getLsbD_coord (hm : 0 < m) (hm64 : m ≤ 64) (x : Bitmask) (i b : ℕ) :
    (x >>> (i * m) &&& ones m).getLsbD b = (decide (b < m) && x.getLsbD (i * m + b)) := by
  rw [BitVec.getLsbD_and, BitVec.getLsbD_ushiftRight, Bool.and_comm]
  congr 1
  rw [Bool.eq_iff_iff, getLsbD_ones hm hm64, decide_eq_true_iff]

/-- Words whose coordinates are equal but for the last bits of one of them, which is carried over. -/
theorem unpack_adjacent (hm : 0 < m) (hm64 : m ≤ 64) (ha : a < n) (hq : q < m)
    (hother : ∀ i < n, i ≠ a → ∀ b < m, y.getLsbD (i * m + b) = x.getLsbD (i * m + b))
    (habove : ∀ b < m, q < b → y.getLsbD (a * m + b) = x.getLsbD (a * m + b))
    (hflip : ∀ b ≤ q, y.getLsbD (a * m + b) = !x.getLsbD (a * m + b))
    (hbelow : ∀ b < q, x.getLsbD (a * m + b) = !x.getLsbD (a * m + q)) :
    Adjacent (unpack m n x) (unpack m n y) := by
  let c (z : Bitmask) := z >>> (a * m) &&& ones m
  have hsplit : ∀ z, unpack m n z =
      (unpack m n z).take a ++ c z :: (unpack m n z).drop (a + 1) := by
    intro z
    have hget := getElem?_unpack (m := m) (x := z) ha
    rw [List.getElem?_eq_some_iff] at hget
    obtain ⟨hlt, hget⟩ := hget
    rw [show c z = (unpack m n z)[a] from hget.symm, List.getElem_cons_drop, List.take_append_drop]
  have hsame : ∀ i, i ≠ a → (unpack m n y)[i]? = (unpack m n x)[i]? := fun i hi => by
    by_cases hin : i < n
    · rw [getElem?_unpack hin, getElem?_unpack hin]
      refine congrArg some (BitVec.eq_of_getLsbD_eq fun b _ => ?_)
      rw [getLsbD_coord hm hm64, getLsbD_coord hm hm64]
      by_cases hb : b < m
      · rw [hother i hin hi b hb]
      · rw [decide_eq_false hb, Bool.false_and, Bool.false_and]
    · rw [List.getElem?_eq_none (by rw [length_unpack]; omega),
        List.getElem?_eq_none (by rw [length_unpack]; omega)]
  have hfront : (unpack m n y).take a = (unpack m n x).take a := by
    refine List.ext_getElem? fun i => ?_
    rw [List.getElem?_take, List.getElem?_take]
    split
    · exact hsame i (by omega)
    · rfl
  have hrest : (unpack m n y).drop (a + 1) = (unpack m n x).drop (a + 1) := by
    refine List.ext_getElem? fun i => ?_
    rw [List.getElem?_drop, List.getElem?_drop]
    exact hsame _ (by omega)
  -- one of the two coordinates follows the other one
  have hcarry : ∀ z z' : Bitmask, z.getLsbD (a * m + q) = false →
      (∀ b ≤ q, z'.getLsbD (a * m + b) = !z.getLsbD (a * m + b)) →
      (∀ b < m, q < b → z'.getLsbD (a * m + b) = z.getLsbD (a * m + b)) →
      (∀ b < q, z.getLsbD (a * m + b) = !z.getLsbD (a * m + q)) → (c z').toNat = (c z).toNat + 1 := by
    intro z z' hclear hz hup hlow
    refine Carry.toNat_eq (t := q) ⟨by omega, fun b hb => ?_, ?_, ?_, fun b hb => ?_,
      fun b hb => ?_⟩ <;> rw [getLsbD_coord hm hm64]
    · rw [getLsbD_coord hm hm64]
      by_cases hbm : b < m
      · rw [hup b hbm hb]
      · rw [decide_eq_false hbm, Bool.false_and, Bool.false_and]
    · rw [hclear, Bool.and_false]
    · rw [hz q le_rfl, hclear, decide_eq_true hq]
      rfl
    · rw [hlow b hb, hclear, decide_eq_true (hb.trans hq)]
      rfl
    · rw [hz b hb.le, hlow b hb, hclear, Bool.not_false, Bool.not_true, Bool.and_false]
  refine ⟨_, c x, c y, _, hsplit x, by rw [← hfront, ← hrest]; exact hsplit y, ?_⟩
  cases hbit : x.getLsbD (a * m + q) with
  | false => exact Or.inl (hcarry x y hbit hflip habove hbelow)
  | true =>
    refine Or.inr (hcarry y x ?_ (fun b hb => ?_) (fun b hb hqb => (habove b hb hqb).symm)
      fun b hb => ?_)
    · rw [hflip q le_rfl, hbit]
      rfl
    · rw [hflip b hb, Bool.not_not]
    · rw [hflip b hb.le, hflip q le_rfl, hbelow b hb]

/-- The bits of a coordinate in the word before it is transposed. -/
theorem getLsbD_coordsOf (hn : 2 ≤ n) (hm : 2 ≤ m) (h64 : n * m ≤ 64) (hx : Below (n * m) x) {i b : ℕ}
    (hi : i < n) (hb : b < m) : (bitTranspose m n x).getLsbD (i * m + b) = x.getLsbD (b * n + i) := by
  rw [Bool.eq_iff_iff, getLsbD_bitTranspose hm (by omega) (by rwa [Nat.mul_comm])
    (by rwa [Nat.mul_comm])]
  constructor
  · rintro ⟨i', hi', b', hb', heq, hbit⟩
    rw [Nat.mul_comm m] at heq
    obtain ⟨rfl, rfl⟩ := (digit_place_iff hb hb').mp heq
    exact hbit
  · intro hbit
    exact ⟨i, hi, b, hb, by rw [Nat.mul_comm m], hbit⟩

/-- An index and the next one belong to neighbours: the indices run along a curve. -/
theorem hilbertI2c_adjacent (hn : 0 < n) (hm : 0 < m) (h64 : n * m ≤ 64)
    (hindex : index.toNat + 1 < 2 ^ (n * m)) :
    Adjacent (hilbertI2c n m index) (hilbertI2c n m (index + 1)) := by
  have hm64 : m ≤ 64 := (Nat.le_mul_of_pos_left m hn).trans h64
  obtain ⟨t, ht⟩ := exists_carry (hindex.trans_le (Nat.pow_le_pow_right (by decide) h64))
  have hnext : Below (n * m) (index + 1) := below_iff.mpr (by rwa [ht.toNat_eq])
  have htlt : t < n * m := hnext.lt ht.set
  by_cases hn1 : n > 1
  · by_cases hm1 : m > 1
    · obtain ⟨q, e, he, rfl⟩ : ∃ q e, e < n ∧ t = q * n + e :=
        ⟨t / n, t % n, Nat.mod_lt t hn, (Nat.div_add_mod' t n).symm⟩
      have hq : q < m := by
        by_contra hge
        have := Nat.mul_le_mul_right n (not_lt.mp hge)
        rw [Nat.mul_comm m] at this
        omega
      obtain ⟨a, ha, hout⟩ := (Step.read hn hm h64 ht hq he).outputs hm h64 hq he
      rw [hilbertI2c_eq hn1 hm1, hilbertI2c_eq hn1 hm1, coordsOf, coordsOf,
        coordsLoop_zero hn1 h64 hm, coordsLoop_zero hn1 h64 hm]
      have hbx : Below (n * m) (xorLoop (n * m) n _) := below_xorLoop hout.below_left
      have hby : Below (n * m) (xorLoop (n * m) n _) := below_xorLoop hout.below_right
      refine unpack_adjacent (q := q) hm hm64 ha hq (fun i hi hne b hb => ?_) (fun b hb hqb => ?_)
        (fun b hb => ?_) fun b hb => ?_
      · rw [getLsbD_coordsOf hn1 hm1 h64 hby hi hb, getLsbD_coordsOf hn1 hm1 h64 hbx hi hb,
          hout.sum_change hn ha b hi, decide_eq_false (fun h => hne h.1), Bool.xor_false]
      · rw [getLsbD_coordsOf hn1 hm1 h64 hby ha hb, getLsbD_coordsOf hn1 hm1 h64 hbx ha hb,
          hout.sum_change hn ha b ha, decide_eq_false (by omega), Bool.xor_false]
      · rw [getLsbD_coordsOf hn1 hm1 h64 hby ha (by omega),
          getLsbD_coordsOf hn1 hm1 h64 hbx ha (by omega), hout.sum_change hn ha b ha,
          decide_eq_true ⟨rfl, hb⟩, Bool.xor_true]
      · rw [getLsbD_coordsOf hn1 hm1 h64 hbx ha (by omega), getLsbD_coordsOf hn1 hm1 h64 hbx ha hq]
        exact hout.sum_below hn ha hb
    · obtain rfl : m = 1 := by omega
      unfold hilbertI2c
      simp only [if_pos hn1, if_neg hm1]
      refine unpack_adjacent (a := t) (q := 0) hm hm64 (by omega) Nat.one_pos (fun i hi hne b hb => ?_)
        (fun b hb hqb => by omega) (fun b hb => ?_) fun b hb => by omega
      · rw [(ht.gray _).1, decide_eq_false (by omega), Bool.xor_false]
      · rw [(ht.gray _).1, decide_eq_true (by omega), Bool.xor_true]
  · unfold hilbertI2c
    rw [if_neg hn1, if_neg hn1]
    exact ⟨[], index, index + 1, [], rfl, rfl, Or.inl ht.toNat_eq⟩

theorem hilbertI2c_adjacent_space : Adjacent (hilbertI2c 3 4 1000) (hilbertI2c 3 4 (1000 + 1)) :=
  hilbertI2c_adjacent (by decide) (by decide) (by decide) (by decide)

end Hilbert

end Silva
