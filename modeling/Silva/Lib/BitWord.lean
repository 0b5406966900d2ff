import Mathlib

/-!
# Words as sets of bits and as lists of digits

A word of `w` bits is determined by its bits. Masks that are differences of shifted words, words that
are combined with their own shifts, and words that are read and written digit by digit, the highest
digit first.
-/

namespace Silva

namespace BitWord

variable {w n m u v : ℕ} {x y E : BitVec w}

/-! ## Masks -/

/-- A word is the sum of the powers of two at its bits. -/
theorem toNat_eq_sum {A : Finset ℕ} (h : ∀ k, x.getLsbD k = true ↔ k ∈ A) :
    x.toNat = ∑ a ∈ A, 2 ^ a := by
  have hA : x.toNat.bitIndices.toFinset = A := by
    ext k
    rw [List.mem_toFinset, Nat.mem_bitIndices, BitVec.testBit_toNat, h]
  rw [← hA, Finset.sum_toFinset_bitIndices_two_pow]

theorem getLsbD_of_sum {A : Finset ℕ} (h : x.toNat = ∑ a ∈ A, 2 ^ a) (k : ℕ) :
    x.getLsbD k = true ↔ k ∈ A := by
  rw [← BitVec.testBit_toNat, h, ← Nat.mem_bitIndices, ← List.mem_toFinset,
    Finset.toFinset_bitIndices_sum_two_pow]

/-- Between any two starts there is room for a field of `u` bits. -/
def Spread (u : ℕ) (S : Finset ℕ) : Prop := ∀ s ∈ S, ∀ s' ∈ S, s < s' → s + u ≤ s'

theorem Spread.eq {S : Finset ℕ} (h : Spread u S) {s s' r r' : ℕ} (hs : s ∈ S) (hs' : s' ∈ S)
    (hr : r < u) (hr' : r' < u) (heq : s + r = s' + r') : s = s' ∧ r = r' := by
  rcases lt_trichotomy s s' with hlt | rfl | hgt
  · have := h s hs s' hs' hlt
    omega
  · exact ⟨rfl, by omega⟩
  · have := h s' hs' s hs hgt
    omega

/-- A borrow from the end of a field runs through all of it. -/
theorem getLsbD_shiftLeft_sub {S : Finset ℕ} (hS : Spread v S) (hroom : ∀ s ∈ S, s + v ≤ w)
    (hE : ∀ k, E.getLsbD k = true ↔ k ∈ S) (k : ℕ) :
    (E <<< v - E).getLsbD k = true ↔ ∃ s ∈ S, ∃ r < v, k = s + r := by
  let A := (S ×ˢ Finset.range v).image fun p => p.1 + p.2
  have hinj : Set.InjOn (fun p : ℕ × ℕ => p.1 + p.2) (S ×ˢ Finset.range v : Finset (ℕ × ℕ)) := by
    rintro ⟨s, r⟩ hp ⟨s', r'⟩ hp' heq
    obtain ⟨hs, hr⟩ := Finset.mem_product.mp hp
    obtain ⟨hs', hr'⟩ := Finset.mem_product.mp hp'
    exact Prod.ext_iff.mpr (hS.eq hs hs' (Finset.mem_range.mp hr) (Finset.mem_range.mp hr') heq)
  have hcarry : ∑ a ∈ A, 2 ^ a + E.toNat = E.toNat * 2 ^ v := by
    rw [Finset.sum_image hinj, toNat_eq_sum hE, Finset.sum_product, ← Finset.sum_add_distrib,
      Finset.sum_mul]
    refine Finset.sum_congr rfl fun s _ => ?_
    have hgeom : ∑ r ∈ Finset.range v, 2 ^ r + 1 = 2 ^ v := by
      simpa [one_add_one_eq_two] using geom_sum_mul_add (1 : ℕ) v
    rw [← hgeom, mul_add, mul_one, Finset.mul_sum]
    exact congrArg (· + 2 ^ s) (Finset.sum_congr rfl fun r _ => pow_add ..)
  have hsub : E <<< v - E = BitVec.ofNat w (∑ a ∈ A, 2 ^ a) := by
    rw [BitVec.sub_eq_iff_eq_add]
    refine BitVec.eq_of_toNat_eq ?_
    rw [BitVec.toNat_shiftLeft, BitVec.toNat_add, BitVec.toNat_ofNat, Nat.mod_add_mod, hcarry,
      Nat.shiftLeft_eq]
  have hmem : k ∈ A ↔ ∃ s ∈ S, ∃ r < v, k = s + r := by
    constructor
    · intro hk
      obtain ⟨⟨s, r⟩, hp, rfl⟩ := Finset.mem_image.mp hk
      obtain ⟨hs, hr⟩ := Finset.mem_product.mp hp
      exact ⟨s, hs, r, Finset.mem_range.mp hr, rfl⟩
    · rintro ⟨s, hs, r, hr, rfl⟩
      exact Finset.mem_image_of_mem (fun p : ℕ × ℕ => p.1 + p.2)
        (Finset.mk_mem_product hs (Finset.mem_range.mpr hr))
  rw [hsub, BitVec.getLsbD_ofNat, Bool.and_eq_true, decide_eq_true_iff, ← Nat.mem_bitIndices,
    ← List.mem_toFinset, Finset.toFinset_bitIndices_sum_two_pow, hmem, and_iff_right_iff_imp]
  rintro ⟨s, hs, r, hr, rfl⟩
  have := hroom s hs
  omega

/-! ## Words combined with their own shifts -/

theorem xor_ushiftRight_twice (x : BitVec w) (d : ℕ) :
    (x ^^^ x >>> d) ^^^ (x ^^^ x >>> d) >>> d = x ^^^ x >>> (d * 2) := by
  refine BitVec.eq_of_getLsbD_eq fun i hi => ?_
  simp only [BitVec.getLsbD_xor, BitVec.getLsbD_ushiftRight]
  rw [show d * 2 + i = d + (d + i) by omega]
  cases x.getLsbD i <;> cases x.getLsbD (d + i) <;> cases x.getLsbD (d + (d + i)) <;> rfl

theorem xor_ushiftRight_comm (x : BitVec w) (d e : ℕ) :
    (x ^^^ x >>> d) ^^^ (x ^^^ x >>> d) >>> e = (x ^^^ x >>> e) ^^^ (x ^^^ x >>> e) >>> d := by
  refine BitVec.eq_of_getLsbD_eq fun i hi => ?_
  simp only [BitVec.getLsbD_xor, BitVec.getLsbD_ushiftRight]
  rw [show d + (e + i) = e + (d + i) by omega]
  cases x.getLsbD i <;> cases x.getLsbD (d + i) <;> cases x.getLsbD (e + i) <;>
    cases x.getLsbD (e + (d + i)) <;> rfl

/-- The word has no bit from `k` on. -/
def Below (k : ℕ) (x : BitVec w) : Prop := ∀ i, k ≤ i → x.getLsbD i = false

theorem below_iff {k : ℕ} : Below k x ↔ x.toNat < 2 ^ k := by
  constructor
  · intro h
    exact Nat.lt_pow_two_of_testBit _ fun i hi => h i hi
  · intro h i hi
    exact Nat.testBit_lt_two_pow (h.trans_le (Nat.pow_le_pow_right (by decide) hi))

namespace Below

variable {k d : ℕ}

theorem lt (h : Below k x) {i : ℕ} (hi : x.getLsbD i = true) : i < k := by
  by_contra hge
  rw [h i (not_lt.mp hge)] at hi
  exact Bool.false_ne_true hi

theorem mono {k' : ℕ} (h : Below k x) (hle : k ≤ k') : Below k' x := fun i hi => h i (hle.trans hi)

theorem xor (hx : Below k x) (hy : Below k y) : Below k (x ^^^ y) := fun i hi => by
  rw [BitVec.getLsbD_xor, hx i hi, hy i hi]
  rfl

theorem ushiftRight (h : Below k x) (d : ℕ) : Below k (x >>> d) := fun i hi => by
  rw [BitVec.getLsbD_ushiftRight]
  exact h _ (by omega)

theorem ushiftRight_eq_zero (h : Below k x) (hd : k ≤ d) : x >>> d = 0 := by
  refine BitVec.eq_of_getLsbD_eq fun i hi => ?_
  rw [BitVec.getLsbD_ushiftRight, h (d + i) (by omega)]
  simp

end Below

/-! ## Successors -/

theorem getLsbD_add_one (x : BitVec w) {k : ℕ} (hk : k < w) : (x + 1).getLsbD k =
    (x.getLsbD k ^^ decide (∀ j < k, x.getLsbD j = true)) := by
  have hneg : x + 1 = -(~~~x) := by
    rw [BitVec.neg_eq_not_add, BitVec.not_not]
    rfl
  have hbelow : (∃ j < k, (~~~x).getLsbD j = true) ↔ ¬∀ j < k, x.getLsbD j = true := by
    push Not
    refine exists_congr fun j => and_congr_right fun hj => ?_
    rw [BitVec.getLsbD_not, decide_eq_true (hj.trans hk), Bool.true_and, Bool.not_eq_true', ne_eq,
      Bool.not_eq_true]
  rw [hneg, BitVec.getLsbD_neg, BitVec.getLsbD_not, decide_eq_true hk, Bool.true_and, Bool.true_and,
    decide_eq_decide.mpr hbelow, decide_not]
  cases x.getLsbD k <;> simp

/-- `y` follows `x`, and `t` is the highest bit that changes. -/
structure Carry (x y : BitVec w) (t : ℕ) : Prop where
  lt : t < w
  above : ∀ j, t < j → y.getLsbD j = x.getLsbD j
  clear : x.getLsbD t = false
  set : y.getLsbD t = true
  ones : ∀ j < t, x.getLsbD j = true
  zeros : ∀ j < t, y.getLsbD j = false

theorem exists_carry (h : x.toNat + 1 < 2 ^ w) : ∃ t, Carry x (x + 1) t := by
  have hclear : ∃ t, t < w ∧ x.getLsbD t = false := by
    by_contra hno
    push Not at hno
    have hall : x.toNat = 2 ^ w - 1 := by
      refine Nat.eq_of_testBit_eq fun j => ?_
      rw [Nat.testBit_two_pow_sub_one, BitVec.testBit_toNat]
      by_cases hj : j < w
      · rw [decide_eq_true hj]
        exact Bool.not_eq_false _ ▸ hno j hj
      · rw [decide_eq_false hj, BitVec.getLsbD_of_ge x j (not_lt.mp hj)]
    omega
  obtain ⟨hlt, hbit⟩ := Nat.find_spec hclear
  have hones : ∀ j < Nat.find hclear, x.getLsbD j = true := by
    intro j hj
    have := Nat.find_min hclear hj
    rw [not_and, Bool.not_eq_false] at this
    exact this (hj.trans hlt)
  refine ⟨Nat.find hclear, hlt, fun j hj => ?_, hbit, ?_, hones, fun j hj => ?_⟩
  · by_cases hjw : j < w
    · rw [getLsbD_add_one x hjw, decide_eq_false, Bool.xor_false]
      intro hall
      rw [hall _ hj] at hbit
      exact Bool.true_eq_false_eq_False hbit
    · rw [BitVec.getLsbD_of_ge _ j (not_lt.mp hjw), BitVec.getLsbD_of_ge _ j (not_lt.mp hjw)]
  · rw [getLsbD_add_one x hlt, hbit, decide_eq_true hones]
    rfl
  · rw [getLsbD_add_one x (hj.trans hlt), hones j hj, decide_eq_true fun i hi => hones i (hi.trans hj)]
    rfl

namespace Carry

variable {t : ℕ}

theorem toNat_eq (h : Carry x y t) : y.toNat = x.toNat + 1 := by
  have hlt : x.toNat + 1 < 2 ^ w := by
    by_contra hge
    have hall : x.toNat = 2 ^ w - 1 := by
      have := x.isLt
      omega
    have hbit := h.clear
    rw [← BitVec.testBit_toNat, hall, Nat.testBit_two_pow_sub_one, decide_eq_true h.lt] at hbit
    exact Bool.true_eq_false_eq_False hbit
  obtain ⟨t', h'⟩ := exists_carry hlt
  obtain rfl : t = t' := by
    rcases lt_trichotomy t t' with hlt | rfl | hlt
    · exact absurd (h'.ones t hlt) (by rw [h.clear]; exact Bool.false_ne_true)
    · rfl
    · exact absurd (h.ones t' hlt) (by rw [h'.clear]; exact Bool.false_ne_true)
  have hy : y = x + 1 := by
    refine BitVec.eq_of_getLsbD_eq fun j _ => ?_
    rcases lt_trichotomy j t with hj | rfl | hj
    · rw [h.zeros j hj, h'.zeros j hj]
    · rw [h.set, h'.set]
    · rw [h.above j hj, h'.above j hj]
  rw [hy, BitVec.toNat_add]
  show (x.toNat + (1#w).toNat) % 2 ^ w = _
  rw [BitVec.toNat_ofNat, Nat.add_mod_mod]
  exact Nat.mod_eq_of_lt hlt

/-- Successive words in Gray code differ in one bit, and the bits below it are the same for all. -/
theorem gray (h : Carry x y t) (k : ℕ) :
    (y ^^^ y >>> 1).getLsbD k = ((x ^^^ x >>> 1).getLsbD k ^^ decide (k = t)) ∧
      (k < t → (x ^^^ x >>> 1).getLsbD k = decide (k + 1 = t)) := by
  rw [BitVec.getLsbD_xor, BitVec.getLsbD_xor, BitVec.getLsbD_ushiftRight, BitVec.getLsbD_ushiftRight,
    Nat.add_comm 1 k]
  rcases lt_trichotomy k t with hk | rfl | hk
  · rw [h.zeros k hk, h.ones k hk, decide_eq_false hk.ne]
    rcases Nat.lt_or_eq_of_le (Nat.succ_le_of_lt hk) with hk1 | hk1
    · rw [h.zeros _ hk1, h.ones _ hk1, decide_eq_false hk1.ne]
      exact ⟨rfl, fun _ => rfl⟩
    · subst hk1
      rw [h.set, h.clear, decide_eq_true rfl]
      exact ⟨rfl, fun _ => rfl⟩
  · rw [h.set, h.clear, h.above (k + 1) (Nat.lt_succ_self k), decide_eq_true rfl]
    refine ⟨?_, fun hlt => absurd hlt (lt_irrefl k)⟩
    cases x.getLsbD (k + 1) <;> rfl
  · rw [h.above k hk, h.above (k + 1) (hk.trans (Nat.lt_succ_self k)), decide_eq_false hk.ne',
      Bool.xor_false]
    exact ⟨rfl, fun hlt => absurd hlt hk.not_gt⟩

end Carry

/-! ## Digits -/

/-- The last `m` digits of `n` bits, the highest one first. -/
def digits (n : ℕ) : ℕ → BitVec w → List (BitVec n)
  | 0, _ => []
  | m + 1, x => x.extractLsb' (m * n) n :: digits n m x

/-- Digits appended to a word. -/
def appendDigits (x : BitVec w) (ds : List (BitVec n)) : BitVec w :=
  ds.foldl (fun x d => x <<< n ||| d.setWidth w) x

@[simp] theorem length_digits (m : ℕ) (x : BitVec w) : (digits n m x).length = m := by
  induction m with
  | zero => rfl
  | succ m ih => rw [digits, List.length_cons, ih]

theorem digits_add (k : ℕ) (x : BitVec w) :
    digits n (k + m) x = digits n k (x >>> (m * n)) ++ digits n m x := by
  induction k with
  | zero => rw [Nat.zero_add, digits, List.nil_append]
  | succ k ih =>
    rw [Nat.succ_add, digits, ih, digits, List.cons_append]
    refine congrArg₂ _ (BitVec.eq_of_getLsbD_eq fun i _ => ?_) rfl
    rw [BitVec.getLsbD_extractLsb', BitVec.getLsbD_extractLsb', BitVec.getLsbD_ushiftRight, Nat.add_mul]
    congr 2
    omega

theorem digits_of_append {as bs : List (BitVec n)} (h : digits n m x = as ++ bs) :
    digits n bs.length x = bs := by
  have hlen := congrArg List.length h
  rw [length_digits, List.length_append] at hlen
  rw [hlen, digits_add] at h
  exact List.append_inj_right' h (length_digits ..)

/-- A digit at a place. -/
theorem getElem?_digits {j : ℕ} (hj : j < m) (x : BitVec w) :
    (digits n m x)[j]? = some (x.extractLsb' ((m - 1 - j) * n) n) := by
  induction m generalizing j with
  | zero => omega
  | succ m ih =>
    cases j with
    | zero => rfl
    | succ j =>
      rw [digits, List.getElem?_cons_succ, ih (by omega)]
      congr 3
      omega

/-- The bits above the appended digits are those of the word. -/
theorem getLsbD_appendDigits (ds : List (BitVec n)) (x : BitVec w) (i : ℕ)
    (hi : ds.length * n + i < w) : (appendDigits x ds).getLsbD (ds.length * n + i) = x.getLsbD i := by
  induction ds generalizing x i with
  | nil => simp [appendDigits]
  | cons d ds ih =>
    have hlen : (d :: ds).length * n + i = ds.length * n + (n + i) := by
      rw [List.length_cons]
      ring
    rw [hlen] at hi ⊢
    rw [appendDigits, List.foldl_cons]
    refine (ih _ (n + i) hi).trans ?_
    rw [BitVec.getLsbD_or, BitVec.getLsbD_shiftLeft, BitVec.getLsbD_setWidth,
      BitVec.getLsbD_of_ge d (n + i) (by omega)]
    simp
    omega

/-- Digits are appended to both parts of a word alike. -/
theorem appendDigits_xor (ds : List (BitVec n)) (x z : BitVec w) :
    appendDigits (x ^^^ z) ds = appendDigits x ds ^^^ z <<< (ds.length * n) := by
  induction ds generalizing x z with
  | nil =>
    rw [List.length_nil, Nat.zero_mul, BitVec.shiftLeft_zero]
    rfl
  | cons d ds ih =>
    have hstep : (x ^^^ z) <<< n ||| d.setWidth w = (x <<< n ||| d.setWidth w) ^^^ z <<< n := by
      refine BitVec.eq_of_getLsbD_eq fun k hk => ?_
      simp only [BitVec.getLsbD_or, BitVec.getLsbD_xor, BitVec.getLsbD_shiftLeft,
        BitVec.getLsbD_setWidth]
      by_cases hkn : k < n
      · simp [hkn]
      · rw [BitVec.getLsbD_of_ge d k (by omega)]
        simp [hkn, hk]
    rw [appendDigits, List.foldl_cons, hstep]
    refine (ih _ _).trans ?_
    rw [List.length_cons, Nat.succ_mul, Nat.add_comm, BitVec.shiftLeft_add]
    rfl

/-- Digits that are appended are read back. -/
theorem digits_appendDigits (ds : List (BitVec n)) (x : BitVec w) (hlen : ds.length * n ≤ w) :
    digits n ds.length (appendDigits x ds) = ds := by
  induction ds generalizing x with
  | nil => rfl
  | cons d ds ih =>
    have hroom : ds.length * n + n ≤ w := by
      rw [List.length_cons] at hlen
      linarith [Nat.succ_mul ds.length n]
    rw [List.length_cons, digits]
    refine congrArg₂ _ ?_ (ih _ (by omega))
    refine BitVec.eq_of_getLsbD_eq fun i hi => ?_
    rw [BitVec.getLsbD_extractLsb', decide_eq_true hi, Bool.true_and]
    refine (getLsbD_appendDigits ds _ i (by omega)).trans ?_
    rw [BitVec.getLsbD_or, BitVec.getLsbD_shiftLeft, BitVec.getLsbD_setWidth]
    simp [hi, show i < w by omega]

/-- Words with the same digits are equal. -/
theorem eq_of_digits_eq (hn : 0 < n) (h : digits n m x = digits n m y) (hx : Below (m * n) x)
    (hy : Below (m * n) y) : x = y := by
  refine BitVec.eq_of_getLsbD_eq fun k _ => ?_
  by_cases hk : k < m * n
  · obtain ⟨j, i, hi, rfl⟩ : ∃ j i, i < n ∧ k = j * n + i :=
      ⟨k / n, k % n, Nat.mod_lt k hn, (Nat.div_add_mod' k n).symm⟩
    have hj : j < m := by
      by_contra hge
      have := Nat.mul_le_mul_right n (not_lt.mp hge)
      omega
    have hd := congrArg (·[m - 1 - j]?) h
    simp only [getElem?_digits (show m - 1 - j < m by omega)] at hd
    have hbit := congrArg (·.getLsbD i) (Option.some.inj hd)
    simp only [BitVec.getLsbD_extractLsb', decide_eq_true hi, Bool.true_and] at hbit
    rwa [show m - 1 - (m - 1 - j) = j by omega] at hbit
  · rw [hx k (not_lt.mp hk), hy k (not_lt.mp hk)]

/-- Nothing lies above digits that are appended to zero. -/
theorem below_appendDigits (ds : List (BitVec n)) :
    Below (ds.length * n) (appendDigits (0 : BitVec w) ds) := by
  intro i hi
  by_cases hw : i < w
  · have h := getLsbD_appendDigits ds (0 : BitVec w) (i - ds.length * n) (by omega)
    rw [show ds.length * n + (i - ds.length * n) = i by omega] at h
    rw [h]
    simp
  · exact BitVec.getLsbD_of_ge _ _ (not_lt.mp hw)

/-- A word is made of its digits. -/
theorem appendDigits_digits (hn : 0 < n) (hmn : m * n ≤ w) (hx : Below (m * n) x) :
    appendDigits 0 (digits n m x) = x := by
  have hlen : (digits n m x).length * n ≤ w := by rwa [length_digits]
  have hdig := digits_appendDigits (digits n m x) (0 : BitVec w) hlen
  have hbelow := below_appendDigits (w := w) (digits n m x)
  rw [length_digits] at hdig hbelow
  exact eq_of_digits_eq hn hdig hbelow hx

/-! ## Machines that read and write digits -/

variable {σ α β : Type*}

/-- The outputs of a machine. -/
def run (step : σ → α → β × σ) : σ → List α → List β
  | _, [] => []
  | s, a :: as => (step s a).1 :: run step (step s a).2 as

/-- The state that a machine reaches. -/
def reach (step : σ → α → β × σ) (s : σ) (as : List α) : σ := as.foldl (fun s a => (step s a).2) s

@[simp] theorem length_run (step : σ → α → β × σ) (s : σ) (as : List α) :
    (run step s as).length = as.length := by
  induction as generalizing s with
  | nil => rfl
  | cons a as ih => rw [run, List.length_cons, List.length_cons, ih]

theorem run_append (step : σ → α → β × σ) (s : σ) (as bs : List α) :
    run step s (as ++ bs) = run step s as ++ run step (reach step s as) bs := by
  induction as generalizing s with
  | nil => rfl
  | cons a as ih => rw [List.cons_append, run, run, List.cons_append, ih]; rfl

theorem reach_inv {step : σ → α → β × σ} {I : σ → Prop} (hinv : ∀ s a, I s → I (step s a).2) {s : σ}
    (hs : I s) (as : List α) : I (reach step s as) := by
  induction as generalizing s with
  | nil => exact hs
  | cons a as ih => exact ih (hinv s a hs)

/-- A machine that undoes every step undoes the run. -/
theorem run_run {step : σ → α → β × σ} {back : σ → β → α × σ} {I : σ → Prop}
    (hinv : ∀ s a, I s → I (step s a).2)
    (hback : ∀ s a, I s → back s (step s a).1 = (a, (step s a).2)) {s : σ} (hs : I s)
    (as : List α) : run back s (run step s as) = as := by
  induction as generalizing s with
  | nil => rfl
  | cons a as ih => rw [run, run, hback s a hs, ih (hinv s a hs)]

end BitWord

end Silva
