import Silva.Geo.Proofs.RecordProofs
import Silva.Lib.TopBit

/-!
# Proofs: the Morton order without the code

`morton_less` never builds a code. The highest bit in which two codes differ comes from the
coordinate with the higher different bit, and from `x` where both differ at the same one, which is
the coordinate that `less_msb` finds.
-/

namespace Silva

open TopBit (TopDiff)
open TwoPointer (stableMerge stableMerge_perm stableMerge_pairwise)

variable {p q : Point}

/-! ## Two codes -/

/-- Where the points differ at a higher bit in `y` than in `x`, that bit decides in the codes. -/
theorem topDiff_code_of_y {j : Nat} (hy : TopDiff (toUint p.y) (toUint q.y) j)
    (hx : ∀ i, j ≤ i → (toUint p.x).testBit i = (toUint q.x).testBit i) :
    TopDiff p.interleaveBits q.interleaveBits (2 * j) where
  differ := by
    rw [testBit_interleaveBits, testBit_interleaveBits, if_neg (by omega), if_neg (by omega),
      Nat.mul_div_cancel_left j Nat.two_pos]
    exact hy.differ
  agree k hk := by
    rw [testBit_interleaveBits, testBit_interleaveBits]
    by_cases hodd : k % 2 = 1
    · rw [if_pos hodd, if_pos hodd]
      exact hx _ (by omega)
    · rw [if_neg hodd, if_neg hodd]
      exact hy.agree _ (by omega)

/-- Where they do not, the highest bit in which `x` differs does. -/
theorem topDiff_code_of_x {i : Nat} (hx : TopDiff (toUint p.x) (toUint q.x) i)
    (hy : ∀ j, i < j → (toUint p.y).testBit j = (toUint q.y).testBit j) :
    TopDiff p.interleaveBits q.interleaveBits (2 * i + 1) where
  differ := by
    have h : (2 * i + 1) / 2 = i := by omega
    rw [testBit_interleaveBits, testBit_interleaveBits, if_pos (by omega), if_pos (by omega), h]
    exact hx.differ
  agree k hk := by
    rw [testBit_interleaveBits, testBit_interleaveBits]
    by_cases hodd : k % 2 = 1
    · rw [if_pos hodd, if_pos hodd]
      exact hx.agree _ (by omega)
    · rw [if_neg hodd, if_neg hodd]
      exact hy _ (by omega)

theorem lessMsb_iff (x y : Nat) : lessMsb x y = true ↔ x.size < y.size := by
  rw [← TopBit.lt_and_lt_xor_iff]
  simp [lessMsb]

/-- The highest bit in which the codes differ is in the coordinate that `less_msb` finds. -/
theorem interleaveBits_lt_iff (p q : Point) :
    p.interleaveBits < q.interleaveBits ↔
      if lessMsb (toUint p.x ^^^ toUint q.x) (toUint p.y ^^^ toUint q.y) then
        toUint p.y < toUint q.y else toUint p.x < toUint q.x := by
  by_cases hmsb : lessMsb (toUint p.x ^^^ toUint q.x) (toUint p.y ^^^ toUint q.y) = true
  · rw [if_pos hmsb]
    have hsize := (lessMsb_iff _ _).mp hmsb
    obtain ⟨j, hj⟩ := Nat.exists_eq_succ_of_ne_zero (Nat.ne_zero_of_lt hsize)
    have hy := TopBit.topDiff_of_size hj
    have hx : ∀ i, j ≤ i → (toUint p.x).testBit i = (toUint q.x).testBit i :=
      fun i hi => TopBit.testBit_eq_of_size_le (by omega) hi
    rw [(topDiff_code_of_y hy hx).lt_iff, hy.lt_iff, testBit_interleaveBits, if_neg (by omega),
      Nat.mul_div_cancel_left j Nat.two_pos]
  · rw [if_neg hmsb]
    rw [lessMsb_iff, not_lt] at hmsb
    rcases Nat.eq_zero_or_pos (toUint p.x ^^^ toUint q.x).size with h0 | hpos
    · -- no bit differs at all
      have hx : toUint p.x = toUint q.x := Nat.xor_eq_zero_iff.mp (Nat.size_eq_zero.mp h0)
      have hy : toUint p.y = toUint q.y :=
        Nat.xor_eq_zero_iff.mp (Nat.size_eq_zero.mp (Nat.le_zero.mp (h0 ▸ hmsb)))
      rw [interleaveBits_inj.mpr ⟨hx, hy⟩, hx]
      exact iff_of_false (lt_irrefl _) (lt_irrefl _)
    · obtain ⟨i, hi⟩ := Nat.exists_eq_succ_of_ne_zero hpos.ne'
      have hx := TopBit.topDiff_of_size hi
      have hy : ∀ j, i < j → (toUint p.y).testBit j = (toUint q.y).testBit j :=
        fun j hj => TopBit.testBit_eq_of_size_le (hmsb.trans hi.le) hj
      have hhalf : (2 * i + 1) / 2 = i := by omega
      rw [(topDiff_code_of_x hx hy).lt_iff, hx.lt_iff, testBit_interleaveBits, if_pos (by omega),
        hhalf]

/-- Without fractions the comparison of the points is that of their codes. -/
theorem Point.IsInteger.mortonLess_iff (hp : p.IsInteger) (hq : q.IsInteger) :
    mortonLess p q = true ↔ p.interleaveBits < q.interleaveBits := by
  have hx : p.x < q.x ↔ toUint p.x < toUint q.x := by
    rw [hp.eq_toUint.1, hq.eq_toUint.1, Nat.cast_lt, ← hp.eq_toUint.1, ← hq.eq_toUint.1]
  have hy : p.y < q.y ↔ toUint p.y < toUint q.y := by
    rw [hp.eq_toUint.2, hq.eq_toUint.2, Nat.cast_lt, ← hp.eq_toUint.2, ← hq.eq_toUint.2]
  rw [interleaveBits_lt_iff, ← hx, ← hy]
  unfold mortonLess
  cases lessMsb (toUint p.x ^^^ toUint q.x) (toUint p.y ^^^ toUint q.y) <;> simp

/-- The comparison by xor and the Morton code are one order of the points with integer coordinates,
and the code tells such points apart. -/
theorem morton_less_iff (hp : p.IsInteger) (hq : q.IsInteger) :
    (mortonLess p q = true ↔ p.interleaveBits < q.interleaveBits) ∧
      (p.interleaveBits = q.interleaveBits → p.x = q.x ∧ p.y = q.y) :=
  ⟨hp.mortonLess_iff hq, hp.ext_of_code hq⟩

/-- Both coordinates differ at the same bits, so `x` decides. -/
theorem morton_less_iff_two :
    mortonLess ⟨1, 1, 2, 0⟩ ⟨2, 2, 1, 0⟩ = true ∧
      Point.interleaveBits ⟨1, 1, 2, 0⟩ < Point.interleaveBits ⟨2, 2, 1, 0⟩ := by
  have hp : Point.IsInteger ⟨1, 1, 2, 0⟩ := ⟨1, 2, by norm_num, by norm_num, by simp, by simp⟩
  have hq : Point.IsInteger ⟨2, 2, 1, 0⟩ := ⟨2, 1, by norm_num, by norm_num, by simp, by simp⟩
  have hless : mortonLess ⟨1, 1, 2, 0⟩ ⟨2, 2, 1, 0⟩ = true := by decide +kernel
  exact ⟨hless, (morton_less_iff hp hq).1.mp hless⟩

/-! ## Sorting and merging without codes -/

theorem Point.IsInteger.mortonLess_eq_false_iff (hp : p.IsInteger) (hq : q.IsInteger) :
    mortonLess q p = false ↔ p.interleaveBits ≤ q.interleaveBits := by
  rw [← Bool.not_eq_true, hq.mortonLess_iff hp, not_lt]

theorem getSortedAddress_perm (P : List Point) : (getSortedAddress P).Perm P :=
  parlaySort_perm mortonLess P

theorem getSortedAddress_sorted {P : List Point} (hP : ∀ p ∈ P, p.IsInteger) :
    SortedByCode (getSortedAddress P) := by
  have : Std.Total fun p q : Point => p.interleaveBits ≤ q.interleaveBits :=
    ⟨fun _ _ => le_total _ _⟩
  have : IsTrans Point fun p q => p.interleaveBits ≤ q.interleaveBits :=
    ⟨fun _ _ _ h1 h2 => h1.trans h2⟩
  have hsort := List.map_insertionSort (fun p q => mortonLess q p = false)
    (fun p q => p.interleaveBits ≤ q.interleaveBits) id P
    fun p hp q hq => (hP p hp).mortonLess_eq_false_iff (hP q hq)
  rw [List.map_id, List.map_id] at hsort
  unfold getSortedAddress parlaySort
  rw [hsort]
  exact List.pairwise_insertionSort _ P

theorem mortonMerge_eq_stableMerge (P Q : List Point) :
    mortonMerge P Q = stableMerge (fun q p => !mortonLess p q) P Q := by
  unfold mortonMerge stableMerge
  congr 2
  funext p q
  show (if mortonLess p q then Ordering.lt else .gt) = if !mortonLess p q then .gt else .lt
  cases mortonLess p q <;> rfl

theorem mortonMerge_perm (P Q : List Point) : (mortonMerge P Q).Perm (P ++ Q) := by
  rw [mortonMerge_eq_stableMerge]
  exact stableMerge_perm _ P Q

theorem mortonMerge_sorted {P Q : List Point} (hP : ∀ p ∈ P, p.IsInteger)
    (hQ : ∀ q ∈ Q, q.IsInteger) (hsortedP : SortedByCode P) (hsortedQ : SortedByCode Q) :
    SortedByCode (mortonMerge P Q) := by
  have : IsTrans Point fun p q => p.interleaveBits ≤ q.interleaveBits :=
    ⟨fun _ _ _ h1 h2 => h1.trans h2⟩
  rw [mortonMerge_eq_stableMerge]
  refine stableMerge_pairwise (fun p hp q hq hless => ?_) (fun p hp q hq hless => ?_) hsortedP
    hsortedQ
  · rw [Bool.not_eq_true'] at hless
    exact ((hQ q hq).mortonLess_eq_false_iff (hP p hp)).mp hless
  · rw [Bool.not_eq_false'] at hless
    exact (((hP p hp).mortonLess_iff (hQ q hq)).mp hless).le

end Silva
