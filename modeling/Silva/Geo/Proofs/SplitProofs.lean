import Silva.Geo.Proofs.RecordProofs

/-!
# Proofs: batches inside one region of the Morton order

A node at level `b` holds codes that agree on bit `b` and above. `split_by_bit` cuts a sorted batch
of such points at the place where bit `b - 1` turns from 0 to 1.
-/

namespace Silva

/-! ## Splitting by the code -/

/-- Points sorted by code, whose codes agree on bit `b` and above. -/
structure Region (b : Nat) (P : List Point) : Prop where
  sorted : SortedByCode P
  agree : ∀ p ∈ P, ∀ q ∈ P, ∀ j, b ≤ j → p.interleaveBits.testBit j = q.interleaveBits.testBit j

section Region

variable {b : Nat} {P A B : List Point}

/-- The points of a region with the same next bit. -/
theorem Region.half (h : Region (b + 1) P) (hs : A.Sublist P) {bit : Bool}
    (hbit : ∀ p ∈ A, p.interleaveBits.testBit b = bit) : Region b A where
  sorted := List.Pairwise.sublist hs h.sorted
  agree p hp q hq j hj := by
    rcases hj.eq_or_lt with rfl | hj
    · rw [hbit p hp, hbit q hq]
    · exact h.agree p (hs.subset hp) q (hs.subset hq) j hj

/-- Once the next bit is set, it stays set. -/
theorem Region.monotone (h : Region (b + 1) P) :
    P.Pairwise fun p q => bitLess (b + 1) q = true → bitLess (b + 1) p = true := by
  refine List.Pairwise.imp_of_mem (fun {p q} hp hq hle hless => ?_) h.sorted
  rw [bitLess_eq, Bool.not_eq_true'] at hless ⊢
  by_contra hset
  have hlt : q.interleaveBits < p.interleaveBits :=
    Nat.lt_of_testBit b hless (Bool.eq_true_of_not_eq_false hset)
      fun j hj => h.agree q hq p hp j hj
  exact absurd hle hlt.not_ge

/-- So the points whose next bit is clear come before those whose next bit is set. -/
theorem Region.exists_split (h : Region (b + 1) P) : ∃ A B, P = A ++ B ∧
    (∀ p ∈ A, bitLess (b + 1) p = true) ∧ (∀ p ∈ B, bitLess (b + 1) p = false) := by
  refine ⟨P.filter (bitLess (b + 1)), P.filter (fun p => !bitLess (b + 1) p),
    (Search.filter_append_filter h.monotone).symm, fun p hp => (List.mem_filter.mp hp).2,
    fun p hp => ?_⟩
  rw [← Bool.not_eq_true']
  exact (List.mem_filter.mp hp).2

theorem splitByBit_of_bitLess (hA : ∀ p ∈ A, bitLess (b + 1) p = true)
    (hB : ∀ p ∈ B, bitLess (b + 1) p = false) :
    splitByBit (A ++ B) 0 (A ++ B).length (b + 1) = A.length :=
  Search.partitionPoint_append (bitLess (b + 1)) 16 hA hB

/-- The reads of `split_by_bit` on a whole sequence all succeed. -/
theorem span_splitByBit (P : List Point) (b : Nat) :
    Span.splitByBit P 0 P.length b = some (splitByBit P 0 P.length b) := by
  refine Search.partitionPointM_eq (Nat.zero_le _) fun i _ hi => ?_
  rw [List.getElem?_eq_getElem hi, List.getD_eq_getElem _ _ hi]
  rfl

/-- `split_by_bit` finds the first point of a region whose next bit is set, and its reads stay
inside the sequence. Both parts are regions one level further down. -/
theorem split_by_bit_exact (hb : 0 < b) (h : Region b P) :
    ∃ k, Span.splitByBit P 0 P.length b = some k ∧
      k = P.countP (fun p => !p.interleaveBits.testBit (b - 1)) ∧
      (∀ p ∈ P.take k, p.interleaveBits.testBit (b - 1) = false) ∧
      (∀ p ∈ P.drop k, p.interleaveBits.testBit (b - 1) = true) ∧
      Region (b - 1) (P.take k) ∧ Region (b - 1) (P.drop k) := by
  obtain ⟨b, rfl⟩ := Nat.exists_eq_succ_of_ne_zero hb.ne'
  obtain ⟨A, B, rfl, hA, hB⟩ := h.exists_split
  have hclear : ∀ p ∈ A, p.interleaveBits.testBit b = false := by
    intro p hp
    have hless := hA p hp
    rwa [bitLess_eq, Bool.not_eq_true'] at hless
  have hset : ∀ p ∈ B, p.interleaveBits.testBit b = true := by
    intro p hp
    have hless := hB p hp
    rwa [bitLess_eq, Bool.not_eq_false'] at hless
  refine ⟨A.length, by rw [span_splitByBit, splitByBit_of_bitLess hA hB], ?_, ?_, ?_, ?_, ?_⟩
  · have hcountA : A.countP (fun p => !p.interleaveBits.testBit b) = A.length :=
      List.countP_eq_length.mpr fun p hp => by rw [hclear p hp]; rfl
    have hcountB : B.countP (fun p => !p.interleaveBits.testBit b) = 0 :=
      List.countP_eq_zero.mpr fun p hp => by rw [hset p hp]; simp
    rw [Nat.succ_sub_one, List.countP_append, hcountA, hcountB, Nat.add_zero]
  · rwa [List.take_left]
  · rwa [List.drop_left]
  · rw [List.take_left]
    exact h.half (List.sublist_append_left A B) hclear
  · rw [List.drop_left]
    exact h.half (List.sublist_append_right A B) hset

/-- More points than the linear scan looks at, which only the lowest bit tells apart. -/
theorem split_by_bit_exact_twenty :
    let P : List Point := List.replicate 19 ⟨1, 0, 0, 0⟩ ++ [⟨2, 0, 1, 1⟩]
    Region 1 P ∧ ∃ k, Span.splitByBit P 0 P.length 1 = some k ∧
      k = P.countP (fun p => !p.interleaveBits.testBit 0) := by
  intro P
  have hsmall : ∀ p ∈ P, p.interleaveBits < 2 ^ 1 := by decide +kernel
  have hregion : Region 1 P := by
    refine ⟨by unfold SortedByCode; decide +kernel, fun p hp q hq j hj => ?_⟩
    have hpow : 2 ^ 1 ≤ 2 ^ j := Nat.pow_le_pow_right Nat.two_pos hj
    rw [Nat.testBit_lt_two_pow ((hsmall p hp).trans_le hpow),
      Nat.testBit_lt_two_pow ((hsmall q hq).trans_le hpow)]
  obtain ⟨k, hk, hcount, -⟩ := split_by_bit_exact Nat.one_pos hregion
  exact ⟨hregion, k, hk, hcount⟩

end Region

/-! ## Batches -/

/-- A batch whose codes agree on bit `b` and above; `c` is their common prefix. -/
structure Cell (b c : Nat) (P : List Point) : Prop extends Batch P where
  region : ∀ p ∈ P, p.mortonId / 2 ^ b = c

theorem Cell.nil (b c : Nat) : Cell b c [] := ⟨Batch.nil, by simp⟩

/-- The whole code space is one region. -/
theorem Batch.cell {P : List Point} (h : Batch P) : Cell 64 0 P :=
  ⟨h, fun p hp => Nat.div_eq_of_lt (h.coded p hp).mortonId_lt⟩

theorem Cell.sublist {b c : Nat} {P Q : List Point} (h : Cell b c P) (hs : Q.Sublist P) :
    Cell b c Q :=
  ⟨⟨h.sorted.sublist hs, fun p hp => h.coded p (hs.subset hp)⟩,
    fun p hp => h.region p (hs.subset hp)⟩

theorem Cell.parlayMerge {b c : Nat} {P Q : List Point} (hP : Cell b c P) (hQ : Cell b c Q) :
    Cell b c (parlayMerge mortonCmp P Q) := by
  refine ⟨hP.toBatch.parlayMerge hQ.toBatch, fun p hp => ?_⟩
  rcases mem_parlayMerge.mp hp with h | h
  · exact hP.region p h
  · exact hQ.region p h

theorem Cell.below {b c c' : Nat} {P Q : List Point} (hP : Cell b c P) (hQ : Cell b c' Q)
    (h : c < c') : Below P Q := by
  intro p hp q hq
  apply key_lt_of_mortonId_lt
  by_contra hle
  have hdiv : q.mortonId / 2 ^ b ≤ p.mortonId / 2 ^ b := Nat.div_le_div_right (not_lt.mp hle)
  rw [hP.region p hp, hQ.region q hq] at hdiv
  omega

theorem div_two_pow_succ (n b : Nat) : n / 2 ^ (b + 1) = n / 2 ^ b / 2 := by
  rw [pow_succ, Nat.div_div_eq_div_mul]

theorem Cell.toRegion {b c : Nat} {P : List Point} (h : Cell b c P) : Region b P where
  sorted := h.sorted.imp_of_mem fun {p q} hp hq hle => by
    rw [← h.coded p hp, ← h.coded q hq]
    exact mortonId_le_of_key_le hle
  agree p hp q hq j hj := by
    obtain ⟨i, rfl⟩ := Nat.exists_eq_add_of_le hj
    rw [← h.coded p hp, ← h.coded q hq, Nat.add_comm, ← Nat.testBit_div_two_pow,
      ← Nat.testBit_div_two_pow, h.region p hp, h.region q hq]

/-- The points of a region whose next bit is clear, or set. -/
theorem Cell.region_child {b c : Nat} {P : List Point} (h : Cell (b + 1) c P) {p : Point}
    (hp : p ∈ P) : p.mortonId / 2 ^ b = if bitLess (b + 1) p then 2 * c else 2 * c + 1 := by
  have hr := h.region p hp
  rw [div_two_pow_succ] at hr
  rw [(h.coded p hp).bitLess, Nat.testBit_eq_decide_div_mod_eq]
  by_cases hbit : p.mortonId / 2 ^ b % 2 = 1
  · simp [hbit]; omega
  · simp [hbit]; omega

/-- The two halves of a region make up the region. -/
theorem Cell.append {b c : Nat} {A B : List Point} (hA : Cell b (2 * c) A)
    (hB : Cell b (2 * c + 1) B) : Cell (b + 1) c (A ++ B) := by
  have hbelow := hA.below hB (by omega)
  refine ⟨⟨?_, ?_⟩, ?_⟩
  · exact List.pairwise_append.mpr ⟨hA.sorted, hB.sorted, fun p hp q hq => (hbelow p hp q hq).le⟩
  · intro p hp
    rcases List.mem_append.mp hp with hp | hp
    · exact hA.coded p hp
    · exact hB.coded p hp
  · intro p hp
    rw [div_two_pow_succ]
    rcases List.mem_append.mp hp with hp | hp
    · rw [hA.region p hp]; omega
    · rw [hB.region p hp]; omega

/-- Every point of the left half of a region has the bit clear. -/
theorem Cell.bitLess_left {b c : Nat} {A : List Point} (hA : Cell b (2 * c) A) {p : Point}
    (hp : p ∈ A) : bitLess (b + 1) p = true := by
  have := hA.region p hp
  rw [(hA.coded p hp).bitLess, Nat.testBit_eq_decide_div_mod_eq, this]
  simp

/-- Every point of the right half of a region has the bit set. -/
theorem Cell.bitLess_right {b c : Nat} {B : List Point} (hB : Cell b (2 * c + 1) B) {p : Point}
    (hp : p ∈ B) : bitLess (b + 1) p = false := by
  have := hB.region p hp
  rw [(hB.coded p hp).bitLess, Nat.testBit_eq_decide_div_mod_eq, this]
  simp

/-- `split_by_bit` on a batch given by its two halves. -/
theorem splitByBit_append {b c : Nat} {A B : List Point} (hA : Cell b (2 * c) A)
    (hB : Cell b (2 * c + 1) B) : splitByBit (A ++ B) 0 (A ++ B).length (b + 1) = A.length :=
  splitByBit_of_bitLess (fun _ hp => hA.bitLess_left hp) (fun _ hp => hB.bitLess_right hp)

/-- `split_by_bit` cuts a batch of a region into batches of the two halves of the region. -/
theorem Cell.split {b c : Nat} {P : List Point} (h : Cell (b + 1) c P) :
    ∃ A B, P = A ++ B ∧ splitByBit P 0 P.length (b + 1) = A.length ∧
      Cell b (2 * c) A ∧ Cell b (2 * c + 1) B := by
  obtain ⟨A, B, rfl, hA, hB⟩ := h.toRegion.exists_split
  have hleft : A.Sublist (A ++ B) := List.sublist_append_left A B
  have hright : B.Sublist (A ++ B) := List.sublist_append_right A B
  refine ⟨A, B, rfl, splitByBit_of_bitLess hA hB, ⟨(h.sublist hleft).toBatch, fun p hp => ?_⟩,
    ⟨(h.sublist hright).toBatch, fun p hp => ?_⟩⟩
  · rw [h.region_child (hleft.subset hp), if_pos (hA p hp)]
  · rw [h.region_child (hright.subset hp), if_neg (by rw [hB p hp]; exact Bool.false_ne_true)]

end Silva
