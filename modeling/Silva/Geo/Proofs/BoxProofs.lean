import Silva.Geo.Proofs.SplitProofs

/-!
# Proofs: boxes and regions

The box and the prefixes that a query passes down always describe the records of the subtree: each
record lies in the box, and the prefixes are the lower corner of the region of its Morton code.
-/

namespace Silva

/-! ## Relations between boxes -/

theorem pointInMbr_iff {p : Point} {mbr : BoundingBox} : pointInMbr p mbr = true ↔
    mbr.first.x ≤ p.x ∧ p.x ≤ mbr.second.x ∧ mbr.first.y ≤ p.y ∧ p.y ≤ mbr.second.y := by
  simp [pointInMbr]

/-- A box that misses the query has no point of the query. -/
theorem not_pointInMbr_of_relation_neg {p : Point} {curMbr queryMbr : BoundingBox}
    (h : mbrMbrRelation curMbr queryMbr < 0) (hp : pointInMbr p curMbr = true) :
    pointInMbr p queryMbr = false := by
  rw [← Bool.not_eq_true]
  intro hq
  obtain ⟨h1, h2, h3, h4⟩ := pointInMbr_iff.mp hp
  obtain ⟨q1, q2, q3, q4⟩ := pointInMbr_iff.mp hq
  have hx : max curMbr.first.x queryMbr.first.x ≤ min curMbr.second.x queryMbr.second.x :=
    (max_le h1 q1).trans (le_min h2 q2)
  have hy : max curMbr.first.y queryMbr.first.y ≤ min curMbr.second.y queryMbr.second.y :=
    (max_le h3 q3).trans (le_min h4 q4)
  unfold mbrMbrRelation at h
  rw [if_pos ⟨hx, hy⟩] at h
  split at h <;> omega

/-- A box inside the query has only points of the query. -/
theorem pointInMbr_of_relation_pos {p : Point} {curMbr queryMbr : BoundingBox}
    (h : 0 < mbrMbrRelation curMbr queryMbr) (hp : pointInMbr p curMbr = true) :
    pointInMbr p queryMbr = true := by
  obtain ⟨h1, h2, h3, h4⟩ := pointInMbr_iff.mp hp
  unfold mbrMbrRelation at h
  by_cases hmeet : max curMbr.first.x queryMbr.first.x ≤ min curMbr.second.x queryMbr.second.x ∧
      max curMbr.first.y queryMbr.first.y ≤ min curMbr.second.y queryMbr.second.y
  · rw [if_pos hmeet] at h
    by_cases hin : max curMbr.first.x queryMbr.first.x = curMbr.first.x ∧
        min curMbr.second.x queryMbr.second.x = curMbr.second.x ∧
        max curMbr.first.y queryMbr.first.y = curMbr.first.y ∧
        min curMbr.second.y queryMbr.second.y = curMbr.second.y
    · obtain ⟨e1, e2, e3, e4⟩ := hin
      refine pointInMbr_iff.mpr ⟨?_, ?_, ?_, ?_⟩
      · exact (max_eq_left_iff.mp e1).trans h1
      · exact h2.trans (min_eq_left_iff.mp e2)
      · exact (max_eq_left_iff.mp e3).trans h3
      · exact h4.trans (min_eq_left_iff.mp e4)
    · rw [if_neg hin] at h
      omega
  · rw [if_neg hmeet] at h
    omega

theorem sq_le_of_between {lo hi u v : FT} (h1 : lo ≤ u) (h2 : u ≤ hi) :
    max (max (lo - v) 0) (max (v - hi) 0) * max (max (lo - v) 0) (max (v - hi) 0) ≤
      (u - v) * (u - v) := by
  have h0 : 0 ≤ max (max (lo - v) 0) (max (v - hi) 0) := (le_max_right _ _).trans (le_max_left _ _)
  have habs : max (max (lo - v) 0) (max (v - hi) 0) ≤ |u - v| := by
    refine max_le (max_le ?_ (abs_nonneg _)) (max_le ?_ (abs_nonneg _))
    · exact (by linarith : lo - v ≤ u - v).trans (le_abs_self _)
    · exact (by linarith : v - hi ≤ -(u - v)).trans (neg_le_abs _)
  calc _ ≤ |u - v| * |u - v| := mul_le_mul habs habs h0 (abs_nonneg _)
    _ = (u - v) * (u - v) := abs_mul_abs_self _

/-- No point of a box is nearer than the box. -/
theorem pointMbrSqrdis_le {p q : Point} {mbr : BoundingBox} (hp : pointInMbr p mbr = true) :
    pointMbrSqrdis q mbr ≤ pointPointSqrdis p q := by
  obtain ⟨h1, h2, h3, h4⟩ := pointInMbr_iff.mp hp
  exact add_le_add (sq_le_of_between h1 h2) (sq_le_of_between h3 h4)

/-! ## One coordinate of a split -/

/-- The coordinates in the region of level `w` that starts at `pre`. -/
def InStrip (w : Nat) (pre x : FT) : Prop :=
  ∃ i : ℕ, pre = i * 2 ^ w ∧ toUint x / 2 ^ w = i

theorem InStrip.bounds {w : Nat} {pre x : FT} (h : InStrip w pre x) (h0 : 0 ≤ x)
    (hlt : x < 2 ^ 32) : pre ≤ x ∧ x < pre + 2 ^ w := by
  obtain ⟨i, rfl, hi⟩ := h
  rw [toUint_eq_floor hlt] at hi
  have h1 : i * 2 ^ w ≤ ⌊x⌋₊ := by rw [← hi]; exact Nat.div_mul_le_self _ _
  have h2 : ⌊x⌋₊ < (i + 1) * 2 ^ w := by
    rw [← hi, ← Nat.div_lt_iff_lt_mul (by positivity)]; omega
  constructor
  · have := (Nat.le_floor_iff h0).mp h1
    exact_mod_cast this
  · have := (Nat.floor_lt h0).mp h2
    calc x < (((i + 1) * 2 ^ w : ℕ) : FT) := this
      _ = i * 2 ^ w + 2 ^ w := by push_cast; ring

/-- Between a grid coordinate and a larger integer there is room for `FT_EPS`. -/
theorem le_sub_ftEps {x : FT} {n : ℕ} (hgrid : ∃ m : ℕ, x = m * ftEps) (h : x < n) :
    x ≤ n - ftEps := by
  obtain ⟨m, rfl⟩ := hgrid
  unfold ftEps at h ⊢
  have hlt : m < n * 2 ^ 52 := by
    have : (m : FT) < n * 2 ^ 52 := by linarith
    exact_mod_cast this
  have hle : (m : FT) + 1 ≤ n * 2 ^ 52 := by exact_mod_cast hlt
  linarith

/-- A grid coordinate in the left half of a strip stays `FT_EPS` below the split value. -/
theorem InStrip.left {w : Nat} {pre x : FT} (h : InStrip (w + 1) pre x)
    (hbit : (toUint x).testBit w = false) (h0 : 0 ≤ x) (hlt : x < 2 ^ 32)
    (hgrid : ∃ m : ℕ, x = m * ftEps) : InStrip w pre x ∧ x ≤ pre + 2 ^ w - ftEps := by
  obtain ⟨i, rfl, hi⟩ := h
  rw [div_two_pow_succ] at hi
  rw [Nat.testBit_eq_decide_div_mod_eq, decide_eq_false_iff_not] at hbit
  have hstrip : InStrip w (i * 2 ^ (w + 1)) x := by
    refine ⟨2 * i, ?_, by omega⟩
    push_cast
    ring
  refine ⟨hstrip, ?_⟩
  have hcast : (i : FT) * 2 ^ (w + 1) + 2 ^ w = ((i * 2 ^ (w + 1) + 2 ^ w : ℕ) : FT) := by
    push_cast
    ring
  rw [hcast]
  apply le_sub_ftEps hgrid
  rw [← hcast]
  exact (hstrip.bounds h0 hlt).2

/-- A coordinate in the right half of a strip is at least the split value. -/
theorem InStrip.right {w : Nat} {pre x : FT} (h : InStrip (w + 1) pre x)
    (hbit : (toUint x).testBit w = true) (h0 : 0 ≤ x) (hlt : x < 2 ^ 32) :
    InStrip w (pre + 2 ^ w) x ∧ pre + 2 ^ w ≤ x := by
  obtain ⟨i, rfl, hi⟩ := h
  rw [div_two_pow_succ] at hi
  rw [Nat.testBit_eq_decide_div_mod_eq, decide_eq_true_iff] at hbit
  have hstrip : InStrip w (i * 2 ^ (w + 1) + 2 ^ w) x := by
    refine ⟨2 * i + 1, ?_, by omega⟩
    push_cast
    ring
  exact ⟨hstrip, (hstrip.bounds h0 hlt).1⟩

/-! ## The frame of a query -/

/-- `curMbr`, the prefixes and the splitter that a query has at level `b` describe the records `P`
of the subtree. -/
structure Located (b : Nat) (curMbr : BoundingBox) (xPrefix yPrefix : FT) (xSplitter : Bool)
    (P : List Point) : Prop where
  parity : xSplitter = (b % 2 == 0)
  xStrip : ∀ p ∈ P, InStrip (b / 2) xPrefix p.x
  yStrip : ∀ p ∈ P, InStrip ((b + 1) / 2) yPrefix p.y
  inMbr : ∀ p ∈ P, pointInMbr p curMbr = true
  onGrid : ∀ p ∈ P, p.OnGrid

/-- At the root the prefixes are zero and every point qualifies. -/
theorem Located.root {curMbr : BoundingBox} {P : List Point} (hmbr : ∀ p ∈ P, pointInMbr p curMbr = true)
    (hgrid : ∀ p ∈ P, p.OnGrid) : Located 64 curMbr 0 0 true P := by
  refine ⟨rfl, fun p _ => ⟨0, by simp, ?_⟩, fun p _ => ⟨0, by simp, ?_⟩, hmbr, hgrid⟩
  · exact Nat.div_eq_of_lt (toUint_lt _)
  · exact Nat.div_eq_of_lt (toUint_lt _)

theorem Located.sub {b : Nat} {curMbr : BoundingBox} {xPrefix yPrefix : FT} {xSplitter : Bool}
    {P Q : List Point} (h : Located b curMbr xPrefix yPrefix xSplitter P) (hs : Q ⊆ P) :
    Located b curMbr xPrefix yPrefix xSplitter Q :=
  ⟨h.parity, fun p hp => h.xStrip p (hs hp), fun p hp => h.yStrip p (hs hp),
    fun p hp => h.inMbr p (hs hp), fun p hp => h.onGrid p (hs hp)⟩

/-- `compute_cur_box` with the split value written as a power of two. -/
theorem computeCurBox_succ (curMbr : BoundingBox) (xPrefix yPrefix : FT) (b : Nat)
    (xSplitter : Bool) : computeCurBox curMbr xPrefix yPrefix (b + 1) xSplitter =
      if xSplitter then
        ({ curMbr with second :=
            { curMbr.second with x := min (xPrefix + 2 ^ (b / 2) - ftEps) curMbr.second.x } },
          { curMbr with first :=
            { curMbr.first with x := max (xPrefix + 2 ^ (b / 2)) curMbr.first.x } },
          xPrefix + 2 ^ (b / 2), yPrefix)
      else
        ({ curMbr with second :=
            { curMbr.second with y := min (yPrefix + 2 ^ (b / 2) - ftEps) curMbr.second.y } },
          { curMbr with first :=
            { curMbr.first with y := max (yPrefix + 2 ^ (b / 2)) curMbr.first.y } },
          xPrefix, yPrefix + 2 ^ (b / 2)) := by
  have hshift : (b + 1 + 1) / 2 - 1 = b / 2 := by omega
  have hsplit : ((1 <<< (b / 2) : ℕ) : FT) = 2 ^ (b / 2) := by
    rw [Nat.one_shiftLeft]
    push_cast
    rfl
  unfold computeCurBox
  simp only [hshift, hsplit]

/-- The frames of the two children describe the two halves of the records. -/
theorem Located.children {b : Nat} {curMbr LBox RBox : BoundingBox}
    {xPrefix yPrefix rxPrefix ryPrefix : FT} {xSplitter : Bool} {A B : List Point}
    (h : Located (b + 1) curMbr xPrefix yPrefix xSplitter (A ++ B))
    (hA : ∀ p ∈ A, bitLess (b + 1) p = true) (hB : ∀ p ∈ B, bitLess (b + 1) p = false)
    (hbox : computeCurBox curMbr xPrefix yPrefix (b + 1) xSplitter =
      (LBox, RBox, rxPrefix, ryPrefix)) :
    Located b LBox xPrefix yPrefix (!xSplitter) A ∧
      Located b RBox rxPrefix ryPrefix (!xSplitter) B := by
  have hl := h.sub (List.subset_append_left A B)
  have hr := h.sub (List.subset_append_right A B)
  have hpar : (!xSplitter) = (b % 2 == 0) := by
    rw [h.parity]
    rcases Nat.mod_two_eq_zero_or_one b with hb | hb
    · have : (b + 1) % 2 = 1 := by omega
      simp [hb, this]
    · have : (b + 1) % 2 = 0 := by omega
      simp [hb, this]
  rw [computeCurBox_succ] at hbox
  by_cases hb : (b + 1) % 2 = 0
  · -- an even level splits on x, and the y strip stays
    have hx : xSplitter = true := by rw [h.parity, hb]; rfl
    have hwx : (b + 1) / 2 = b / 2 + 1 := by omega
    have hwy : (b + 1 + 1) / 2 = (b + 1) / 2 := by omega
    have hbit : ∀ p, bitLess (b + 1) p = !(toUint p.x).testBit (b / 2) := by
      intro p
      unfold bitLess
      rw [if_neg (by omega), Nat.add_sub_cancel, land_mask_eq_zero]
    rw [if_pos hx] at hbox
    obtain ⟨rfl, rfl, rfl, rfl⟩ : _ ∧ _ ∧ _ ∧ _ := by simpa only [Prod.mk.injEq] using hbox
    have hxl : ∀ p ∈ A, InStrip (b / 2) xPrefix p.x ∧ p.x ≤ xPrefix + 2 ^ (b / 2) - ftEps := by
      intro p hp
      have hg := hl.onGrid p hp
      exact (hwx ▸ hl.xStrip p hp).left (by simpa [hbit] using hA p hp) hg.x_nonneg hg.x_lt hg.x_grid
    have hxr : ∀ p ∈ B, InStrip (b / 2) (xPrefix + 2 ^ (b / 2)) p.x ∧ xPrefix + 2 ^ (b / 2) ≤ p.x := by
      intro p hp
      have hg := hr.onGrid p hp
      exact (hwx ▸ hr.xStrip p hp).right (by simpa [hbit] using hB p hp) hg.x_nonneg hg.x_lt
    refine ⟨⟨hpar, fun p hp => (hxl p hp).1, fun p hp => hwy ▸ hl.yStrip p hp, fun p hp => ?_,
      hl.onGrid⟩, ⟨hpar, fun p hp => (hxr p hp).1, fun p hp => hwy ▸ hr.yStrip p hp, fun p hp => ?_,
      hr.onGrid⟩⟩
    · obtain ⟨h1, h2, h3, h4⟩ := pointInMbr_iff.mp (hl.inMbr p hp)
      exact pointInMbr_iff.mpr ⟨h1, le_min (hxl p hp).2 h2, h3, h4⟩
    · obtain ⟨h1, h2, h3, h4⟩ := pointInMbr_iff.mp (hr.inMbr p hp)
      exact pointInMbr_iff.mpr ⟨max_le (hxr p hp).2 h1, h2, h3, h4⟩
  · -- an odd level splits on y, and the x strip stays
    have hx : ¬xSplitter = true := by rw [h.parity]; simpa using hb
    have hwx : (b + 1) / 2 = b / 2 := by omega
    have hwy : (b + 1 + 1) / 2 = b / 2 + 1 := by omega
    have hbit : ∀ p, bitLess (b + 1) p = !(toUint p.y).testBit (b / 2) := by
      intro p
      unfold bitLess
      rw [if_pos (by omega), Nat.add_sub_cancel, land_mask_eq_zero]
    rw [if_neg hx] at hbox
    obtain ⟨rfl, rfl, rfl, rfl⟩ : _ ∧ _ ∧ _ ∧ _ := by simpa only [Prod.mk.injEq] using hbox
    have hyl : ∀ p ∈ A, InStrip (b / 2) yPrefix p.y ∧ p.y ≤ yPrefix + 2 ^ (b / 2) - ftEps := by
      intro p hp
      have hg := hl.onGrid p hp
      exact (hwy ▸ hl.yStrip p hp).left (by simpa [hbit] using hA p hp) hg.y_nonneg hg.y_lt hg.y_grid
    have hyr : ∀ p ∈ B, InStrip (b / 2) (yPrefix + 2 ^ (b / 2)) p.y ∧ yPrefix + 2 ^ (b / 2) ≤ p.y := by
      intro p hp
      have hg := hr.onGrid p hp
      exact (hwy ▸ hr.yStrip p hp).right (by simpa [hbit] using hB p hp) hg.y_nonneg hg.y_lt
    refine ⟨⟨hpar, fun p hp => hwx ▸ hl.xStrip p hp, fun p hp => hwx.symm ▸ (hyl p hp).1,
      fun p hp => ?_, hl.onGrid⟩, ⟨hpar, fun p hp => hwx ▸ hr.xStrip p hp,
      fun p hp => hwx.symm ▸ (hyr p hp).1, fun p hp => ?_, hr.onGrid⟩⟩
    · obtain ⟨h1, h2, h3, h4⟩ := pointInMbr_iff.mp (hl.inMbr p hp)
      exact pointInMbr_iff.mpr ⟨h1, h2, h3, le_min (hyl p hp).2 h4⟩
    · obtain ⟨h1, h2, h3, h4⟩ := pointInMbr_iff.mp (hr.inMbr p hp)
      exact pointInMbr_iff.mpr ⟨h1, h2, max_le (hyr p hp).2 h3, h4⟩

end Silva
