import Silva.Geo.Hilbert
import Silva.Lib.BitWord

/-!
# Proofs: `bitTranspose` transposes

A run of the outer loop cuts every group of fields in two: the lower and the upper halves of its fields.
The bits of the fields from `s` on, `u` of each coordinate, begin at bit `n * s`, so that every bit is at
its place when the fields have one bit.
-/

namespace Silva

namespace Hilbert

open BitWord

variable {n m u v c d : ℕ} {S : Finset ℕ} {x ends mask inCoords coords f : Bitmask}

/-! ## Places -/

theorem field_lt {d r : ℕ} (hd : d < n) (hr : r < u) : d * u + r < n * u := by
  have := Nat.mul_le_mul_right u hd
  rw [Nat.succ_mul] at this
  omega

/-- A place belongs to one bit only. -/
theorem place_unique (hS : Spread u S) {s s' d d' r r' : ℕ} (hs : s ∈ S) (hs' : s' ∈ S) (hd : d < n)
    (hd' : d' < n) (hr : r < u) (hr' : r' < u) (heq : n * s + d * u + r = n * s' + d' * u + r') :
    s = s' ∧ d = d' ∧ r = r' := by
  have h1 := field_lt hd hr
  have h2 := field_lt hd' hr'
  rcases lt_trichotomy s s' with hlt | rfl | hgt
  · have := Nat.mul_le_mul_left n (hS s hs s' hs' hlt)
    rw [Nat.mul_add] at this
    omega
  · have hdr : d * u + r = d' * u + r' := by omega
    have hmod := congrArg (· % u) hdr
    have hdiv := congrArg (· / u) hdr
    simp only [Nat.mul_add_mod_self_right, Nat.mod_eq_of_lt hr, Nat.mod_eq_of_lt hr'] at hmod
    simp only [Nat.mul_comm _ u, Nat.mul_add_div (Nat.zero_lt_of_lt hr), Nat.div_eq_of_lt hr,
      Nat.div_eq_of_lt hr', Nat.add_zero] at hdiv
    exact ⟨rfl, hdiv, hmod⟩
  · have := Nat.mul_le_mul_left n (hS s' hs' s hs hgt)
    rw [Nat.mul_add] at this
    omega

theorem start_unique (hS : Spread u S) (hn : 0 < n) {s s' r r' : ℕ} (hs : s ∈ S) (hs' : s' ∈ S)
    (hr : r < u) (hr' : r' < u) (heq : n * s + r = n * s' + r') : s = s' ∧ r = r' := by
  obtain ⟨hstart, -, hplace⟩ :=
    @place_unique n u S hS s s' 0 0 r r' hs hs' hn hn hr hr' (by omega)
  exact ⟨hstart, hplace⟩

/-- The starts after every group is cut in two. -/
def halves (S : Finset ℕ) (v : ℕ) : Finset ℕ := S ∪ S.image (· + v)

theorem mem_halves {s : ℕ} : s ∈ halves S v ↔ s ∈ S ∨ ∃ s' ∈ S, s = s' + v := by
  rw [halves, Finset.mem_union, Finset.mem_image]
  simp only [eq_comm]

theorem spread_halves (hS : Spread u S) (hv : 2 * v ≤ u) : Spread v (halves S v) := by
  intro a ha b hb hlt
  rcases mem_halves.mp ha with ha' | ⟨a', ha', rfl⟩ <;>
    rcases mem_halves.mp hb with hb' | ⟨b', hb', rfl⟩
  · have := hS a ha' b hb' hlt
    omega
  · rcases lt_trichotomy a b' with h | rfl | h
    · have := hS a ha' b' hb' h
      omega
    · omega
    · have := hS b' hb' a ha' h
      omega
  · have := hS a' ha' b hb' (by omega)
    omega
  · have := hS a' ha' b' hb' (by omega)
    omega

/-! ## Masks -/

theorem getLsbD_halves_ends (hn : 0 < n) (hm : n * m ≤ 64) (hroom : ∀ s ∈ S, s + u ≤ m) (hv0 : 0 < v)
    (hv : 2 * v ≤ u) (hends : ∀ k, ends.getLsbD k = true ↔ ∃ s ∈ S, k = n * s) (k : ℕ) :
    (ends ||| ends <<< ((n - 1) * v + v)).getLsbD k = true ↔ ∃ s ∈ halves S v, k = n * s := by
  have hshift : (n - 1) * v + v = n * v := by
    rw [← Nat.succ_mul, Nat.succ_eq_add_one, Nat.sub_add_cancel hn]
  rw [BitVec.getLsbD_or, BitVec.getLsbD_shiftLeft, Bool.or_eq_true, Bool.and_eq_true, Bool.and_eq_true,
    hends, hends, hshift]
  simp only [decide_eq_true_eq, Bool.not_eq_true', decide_eq_false_iff_not, not_lt]
  constructor
  · rintro (⟨s, hs, rfl⟩ | ⟨⟨-, hk⟩, s, hs, heq⟩)
    · exact ⟨s, mem_halves.mpr (Or.inl hs), rfl⟩
    · exact ⟨s + v, mem_halves.mpr (Or.inr ⟨s, hs, rfl⟩), by rw [Nat.mul_add]; omega⟩
  · rintro ⟨s, hs, rfl⟩
    rcases mem_halves.mp hs with hs' | ⟨s', hs', rfl⟩
    · exact Or.inl ⟨s, hs', rfl⟩
    · have hlt := Nat.mul_lt_mul_of_pos_left (show s' + v < m by have := hroom s' hs'; omega) hn
      rw [Nat.mul_add] at hlt ⊢
      exact Or.inr ⟨⟨by omega, by omega⟩, s', hs', by omega⟩

/-- The mask that is computed from the ends of the fields. -/
theorem getLsbD_mask (hn : 0 < n) (hm : n * m ≤ 64) (hS : Spread v S) (hroom : ∀ s ∈ S, s + v ≤ m)
    (hends : ∀ k, ends.getLsbD k = true ↔ ∃ s ∈ S, k = n * s) (k : ℕ) :
    (ends <<< v - ends).getLsbD k = true ↔ ∃ s ∈ S, ∃ r < v, k = n * s + r := by
  have hmul : ∀ a b, a + v ≤ b → n * a + v ≤ n * b := by
    intro a b hab
    have := Nat.mul_le_mul_left n hab
    have := Nat.le_mul_of_pos_left v hn
    rw [Nat.mul_add] at *
    omega
  have hspread : Spread v (S.image (n * ·)) := by
    intro a ha b hb hlt
    obtain ⟨a', ha', rfl⟩ := Finset.mem_image.mp ha
    obtain ⟨b', hb', rfl⟩ := Finset.mem_image.mp hb
    exact hmul a' b' (hS a' ha' b' hb' (Nat.lt_of_mul_lt_mul_left hlt))
  rw [getLsbD_shiftLeft_sub hspread]
  · simp only [Finset.mem_image, exists_exists_and_eq_and]
  · intro a ha
    obtain ⟨a', ha', rfl⟩ := Finset.mem_image.mp ha
    exact (hmul a' m (hroom a' ha')).trans hm
  · intro k
    rw [hends, Finset.mem_image]
    simp only [eq_comm]

/-! ## Fields -/

/-- A field of `2 * v` bits in every group is cut in two: the lower half stays, the upper half goes to the
group that follows. -/
theorem getLsbD_halves (hn : 2 ≤ n) (hm : n * m ≤ 64) (hS : Spread u S) (hroom : ∀ s ∈ S, s + u ≤ m)
    (hv : 2 * v ≤ u) {P : ℕ → Prop}
    (hf : ∀ k, f.getLsbD k = true ↔ ∃ s ∈ S, ∃ r < 2 * v, k = n * s + r ∧ P (s + r))
    (hmask : ∀ k, mask.getLsbD k = true ↔ ∃ s ∈ halves S v, ∃ r < v, k = n * s + r) (k : ℕ) :
    ((f ||| f <<< ((n - 1) * v)) &&& mask).getLsbD k = true ↔
      ∃ s ∈ halves S v, ∃ r < v, k = n * s + r ∧ P (s + r) := by
  have hshift : (n - 1) * v + v = n * v := by
    rw [← Nat.succ_mul, Nat.succ_eq_add_one, Nat.sub_add_cancel (by omega)]
  have hnv : 2 * v ≤ n * v := Nat.mul_le_mul_right v hn
  have hnu : 2 * (n * v) ≤ n * u := by
    rw [Nat.mul_left_comm]
    exact Nat.mul_le_mul_left n hv
  have hgap : ∀ a ∈ S, ∀ b ∈ S, a < b → n * a + n * u ≤ n * b := by
    intro a ha b hb hlt
    rw [← Nat.mul_add]
    exact Nat.mul_le_mul_left n (hS a ha b hb hlt)
  rw [BitVec.getLsbD_and, BitVec.getLsbD_or, BitVec.getLsbD_shiftLeft, Bool.and_eq_true,
    Bool.or_eq_true, Bool.and_eq_true, Bool.and_eq_true, hf, hf, hmask]
  simp only [decide_eq_true_eq, Bool.not_eq_true', decide_eq_false_iff_not, not_lt]
  constructor
  · rintro ⟨hbit, s, hs, r, hr, rfl⟩
    refine ⟨s, hs, r, hr, rfl, ?_⟩
    rcases mem_halves.mp hs with hs' | ⟨s', hs', rfl⟩
    · rcases hbit with ⟨a, ha, q, hq, heq, hP⟩ | ⟨⟨-, hle⟩, a, ha, q, hq, heq, hP⟩
      · rcases lt_trichotomy s a with hlt | rfl | hlt
        · have := hgap s hs' a ha hlt
          omega
        · rwa [show r = q by omega]
        · have := hgap a ha s hs' hlt
          omega
      · rcases lt_trichotomy s a with hlt | rfl | hlt
        · have := hgap s hs' a ha hlt
          omega
        · omega
        · have := hgap a ha s hs' hlt
          omega
    · rw [Nat.mul_add] at hbit
      rcases hbit with ⟨a, ha, q, hq, heq, hP⟩ | ⟨⟨-, hle⟩, a, ha, q, hq, heq, hP⟩
      · rcases lt_trichotomy s' a with hlt | rfl | hlt
        · have := hgap s' hs' a ha hlt
          omega
        · omega
        · have := hgap a ha s' hs' hlt
          omega
      · rcases lt_trichotomy s' a with hlt | rfl | hlt
        · have := hgap s' hs' a ha hlt
          omega
        · rwa [show s' + v + r = s' + q by omega]
        · have := hgap a ha s' hs' hlt
          omega
  · rintro ⟨s, hs, r, hr, rfl, hP⟩
    refine ⟨?_, s, hs, r, hr, rfl⟩
    rcases mem_halves.mp hs with hs' | ⟨s', hs', rfl⟩
    · exact Or.inl ⟨s, hs', r, by omega, rfl, hP⟩
    · have hend := Nat.mul_le_mul_left n (hroom s' hs')
      rw [Nat.mul_add] at hend ⊢
      exact Or.inr ⟨⟨by omega, by omega⟩, s', hs', v + r, by omega, by omega, by rwa [← Nat.add_assoc]⟩

/-- What the loops know about their words when the groups start in `S` and their fields have `u` bits:
`x` is the word that is transposed. -/
structure Stage (n m u : ℕ) (S : Finset ℕ) (x ends mask inCoords coords : Bitmask) : Prop where
  spread : Spread u S
  room : ∀ s ∈ S, s + u ≤ m
  ends : ∀ k, ends.getLsbD k = true ↔ ∃ s ∈ S, k = n * s
  mask : ∀ k, mask.getLsbD k = true ↔ ∃ s ∈ S, ∃ r < u, k = n * s + r
  inCoords : ∀ k, inCoords.getLsbD k = true ↔ ∃ s ∈ S, ∃ d < n, ∃ r < u,
    k = n * s + d * u + r ∧ x.getLsbD (d * m + (s + r)) = true
  coords : ∀ k, coords.getLsbD k = true ↔ ∃ b < m, ∃ d < n, (∀ s ∈ S, b < s ∨ s + u ≤ b) ∧
    k = n * b + d ∧ x.getLsbD (d * m + b) = true

namespace Stage

variable (h : Stage n m u S x ends mask inCoords coords)

include h

/-- The field of one coordinate in every group. -/
theorem field (hd : d < n) (k : ℕ) : (inCoords >>> (d * u) &&& mask).getLsbD k = true ↔
    ∃ s ∈ S, ∃ r < u, k = n * s + r ∧ x.getLsbD (d * m + (s + r)) = true := by
  rw [BitVec.getLsbD_and, BitVec.getLsbD_ushiftRight, Bool.and_eq_true, h.inCoords, h.mask]
  constructor
  · rintro ⟨⟨s, hs, d', hd', r, hr, heq, hx⟩, s', hs', r', hr', rfl⟩
    obtain ⟨rfl, rfl, rfl⟩ := place_unique h.spread hs' hs hd hd' hr' hr (by omega)
    exact ⟨s', hs', r', hr', rfl, hx⟩
  · rintro ⟨s, hs, r, hr, rfl, hx⟩
    exact ⟨⟨s, hs, d, hd, r, hr, by omega, hx⟩, s, hs, r, hr, rfl⟩

theorem place_lt (hm : n * m ≤ 64) {s d r : ℕ} (hs : s ∈ S) (hd : d < n) (hr : r < u) :
    n * s + d * u + r < 64 := by
  have h1 := field_lt hd hr
  have h2 := Nat.mul_le_mul_left n (h.room s hs)
  rw [Nat.mul_add] at h2
  omega

theorem room_halves : ∀ s ∈ halves S (u / 2), s + u / 2 ≤ m := by
  intro s hs
  rcases mem_halves.mp hs with hs' | ⟨s', hs', rfl⟩
  · have := h.room s hs'
    omega
  · have := h.room s' hs'
    omega

/-- The last bits of the fields, where the fields have an odd number of bits. -/
theorem fieldStarts (hn : 0 < n) (hm : n * m ≤ 64) (hu : 0 < u) (k : ℕ) :
    (ends <<< (u - 1)).getLsbD k = true ↔ ∃ s ∈ S, k = n * s + (u - 1) := by
  rw [BitVec.getLsbD_shiftLeft, Bool.and_eq_true, Bool.and_eq_true, h.ends]
  simp only [decide_eq_true_eq, Bool.not_eq_true', decide_eq_false_iff_not, not_lt]
  constructor
  · rintro ⟨⟨-, hle⟩, s, hs, heq⟩
    exact ⟨s, hs, by omega⟩
  · rintro ⟨s, hs, rfl⟩
    have := h.place_lt hm hs hn (show u - 1 < u by omega)
    exact ⟨⟨by omega, by omega⟩, s, hs, by omega⟩

/-- They go to their places. -/
theorem top (hn : 0 < n) (hm : n * m ≤ 64) (hu : u = 2 * v + 1) (hd : d < n) (k : ℕ) :
    ((inCoords >>> (d * u) &&& mask &&& ends <<< (u - 1)) <<< (2 * ((n - 1) * v) + d)).getLsbD k = true ↔
      ∃ s ∈ S, k = n * (s + 2 * v) + d ∧ x.getLsbD (d * m + (s + 2 * v)) = true := by
  have hplace : ∀ s, n * (s + 2 * v) + d = n * s + (u - 1) + (2 * ((n - 1) * v) + d) := by
    intro s
    have hshift : (n - 1) * v + v = n * v := by
      rw [← Nat.succ_mul, Nat.succ_eq_add_one, Nat.sub_add_cancel hn]
    rw [Nat.mul_add, Nat.mul_left_comm]
    omega
  rw [BitVec.getLsbD_shiftLeft, BitVec.getLsbD_and, Bool.and_eq_true, Bool.and_eq_true, Bool.and_eq_true,
    h.field hd, h.fieldStarts hn hm (by omega)]
  simp only [decide_eq_true_eq, Bool.not_eq_true', decide_eq_false_iff_not, not_lt]
  constructor
  · rintro ⟨⟨-, hle⟩, ⟨s, hs, r, hr, heq, hx⟩, s', hs', heq'⟩
    obtain ⟨rfl, rfl⟩ := start_unique h.spread hn hs hs' hr (show u - 1 < u by omega) (by omega)
    refine ⟨s, hs, by rw [hplace]; omega, ?_⟩
    rwa [show u - 1 = 2 * v by omega] at hx
  · rintro ⟨s, hs, rfl, hx⟩
    have hlt : n * (s + 2 * v) + d < 64 := by
      have := Nat.mul_le_mul_left n (show s + 2 * v + 1 ≤ m by have := h.room s hs; omega)
      rw [Nat.mul_add n (s + 2 * v) 1] at this
      omega
    rw [hplace] at hlt ⊢
    refine ⟨⟨hlt, by omega⟩, ⟨s, hs, u - 1, by omega, by omega, ?_⟩, s, hs, by omega⟩
    rwa [show u - 1 = 2 * v by omega]

/-- The fields without them. -/
theorem lower (hn : 0 < n) (hm : n * m ≤ 64) (hu : u = 2 * v + 1) (hd : d < n) (k : ℕ) :
    (inCoords >>> (d * u) &&& mask &&& ~~~(ends <<< (u - 1))).getLsbD k = true ↔
      ∃ s ∈ S, ∃ r < 2 * v, k = n * s + r ∧ x.getLsbD (d * m + (s + r)) = true := by
  rw [BitVec.getLsbD_and, Bool.and_eq_true, h.field hd, BitVec.getLsbD_not, Bool.and_eq_true,
    Bool.not_eq_true', ← Bool.not_eq_true, h.fieldStarts hn hm (by omega), decide_eq_true_iff]
  constructor
  · rintro ⟨⟨s, hs, r, hr, rfl, hx⟩, -, hno⟩
    refine ⟨s, hs, r, ?_, rfl, hx⟩
    by_contra hge
    exact hno ⟨s, hs, by omega⟩
  · rintro ⟨s, hs, r, hr, rfl, hx⟩
    refine ⟨⟨s, hs, r, by omega, rfl, hx⟩, ?_, ?_⟩
    · have := h.place_lt hm hs hn (show r < u by omega)
      omega
    · rintro ⟨s', hs', heq⟩
      have := (start_unique h.spread hn hs hs' (show r < u by omega) (show u - 1 < u by omega) heq).2
      omega

/-- The inner loop after `c` coordinates. -/
theorem foldl_transposeField (hn : 2 ≤ n) (hm : n * m ≤ 64) {utMask : Bitmask}
    (hmask : ∀ k, utMask.getLsbD k = true ↔ ∃ s ∈ halves S (u / 2), ∃ r < u / 2, k = n * s + r)
    (hc : c ≤ n) :
    let st := (List.range c).foldl (transposeField n u ends mask utMask) ⟨inCoords, coords, 0⟩
    st.inCoords = inCoords >>> (c * u) ∧
      (∀ k, st.coords.getLsbD k = true ↔ coords.getLsbD k = true ∨ (u % 2 = 1 ∧ ∃ d < c, ∃ s ∈ S,
        k = n * (s + 2 * (u / 2)) + d ∧ x.getLsbD (d * m + (s + 2 * (u / 2))) = true)) ∧
      ∀ k, st.utCoords.getLsbD k = true ↔ ∃ d < c, ∃ s ∈ halves S (u / 2), ∃ r < u / 2,
        k = n * s + d * (u / 2) + r ∧ x.getLsbD (d * m + (s + r)) = true := by
  induction c with
  | zero => simp
  | succ c ih =>
    obtain ⟨hin, hcoords, hut⟩ := ih (by omega)
    rw [List.range_succ, List.foldl_append, List.foldl_cons, List.foldl_nil]
    generalize (List.range c).foldl (transposeField n u ends mask utMask) ⟨inCoords, coords, 0⟩ = st at *
    have hshift : st.inCoords >>> u = inCoords >>> ((c + 1) * u) := by
      rw [hin, ← BitVec.shiftRight_add, Nat.succ_mul]
    -- the halves of a field, at their places in the groups
    have hplaced : ∀ f : Bitmask, (∀ k, f.getLsbD k = true ↔
          ∃ s ∈ S, ∃ r < 2 * (u / 2), k = n * s + r ∧ x.getLsbD (c * m + (s + r)) = true) → ∀ k,
        (st.utCoords |||
          ((f ||| f <<< ((n - 1) * (u / 2))) &&& utMask) <<< (c * (u / 2))).getLsbD k = true ↔
          ∃ d < c + 1, ∃ s ∈ halves S (u / 2), ∃ r < u / 2,
            k = n * s + d * (u / 2) + r ∧ x.getLsbD (d * m + (s + r)) = true := by
      intro f hf k
      rw [BitVec.getLsbD_or, Bool.or_eq_true, hut, BitVec.getLsbD_shiftLeft, Bool.and_eq_true,
        Bool.and_eq_true, getLsbD_halves (P := fun b => x.getLsbD (c * m + b) = true) hn hm h.spread
          h.room (by omega) hf hmask]
      simp only [decide_eq_true_eq, Bool.not_eq_true', decide_eq_false_iff_not, not_lt]
      constructor
      · rintro (⟨d, hd, hrest⟩ | ⟨⟨-, hle⟩, s, hs, r, hr, heq, hx⟩)
        · exact ⟨d, by omega, hrest⟩
        · exact ⟨c, by omega, s, hs, r, hr, by omega, hx⟩
      · rintro ⟨d, hd, s, hs, r, hr, rfl, hx⟩
        rcases Nat.lt_succ_iff_lt_or_eq.mp hd with hd | rfl
        · exact Or.inl ⟨d, hd, s, hs, r, hr, rfl, hx⟩
        · have hlt := field_lt (n := n) (show d < n by omega) hr
          have hend := Nat.mul_le_mul_left n (h.room_halves s hs)
          rw [Nat.mul_add] at hend
          exact Or.inr ⟨⟨by omega, by omega⟩, s, hs, r, hr, by omega, hx⟩
    unfold transposeField
    rw [hin]
    by_cases hodd : u % 2 = 1
    · have hu : u = 2 * (u / 2) + 1 := by omega
      rw [if_pos hodd]
      refine ⟨by rw [← hshift, hin], fun k => ?_, hplaced _ (h.lower (by omega) hm hu (by omega))⟩
      rw [BitVec.getLsbD_or, Bool.or_eq_true, hcoords, h.top (by omega) hm hu (by omega), or_assoc]
      refine or_congr_right ?_
      rw [and_iff_right hodd, and_iff_right hodd]
      constructor
      · rintro (⟨d, hd, hrest⟩ | hrest)
        · exact ⟨d, by omega, hrest⟩
        · exact ⟨c, by omega, hrest⟩
      · rintro ⟨d, hd, hrest⟩
        rcases Nat.lt_succ_iff_lt_or_eq.mp hd with hd | rfl
        · exact Or.inl ⟨d, hd, hrest⟩
        · exact Or.inr hrest
    · rw [if_neg hodd]
      refine ⟨by rw [← hshift, hin], fun k => ?_, hplaced _ fun k => ?_⟩
      · rw [hcoords]
        simp [hodd]
      · rw [h.field (by omega), show 2 * (u / 2) = u by omega]

/-- One run of the outer loop. -/
theorem next (hn : 2 ≤ n) (hm : n * m ≤ 64) (hv0 : 0 < u / 2) :
    let ends' := ends ||| ends <<< ((n - 1) * (u / 2) + u / 2)
    let st := (List.range n).foldl (transposeField n u ends mask (ends' <<< (u / 2) - ends'))
      ⟨inCoords, coords, 0⟩
    Stage n m (u / 2) (halves S (u / 2)) x ends' (ends' <<< (u / 2) - ends') st.utCoords st.coords := by
  intro ends' st
  have hspread : Spread (u / 2) (halves S (u / 2)) := spread_halves h.spread (by omega)
  have hends := getLsbD_halves_ends (by omega) hm h.room hv0 (by omega) h.ends
  have hmask := getLsbD_mask (by omega) hm hspread h.room_halves hends
  obtain ⟨-, hcoords, hut⟩ := h.foldl_transposeField hn hm hmask le_rfl
  refine ⟨hspread, h.room_halves, hends, hmask, fun k => ?_, fun k => ?_⟩
  · rw [hut]
    constructor
    · rintro ⟨d, hd, s, hs, r, hr, hrest⟩
      exact ⟨s, hs, d, hd, r, hr, hrest⟩
    · rintro ⟨s, hs, d, hd, r, hr, hrest⟩
      exact ⟨d, hd, s, hs, r, hr, hrest⟩
  · rw [hcoords, h.coords]
    constructor
    · rintro (⟨b, hb, d, hd, hno, hrest⟩ | ⟨hodd, d, hd, s, hs, hrest⟩)
      · refine ⟨b, hb, d, hd, fun a ha => ?_, hrest⟩
        rcases mem_halves.mp ha with ha' | ⟨a', ha', rfl⟩
        · have := hno a ha'
          omega
        · have := hno a' ha'
          omega
      · refine ⟨s + 2 * (u / 2), by have := h.room s hs; omega, d, hd, fun a ha => ?_, hrest⟩
        have hfar : ∀ a ∈ S, a = s ∨ a + u ≤ s ∨ s + u ≤ a := by
          intro a ha
          rcases lt_trichotomy a s with hlt | rfl | hgt
          · exact Or.inr (Or.inl (h.spread a ha s hs hlt))
          · exact Or.inl rfl
          · exact Or.inr (Or.inr (h.spread s hs a ha hgt))
        rcases mem_halves.mp ha with ha' | ⟨a', ha', rfl⟩
        · have := hfar a ha'
          omega
        · have := hfar a' ha'
          omega
    · rintro ⟨b, hb, d, hd, hno, rfl, hx⟩
      by_cases hin : ∀ s ∈ S, b < s ∨ s + u ≤ b
      · exact Or.inl ⟨b, hb, d, hd, hin, rfl, hx⟩
      · push Not at hin
        obtain ⟨s, hs, hle, hlt⟩ := hin
        have h1 := hno s (mem_halves.mpr (Or.inl hs))
        have h2 := hno (s + u / 2) (mem_halves.mpr (Or.inr ⟨s, hs, rfl⟩))
        obtain rfl : b = s + 2 * (u / 2) := by omega
        exact Or.inr ⟨by omega, d, hd, s, hs, rfl, hx⟩

end Stage

theorem getLsbD_transposeLoop (h : Stage n m u S x ends mask inCoords coords) (hn : 2 ≤ n)
    (hm : n * m ≤ 64) (hu : 0 < u) (k : ℕ) :
    (transposeLoop n u ends mask inCoords coords).getLsbD k = true ↔
      ∃ b < m, ∃ d < n, k = n * b + d ∧ x.getLsbD (d * m + b) = true := by
  induction u using Nat.strong_induction_on generalizing S ends mask inCoords coords with
  | h u ih =>
    rw [transposeLoop]
    by_cases hv : u / 2 = 0
    · obtain rfl : u = 1 := by omega
      rw [if_pos hv, BitVec.getLsbD_or, Bool.or_eq_true, h.coords, h.inCoords]
      constructor
      · rintro (⟨b, hb, d, hd, -, hrest⟩ | ⟨s, hs, d, hd, r, hr, heq, hx⟩)
        · exact ⟨b, hb, d, hd, hrest⟩
        · obtain rfl : r = 0 := by omega
          exact ⟨s, by have := h.room s hs; omega, d, hd, by omega, hx⟩
      · rintro ⟨b, hb, d, hd, rfl, hx⟩
        by_cases hin : ∀ s ∈ S, b < s ∨ s + 1 ≤ b
        · exact Or.inl ⟨b, hb, d, hd, hin, rfl, hx⟩
        · push Not at hin
          obtain ⟨s, hs, hle, hlt⟩ := hin
          obtain rfl : b = s := by omega
          exact Or.inr ⟨b, hs, d, hd, 0, Nat.one_pos, by omega, hx⟩
    · rw [if_neg hv]
      exact ih (u / 2) (by omega) (h.next hn hm (by omega)) (by omega)

/-! ## The whole transposition -/

theorem getLsbD_ones (hm : 0 < m) (hle : m ≤ 64) (k : ℕ) : (ones m).getLsbD k = true ↔ k < m := by
  have hones : ones m = (1 : Bitmask) <<< m - 1 := by
    obtain ⟨m, rfl⟩ := Nat.exists_eq_add_one_of_ne_zero hm.ne'
    rw [ones, Nat.add_sub_cancel, Nat.add_comm, BitVec.shiftLeft_add]
    rfl
  rw [hones, getLsbD_shiftLeft_sub (S := {0})]
  · simp
  · exact fun s hs s' hs' hlt => by simp_all
  · simpa using hle
  · intro i
    simp

/-- Bit `b` of the coordinate `d` goes to bit `d` of the digit `b`. -/
theorem getLsbD_bitTranspose (hn : 2 ≤ n) (hm0 : 0 < m) (hm : n * m ≤ 64)
    (hx : Below (n * m) x) (k : ℕ) :
    (bitTranspose n m x).getLsbD k = true ↔
      ∃ b < m, ∃ d < n, k = n * b + d ∧ x.getLsbD (d * m + b) = true := by
  refine getLsbD_transposeLoop (S := {0}) ⟨?_, ?_, fun k => ?_, fun k => ?_, fun k => ?_, fun k => ?_⟩
    hn hm hm0 k
  · exact fun s hs s' hs' hlt => by simp_all
  · simp
  · simp
  · have := Nat.le_mul_of_pos_left m (show 0 < n by omega)
    simp [getLsbD_ones hm0 (by omega)]
  · constructor
    · intro hk
      have hlt := hx.lt hk
      refine ⟨0, by simp, k / m, Nat.div_lt_of_lt_mul (by rwa [Nat.mul_comm]), k % m,
        Nat.mod_lt k hm0, ?_, ?_⟩
      · rw [Nat.mul_zero, Nat.zero_add, Nat.div_add_mod']
      · rwa [Nat.zero_add, Nat.div_add_mod']
    · rintro ⟨s, hs, d, hd, r, hr, rfl, hbit⟩
      obtain rfl := Finset.mem_singleton.mp hs
      simpa using hbit
  · simp
    omega

/-! ## The plain loops -/

theorem getLsbD_rdbit (w : Bitmask) (b k : ℕ) :
    (rdbit w b).getLsbD k = true ↔ k = 0 ∧ w.getLsbD b = true := by
  rw [rdbit, BitVec.getLsbD_and, BitVec.getLsbD_ushiftRight]
  cases k with
  | zero => simp
  | succ k => simp

theorem getLsbD_spreadBits (hn : 0 < n) (hm : n * m ≤ 64) (out : Bitmask) (k : ℕ) :
    (spreadBits n x m out).getLsbD k = true ↔
      (∃ b < m, k = n * b ∧ x.getLsbD b = true) ∨
        (n * m ≤ k ∧ k < 64 ∧ out.getLsbD (k - n * m) = true) := by
  induction m generalizing out with
  | zero =>
    rw [spreadBits]
    constructor
    · exact fun hk => Or.inr ⟨by omega, BitVec.lt_of_getLsbD hk, hk⟩
    · rintro (⟨b, hb, -⟩ | ⟨-, -, hk⟩)
      · omega
      · exact hk
  | succ m ih =>
    rw [Nat.mul_succ] at hm
    rw [spreadBits, ih (by omega), BitVec.getLsbD_or, Bool.or_eq_true, getLsbD_rdbit,
      BitVec.getLsbD_shiftLeft, Bool.and_eq_true, Bool.and_eq_true, Nat.mul_succ, ← Nat.sub_sub]
    simp only [decide_eq_true_eq, Bool.not_eq_true', decide_eq_false_iff_not, not_lt]
    constructor
    · rintro (⟨b, hb, hrest⟩ | ⟨hle, hlt, ⟨⟨-, hge⟩, hk⟩ | ⟨hzero, hk⟩⟩)
      · exact Or.inl ⟨b, by omega, hrest⟩
      · exact Or.inr ⟨by omega, hlt, hk⟩
      · exact Or.inl ⟨m, by omega, by omega, hk⟩
    · rintro (⟨b, hb, rfl, hk⟩ | ⟨hle, hlt, hk⟩)
      · rcases Nat.lt_succ_iff_lt_or_eq.mp hb with hb | rfl
        · exact Or.inl ⟨b, hb, rfl, hk⟩
        · exact Or.inr ⟨le_rfl, by omega, Or.inr ⟨by omega, hk⟩⟩
      · exact Or.inr ⟨by omega, hlt, Or.inl ⟨⟨by omega, by omega⟩, hk⟩⟩

/-- The outer loop after `c` coordinates. -/
theorem foldl_spreadBits (hn : 0 < n) (hm0 : 0 < m) (hm : n * m ≤ 64) (hc : c ≤ n) :
    let st := (List.range c).foldl (fun (st : Bitmask × Bitmask) d =>
      (st.1 >>> m, st.2 ||| spreadBits n (st.1 &&& ones m) m 0 <<< d)) (x, 0)
    st.1 = x >>> (c * m) ∧ ∀ k, st.2.getLsbD k = true ↔
      ∃ d < c, ∃ b < m, k = n * b + d ∧ x.getLsbD (d * m + b) = true := by
  have hm64 : m ≤ 64 := (Nat.le_mul_of_pos_left m hn).trans hm
  induction c with
  | zero => simp
  | succ c ih =>
    obtain ⟨hin, hout⟩ := ih (by omega)
    rw [List.range_succ, List.foldl_append, List.foldl_cons, List.foldl_nil]
    generalize (List.range c).foldl _ (x, (0 : Bitmask)) = st at *
    refine ⟨by rw [hin, ← BitVec.shiftRight_add, Nat.succ_mul], fun k => ?_⟩
    have hfield : ∀ b < m, (st.1 &&& ones m).getLsbD b = x.getLsbD (c * m + b) := by
      intro b hb
      rw [BitVec.getLsbD_and, (getLsbD_ones hm0 hm64 b).mpr hb, hin, BitVec.getLsbD_ushiftRight,
        Bool.and_true]
    rw [BitVec.getLsbD_or, Bool.or_eq_true, hout, BitVec.getLsbD_shiftLeft, Bool.and_eq_true,
      Bool.and_eq_true, getLsbD_spreadBits hn hm]
    simp only [decide_eq_true_eq, Bool.not_eq_true', decide_eq_false_iff_not, not_lt]
    constructor
    · rintro (⟨d, hd, hrest⟩ | ⟨⟨-, hle⟩, ⟨b, hb, heq, hbit⟩ | ⟨-, -, hzero⟩⟩)
      · exact ⟨d, by omega, hrest⟩
      · exact ⟨c, by omega, b, hb, by omega, by rwa [← hfield b hb]⟩
      · simp at hzero
    · rintro ⟨d, hd, b, hb, rfl, hbit⟩
      rcases Nat.lt_succ_iff_lt_or_eq.mp hd with hd | rfl
      · exact Or.inl ⟨d, hd, b, hb, rfl, hbit⟩
      · have hroom := Nat.mul_le_mul_left n hb
        rw [Nat.mul_succ] at hroom
        exact Or.inr ⟨⟨by omega, by omega⟩, Or.inl ⟨b, hb, by omega, by rwa [hfield b hb]⟩⟩

/-- Halving the fields gives what moving bit after bit gives. -/
theorem bitTranspose_eq_plain (hn : 2 ≤ n) (hm0 : 0 < m) (hm : n * m ≤ 64) (hx : x.toNat < 2 ^ (n * m)) :
    bitTranspose n m x = bitTransposePlain n m x := by
  refine BitVec.eq_of_getLsbD_eq fun k _ => ?_
  rw [Bool.eq_iff_iff, getLsbD_bitTranspose hn hm0 hm (below_iff.mpr hx), bitTransposePlain,
    (foldl_spreadBits (by omega) hm0 hm le_rfl).2]
  constructor
  · rintro ⟨b, hb, d, hd, hrest⟩
    exact ⟨d, hd, b, hb, hrest⟩
  · rintro ⟨d, hd, b, hb, hrest⟩
    exact ⟨b, hb, d, hd, hrest⟩

theorem bitTranspose_eq_plain_space : bitTranspose 3 5 0x1abc = bitTransposePlain 3 5 0x1abc :=
  bitTranspose_eq_plain (by decide) (by decide) (by decide) (by decide)

end Hilbert

end Silva
