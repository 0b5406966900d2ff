import Mathlib

/-!
# The nearest elements of a list

`KNearest dist k S q`: the list `q` has `k` nearest elements of `S`, or all of them when there are
fewer. Which of several elements at the same distance it has is left open; `NoTie` says that there is
nothing to choose.
-/

variable {α D : Type*} [LinearOrder D]

/-- `q` is `S` without some elements that are at least as far as all of `q`. -/
structure KNearest (dist : α → D) (k : ℕ) (S q : List α) : Prop where
  /-- There are `k` of them, or all. -/
  length : q.length = min k S.length
  /-- What is left out is at least as far. -/
  rest : ∃ rest, (q ++ rest).Perm S ∧ ∀ x ∈ q, ∀ y ∈ rest, dist x ≤ dist y

/-- At most `k` elements lie within a distance unless `k` of them are nearer than that. -/
def NoTie (dist : α → D) (k : ℕ) (S : List α) : Prop :=
  ∀ d, (S.countP fun x => dist x < d) < k → (S.countP fun x => dist x ≤ d) ≤ k

/-- The `k` smallest of some distances, in ascending order. -/
def smallestDistances (k : ℕ) (ds : List D) : List D := (ds.insertionSort (· ≤ ·)).take k

namespace KNearest

variable {dist : α → D} {k : ℕ} {S S' T q q' : List α} {x t : α}

theorem nil (dist : α → D) (k : ℕ) : KNearest dist k [] [] :=
  ⟨by simp, [], List.Perm.refl _, fun _ hx => absurd hx List.not_mem_nil⟩

theorem mem (h : KNearest dist k S q) (hx : x ∈ q) : x ∈ S := by
  obtain ⟨rest, hperm, -⟩ := h.rest
  exact hperm.subset (List.mem_append_left _ hx)

theorem perm_left (h : KNearest dist k S q) (hS : S.Perm S') : KNearest dist k S' q := by
  obtain ⟨rest, hperm, hfar⟩ := h.rest
  exact ⟨hS.length_eq ▸ h.length, rest, hperm.trans hS, hfar⟩

theorem perm_right (h : KNearest dist k S q) (hq : q.Perm q') : KNearest dist k S q' := by
  obtain ⟨rest, hperm, hfar⟩ := h.rest
  refine ⟨hq.length_eq ▸ h.length, rest, (hq.symm.append_right rest).trans hperm, fun x hx => ?_⟩
  exact hfar x (hq.mem_iff.mpr hx)

/-! ## Updates -/

/-- While there is room, a new element is added. -/
theorem push (h : KNearest dist k S q) (hroom : q.length < k) (x : α) :
    KNearest dist k (S ++ [x]) (x :: q) := by
  obtain ⟨rest, hperm, -⟩ := h.rest
  have hlen := hperm.length_eq
  rw [List.length_append] at hlen
  have hq := h.length
  obtain rfl : rest = [] := List.length_eq_zero_iff.mp (by omega)
  rw [List.append_nil] at hperm
  refine ⟨?_, [], ?_, fun _ _ _ hy => absurd hy List.not_mem_nil⟩
  · rw [List.length_cons, List.length_append, List.length_singleton]
    omega
  · rw [List.append_nil]
    exact (hperm.cons x).trans (List.perm_append_singleton x S).symm

/-- An element that is not farther takes the place of a farthest one. -/
theorem replace (h : KNearest dist k S (t :: q)) (hfull : k ≤ (t :: q).length)
    (htop : ∀ y ∈ q, dist y ≤ dist t) (hx : dist x ≤ dist t) :
    KNearest dist k (S ++ [x]) (x :: q) := by
  obtain ⟨rest, hperm, hfar⟩ := h.rest
  refine ⟨?_, t :: rest, ?_, fun y hy z hz => ?_⟩
  · have hlen := h.length
    rw [List.length_cons] at hlen hfull ⊢
    rw [List.length_append, List.length_singleton]
    omega
  · have hswap : (x :: q ++ t :: rest).Perm (x :: (t :: q ++ rest)) :=
      List.Perm.cons x List.perm_middle
    exact hswap.trans ((hperm.cons x).trans (List.perm_append_singleton x S).symm)
  · have hyt : dist y ≤ dist t := by
      rcases List.mem_cons.mp hy with rfl | hy
      · exact hx
      · exact htop y hy
    rcases List.mem_cons.mp hz with rfl | hz
    · exact hyt
    · exact hyt.trans (hfar t List.mem_cons_self z hz)

/-- Once there are `k` of them, elements that are not nearer than the farthest may be left out. -/
theorem skip (h : KNearest dist k S q) (hfull : k ≤ q.length) {d : D} (hq : ∀ x ∈ q, dist x ≤ d)
    (hT : ∀ y ∈ T, d ≤ dist y) : KNearest dist k (S ++ T) q := by
  obtain ⟨rest, hperm, hfar⟩ := h.rest
  refine ⟨?_, rest ++ T, ?_, fun x hx y hy => ?_⟩
  · have hlen := h.length
    rw [List.length_append]
    omega
  · rw [← List.append_assoc]
    exact hperm.append_right T
  · rcases List.mem_append.mp hy with hy | hy
    · exact hfar x hx y hy
    · exact (hq x hx).trans (hT y hy)

/-! ## Distances -/

/-- Whichever nearest elements are selected, their distances are the smallest ones. -/
theorem map_dist_perm (h : KNearest dist k S q) :
    (q.map dist).Perm (smallestDistances k (S.map dist)) := by
  obtain ⟨rest, hperm, hfar⟩ := h.rest
  have hsort : (S.map dist).insertionSort (· ≤ ·) =
      (q.map dist).insertionSort (· ≤ ·) ++ (rest.map dist).insertionSort (· ≤ ·) := by
    refine @List.Perm.eq_of_pairwise _ (· ≤ ·) _ _ (fun _ _ _ _ => le_antisymm)
      (List.pairwise_insertionSort _ _) ?_ ?_
    · refine List.pairwise_append.mpr ⟨List.pairwise_insertionSort _ _,
        List.pairwise_insertionSort _ _, fun a ha b hb => ?_⟩
      obtain ⟨x, hx, rfl⟩ := List.mem_map.mp ((List.mem_insertionSort _).mp ha)
      obtain ⟨y, hy, rfl⟩ := List.mem_map.mp ((List.mem_insertionSort _).mp hb)
      exact hfar x hx y hy
    · refine (List.perm_insertionSort _ _).trans ((hperm.symm.map dist).trans ?_)
      rw [List.map_append]
      exact ((List.perm_insertionSort _ _).append (List.perm_insertionSort _ _)).symm
  have hlen : ((q.map dist).insertionSort (· ≤ ·)).length = min k S.length := by
    rw [List.length_insertionSort, List.length_map, h.length]
  have htake : smallestDistances k (S.map dist) = (q.map dist).insertionSort (· ≤ ·) := by
    unfold smallestDistances
    rw [hsort]
    by_cases hk : k ≤ S.length
    · rw [List.take_left' (hlen.trans (min_eq_left hk))]
    · have hrest : rest = [] := by
        have := hperm.length_eq
        rw [List.length_append, h.length] at this
        exact List.length_eq_zero_iff.mp (by omega)
      rw [hrest, List.map_nil, List.insertionSort_nil, List.append_nil, List.take_of_length_le]
      rw [hlen]
      exact min_le_left _ _
  rw [htake]
  exact (List.perm_insertionSort _ _).symm

/-! ## Ties -/

/-- What is nearer than an element of the selection is in the selection. -/
theorem countP_lt_of_mem (h : KNearest dist k S q) (hx : x ∈ q) :
    (S.countP fun y => dist y < dist x) < k := by
  obtain ⟨rest, hperm, hfar⟩ := h.rest
  have hrest : (rest.countP fun y => dist y < dist x) = 0 := by
    refine List.countP_eq_zero.mpr fun y hy => ?_
    simpa using hfar x hx y hy
  have hq : (q.countP fun y => dist y < dist x) < q.length := by
    refine lt_of_le_of_ne List.countP_le_length fun heq => ?_
    exact absurd (List.countP_eq_length.mp heq x hx) (by simp)
  rw [← hperm.countP_eq, List.countP_append, hrest]
  have := h.length
  omega

/-- An element outside the selection is at least as far as `k` others. -/
theorem lt_countP_of_not_mem (h : KNearest dist k S q) (hx : x ∈ S) (hxq : x ∉ q) :
    k < S.countP fun y => dist y ≤ dist x := by
  obtain ⟨rest, hperm, hfar⟩ := h.rest
  have hrest : x ∈ rest := (List.mem_append.mp (hperm.mem_iff.mpr hx)).resolve_left hxq
  have hpos : 0 < rest.countP fun y => dist y ≤ dist x :=
    List.countP_pos_iff.mpr ⟨x, hrest, by simp⟩
  have hq : (q.countP fun y => dist y ≤ dist x) = q.length :=
    List.countP_eq_length.mpr fun y hy => by simpa using hfar y hy x hrest
  have hlen := hperm.length_eq
  rw [List.length_append] at hlen
  have hk := h.length
  have hrest0 := List.length_pos_of_mem hrest
  rw [← hperm.countP_eq, List.countP_append, hq]
  omega

/-- Without a tie the selection is determined. -/
theorem subset_of_noTie (h : KNearest dist k S q) (h' : KNearest dist k S q') (htie : NoTie dist k S) :
    q ⊆ q' := by
  intro x hx
  by_contra hx'
  exact absurd (htie _ (h.countP_lt_of_mem hx)) (not_le.mpr (h'.lt_countP_of_not_mem (h.mem hx) hx'))

/-- With a tie every selection has an element that `k` others could replace. -/
theorem exists_tied (h : KNearest dist k S q) (htie : ¬NoTie dist k S) :
    ∃ y ∈ q, k < S.countP fun x => dist x ≤ dist y := by
  unfold NoTie at htie
  push Not at htie
  obtain ⟨d, hlt, hle⟩ := htie
  obtain ⟨rest, hperm, hfar⟩ := h.rest
  have hk : k < S.length := hle.trans_le List.countP_le_length
  have hlen : q.length = k := h.length.trans (min_eq_left hk.le)
  have hsplit : ∀ p : α → Bool, S.countP p = q.countP p + rest.countP p :=
    fun p => by rw [← hperm.countP_eq, List.countP_append]
  -- an element of the rest within the distance bounds the selection
  obtain ⟨z, hz, hzd⟩ : ∃ z ∈ rest, dist z ≤ d := by
    by_contra hno
    push Not at hno
    have hzero : (rest.countP fun x => dist x ≤ d) = 0 :=
      List.countP_eq_zero.mpr fun z hz => by simpa using hno z hz
    have hqle : (q.countP fun x => dist x ≤ d) ≤ q.length := List.countP_le_length
    rw [hsplit, hzero] at hle
    omega
  obtain ⟨y, hy, hyd⟩ : ∃ y ∈ q, d ≤ dist y := by
    by_contra hno
    push Not at hno
    have hall : (q.countP fun x => dist x < d) = q.length :=
      List.countP_eq_length.mpr fun y hy => by simpa using hno y hy
    rw [hsplit, hall] at hlt
    omega
  have heq : dist y = d := le_antisymm ((hfar y hy z hz).trans hzd) hyd
  exact ⟨y, hy, by rwa [heq]⟩

end KNearest
