import Silva.Rlog.Knn
import Silva.Rlog.Proofs.ViewProofs

/-!
# Proofs: nearest neighbours and the order of the log

The heap always holds nearest values of those seen, but the order of the heap and the test for a
replacement disagree on identifiers. Once the heap is full of values within a distance, a tied value
can only take the place of the top, a nearer one removes the top, and the tied values below stay.
-/

namespace Silva

namespace Rlog

open BoundedQueue

/-- The order of the heap: distance first, then the identifier. -/
def heapKey (c : FT × Value) : FT ×ₗ ℕ := toLex (c.1, c.2.id)

theorem maxHeapCmp_iff (a b : FT × Value) : maxHeapCmp a b = true ↔ heapKey a < heapKey b := by
  unfold maxHeapCmp heapKey
  rw [Prod.Lex.toLex_lt_toLex]
  by_cases h : a.1 = b.1
  · simp [h]
  · simp [h]

theorem fst_le_of_heapKey_le {a b : FT × Value} (h : heapKey a ≤ heapKey b) : a.1 ≤ b.1 := by
  unfold heapKey at h
  rcases Prod.Lex.toLex_le_toLex.mp h with h | ⟨h, -⟩
  · exact h.le
  · exact h.le

theorem replaces_iff (c t : FT × Value) :
    replaces c t = true ↔ c.1 < t.1 ∨ (c.1 = t.1 ∧ t.2.id < c.2.id) := by
  simp [replaces]

/-- A refused value is not nearer than the top. -/
theorem le_of_not_replaces {c t : FT × Value} (h : replaces c t = false) : t.1 ≤ c.1 := by
  by_contra hlt
  rw [(replaces_iff c t).mpr (.inl (not_le.mp hlt))] at h
  exact absurd h (by decide)

variable {k : ℕ} {d : FT} {c : FT × Value} {S Q W : List (FT × Value)}

/-! ## Counting values -/

theorem tiedBelow_perm {W' : List (FT × Value)} (h : W.Perm W') (id : ℕ) :
    tiedBelow d W id = tiedBelow d W' id := h.countP_eq _

theorem nearer_perm {W' : List (FT × Value)} (h : W.Perm W') (d : FT) :
    nearer d W = nearer d W' := h.countP_eq _

theorem within_perm {W' : List (FT × Value)} (h : W.Perm W') (d : FT) :
    within d W = within d W' := h.countP_eq _

theorem nearer_append (d : FT) (W V : List (FT × Value)) :
    nearer d (W ++ V) = nearer d W + nearer d V := List.countP_append

theorem within_append (d : FT) (W V : List (FT × Value)) :
    within d (W ++ V) = within d W + within d V := List.countP_append

theorem tiedBelow_append (d : FT) (W V : List (FT × Value)) (id : ℕ) :
    tiedBelow d (W ++ V) id = tiedBelow d W id + tiedBelow d V id := List.countP_append

theorem nearer_cons (d : FT) (c : FT × Value) (V : List (FT × Value)) :
    nearer d (c :: V) = nearer d V + if c.1 < d then 1 else 0 := by
  simp only [nearer, List.countP_cons, decide_eq_true_eq]

theorem nearer_filter (d : FT) (W : List (FT × Value)) :
    (W.filter fun c => c.1 < d).length = nearer d W := (List.countP_eq_length_filter ..).symm

/-! ## One value -/

/-- The three ways to check a value: there is room, it replaces the top, or it is refused. -/
theorem checkPending_cases (hk : 0 < k) (Q : List (FT × Value)) (c : FT × Value) :
    (Q.length < k ∧ checkPending k Q c = push maxHeapCmp Q c) ∨
      ∃ t r, Q = t :: r ∧ k ≤ Q.length ∧
        ((replaces c t = true ∧ checkPending k Q c = push maxHeapCmp r c) ∨
          (replaces c t = false ∧ checkPending k Q c = Q)) := by
  by_cases hroom : Q.length < k
  · exact .inl ⟨hroom, if_pos hroom⟩
  · obtain ⟨t, r, rfl⟩ := List.exists_cons_of_length_pos (hk.trans_le (not_lt.mp hroom))
    refine .inr ⟨t, r, rfl, not_lt.mp hroom, ?_⟩
    unfold checkPending
    rw [if_neg hroom]
    cases h : replaces c t with
    | true => exact .inl ⟨rfl, if_pos h⟩
    | false => exact .inr ⟨rfl, if_neg (by rw [h]; exact Bool.false_ne_true)⟩

/-- The loop over the base does the same, but it ends when a value is refused. -/
theorem checkBase_cons (hk : 0 < k) (Q : List (FT × Value)) (c : FT × Value)
    (cs : List (FT × Value)) :
    checkBase k Q (c :: cs) = checkBase k (checkPending k Q c) cs ∨
      (checkBase k Q (c :: cs) = Q ∧ ∃ t r, Q = t :: r ∧ k ≤ Q.length ∧ replaces c t = false) := by
  rw [checkBase]
  unfold checkPending
  by_cases hroom : Q.length < k
  · rw [if_pos hroom, if_pos hroom]
    exact .inl rfl
  · obtain ⟨t, r, rfl⟩ := List.exists_cons_of_length_pos (hk.trans_le (not_lt.mp hroom))
    rw [if_neg hroom, if_neg hroom]
    show (if replaces c t then checkBase k (push maxHeapCmp r c) cs else t :: r) =
        checkBase k (if replaces c t then push maxHeapCmp r c else t :: r) cs ∨ _
    cases h : replaces c t with
    | true => exact .inl rfl
    | false => exact .inr ⟨if_neg (by simp [h]), t, r, rfl, not_lt.mp hroom, h⟩

/-! ## The heap -/

/-- The heap is in order and holds nearest values of those seen. -/
structure Heap (k : ℕ) (S Q : List (FT × Value)) : Prop where
  sorted : Q.Pairwise fun a b => heapKey b ≤ heapKey a
  nearest : KNearest Prod.fst k S Q

theorem Heap.nil (k : ℕ) : Heap k [] [] := ⟨.nil, .nil _ _⟩

theorem Heap.le_top {t : FT × Value} {r : List (FT × Value)} (h : Heap k S (t :: r)) :
    ∀ y ∈ r, y.1 ≤ t.1 := fun y hy =>
  fst_le_of_heapKey_le ((List.pairwise_cons.mp h.sorted).1 y hy)

/-- Values that are not nearer than the top of a full heap may be left out. -/
theorem Heap.skip {t : FT × Value} {r cs : List (FT × Value)} (h : Heap k S (t :: r))
    (hfull : k ≤ (t :: r).length) (hcs : ∀ y ∈ cs, t.1 ≤ y.1) : Heap k (S ++ cs) (t :: r) := by
  refine ⟨h.sorted, h.nearest.skip hfull (fun y hy => ?_) hcs⟩
  rcases List.mem_cons.mp hy with rfl | hy
  · exact le_rfl
  · exact h.le_top y hy

theorem Heap.check (h : Heap k S Q) (hk : 0 < k) (c : FT × Value) :
    Heap k (S ++ [c]) (checkPending k Q c) := by
  obtain ⟨hroom, heq⟩ | ⟨t, r, rfl, hfull, ⟨hrep, heq⟩ | ⟨hrep, heq⟩⟩ := checkPending_cases hk Q c
  · rw [heq]
    exact ⟨push_sorted maxHeapCmp_iff h.sorted c,
      (h.nearest.push hroom c).perm_right (push_perm Q c).symm⟩
  · rw [heq]
    have hle : c.1 ≤ t.1 := by
      rcases (replaces_iff c t).mp hrep with hlt | ⟨heq, -⟩
      · exact hlt.le
      · exact heq.le
    exact ⟨push_sorted maxHeapCmp_iff (List.pairwise_cons.mp h.sorted).2 c,
      (h.nearest.replace hfull h.le_top hle).perm_right (push_perm r c).symm⟩
  · rw [heq]
    refine h.skip hfull fun y hy => ?_
    rw [List.mem_singleton.mp hy]
    exact le_of_not_replaces hrep

theorem Heap.foldl (hk : 0 < k) (cs : List (FT × Value)) : ∀ {S Q : List (FT × Value)},
    Heap k S Q → Heap k (S ++ cs) (cs.foldl (checkPending k) Q) := by
  induction cs with
  | nil =>
    intro S Q h
    rwa [List.append_nil]
  | cons c cs ih =>
    intro S Q h
    have hstep := ih (h.check hk c)
    rwa [List.append_assoc, List.singleton_append] at hstep

/-- Ending at the first refused value loses nothing: the ones behind it are not nearer. -/
theorem Heap.checkBase (hk : 0 < k) (cs : List (FT × Value)) : ∀ {S Q : List (FT × Value)},
    Heap k S Q → cs.Pairwise (fun v w => v.1 ≤ w.1) → Heap k (S ++ cs) (checkBase k Q cs) := by
  induction cs with
  | nil =>
    intro S Q h _
    rwa [List.append_nil]
  | cons c cs ih =>
    intro S Q h hcs
    obtain ⟨hc, hcs⟩ := List.pairwise_cons.mp hcs
    obtain heq | ⟨heq, t, r, rfl, hfull, hrep⟩ := checkBase_cons hk Q c cs
    · rw [heq]
      have hstep := ih (h.check hk c) hcs
      rwa [List.append_assoc, List.singleton_append] at hstep
    · rw [heq]
      have htc := le_of_not_replaces hrep
      refine h.skip hfull fun y hy => ?_
      rcases List.mem_cons.mp hy with rfl | hy
      · exact htc
      · exact htc.trans (hc y hy)

/-- The heap after the pending inserts. -/
def run (k : ℕ) (W : List (FT × Value)) : List (FT × Value) := W.foldl (checkPending k) []

theorem heap_run (hk : 0 < k) (W : List (FT × Value)) : Heap k W (run k W) := by
  have h := (Heap.nil k).foldl hk W
  rwa [List.nil_append] at h

theorem run_append (W V : List (FT × Value)) :
    run k (W ++ V) = V.foldl (checkPending k) (run k W) := List.foldl_append

/-! ## A full heap with values at one distance -/

/-- A full heap: values at the distance `d` on top, nearer ones below. -/
structure FullAt (k : ℕ) (d : FT) (T N : List (FT × Value)) : Prop where
  length : (T ++ N).length = k
  sorted : (T ++ N).Pairwise fun a b => heapKey b ≤ heapKey a
  tied : ∀ c ∈ T, c.1 = d
  near : ∀ c ∈ N, c.1 < d

section FullAt

variable {t : FT × Value} {T T' N V : List (FT × Value)}

theorem maxHeapCmp_of_lt {a b : FT × Value} (h : a.1 < b.1) : maxHeapCmp a b = true :=
  (maxHeapCmp_iff a b).mpr (Prod.Lex.toLex_lt_toLex.mpr (.inl h))

theorem heapKey_le_of_tied {a b : FT × Value} (h : a.1 = b.1) (hid : a.2.id ≤ b.2.id) :
    heapKey a ≤ heapKey b :=
  Prod.Lex.toLex_le_toLex.mpr (.inr ⟨h, hid⟩)

theorem id_le_of_heapKey_le {a b : FT × Value} (hd : a.1 = b.1) (h : heapKey a ≤ heapKey b) :
    a.2.id ≤ b.2.id := by
  unfold heapKey at h
  rcases Prod.Lex.toLex_le_toLex.mp h with h | ⟨-, h⟩
  · exact absurd hd h.ne
  · exact h

/-- A value above all others comes on top. -/
theorem push_of_greatest (h : ∀ y ∈ Q, heapKey y ≤ heapKey c) : push maxHeapCmp Q c = c :: Q := by
  cases Q with
  | nil => rfl
  | cons y Q =>
    refine if_neg fun hless => ?_
    exact absurd ((maxHeapCmp_iff c y).mp hless) (not_lt.mpr (h y List.mem_cons_self))

/-- A value replaces the top or it is refused. -/
theorem FullAt.check (h : FullAt k d (t :: T) N) (c : FT × Value) :
    checkPending k (t :: T ++ N) c =
      if replaces c t then push maxHeapCmp (T ++ N) c else t :: T ++ N := by
  unfold checkPending
  rw [if_neg (not_lt.mpr h.length.ge)]
  rfl

/-- A nearer value removes the top. -/
theorem FullAt.check_near (h : FullAt k d (t :: T) N) (hc : c.1 < d) :
    checkPending k (t :: T ++ N) c = T ++ push maxHeapCmp N c ∧
      FullAt k d T (push maxHeapCmp N c) := by
  have ht : t.1 = d := h.tied t List.mem_cons_self
  have hT : ∀ y ∈ T, y.1 = d := fun y hy => h.tied y (List.mem_cons_of_mem t hy)
  have hpush : push maxHeapCmp (T ++ N) c = T ++ push maxHeapCmp N c :=
    push_append_of_less fun y hy => maxHeapCmp_of_lt (hc.trans_eq (hT y hy).symm)
  have hrep : replaces c t = true := (replaces_iff c t).mpr (.inl (hc.trans_eq ht.symm))
  refine ⟨by rw [h.check, if_pos hrep, hpush], ?_, ?_, hT, fun y hy => ?_⟩
  · rw [← hpush, length_push, ← h.length]
    rfl
  · rw [← hpush]
    exact push_sorted maxHeapCmp_iff (List.pairwise_cons.mp h.sorted).2 c
  · rcases List.mem_cons.mp ((push_perm N c).mem_iff.mp hy) with rfl | hy
    · exact hc
    · exact h.near y hy

/-- A tied value takes the place of the top if its identifier is larger. -/
theorem FullAt.check_tied (h : FullAt k d (t :: T) N) (hc : c.1 = d) (hid : t.2.id < c.2.id) :
    checkPending k (t :: T ++ N) c = c :: T ++ N ∧ FullAt k d (c :: T) N := by
  have ht : t.1 = d := h.tied t List.mem_cons_self
  have htop : ∀ y ∈ T ++ N, heapKey y ≤ heapKey c := fun y hy =>
    ((List.pairwise_cons.mp h.sorted).1 y hy).trans
      (heapKey_le_of_tied (ht.trans hc.symm) hid.le)
  have hrep : replaces c t = true := (replaces_iff c t).mpr (.inr ⟨hc.trans ht.symm, hid⟩)
  refine ⟨by rw [h.check, if_pos hrep, push_of_greatest htop]; rfl, h.length,
    List.pairwise_cons.mpr ⟨htop, (List.pairwise_cons.mp h.sorted).2⟩, fun y hy => ?_, h.near⟩
  rcases List.mem_cons.mp hy with rfl | hy
  · exact hc
  · exact h.tied y (List.mem_cons_of_mem t hy)

/-- Everything else is refused. -/
theorem FullAt.refused (h : FullAt k d (t :: T) N) (hc : d ≤ c.1)
    (hid : c.1 = d → c.2.id ≤ t.2.id) : replaces c t = false := by
  have ht : t.1 = d := h.tied t List.mem_cons_self
  refine Bool.eq_false_iff.mpr fun hrep => ?_
  rcases (replaces_iff c t).mp hrep with hlt | ⟨heq, hlt⟩
  · exact absurd (hlt.trans_eq ht) hc.not_gt
  · exact absurd hlt (hid (heq.trans ht)).not_gt

theorem FullAt.check_refused (h : FullAt k d (t :: T) N) (hc : d ≤ c.1)
    (hid : c.1 = d → c.2.id ≤ t.2.id) : checkPending k (t :: T ++ N) c = t :: T ++ N := by
  rw [h.check, h.refused hc hid]
  rfl

/-- The identifiers at the distance `d` behind which no nearer value comes, the base included. -/
def Late (d : FT) (V base : List (FT × Value)) (id : ℕ) : Prop :=
  ∃ V₁ x V₂, V = V₁ ++ x :: V₂ ∧ x.1 = d ∧ x.2.id = id ∧ nearer d (V₂ ++ base) = 0

theorem not_late_nil (d : FT) (base : List (FT × Value)) (id : ℕ) : ¬Late d [] base id := by
  rintro ⟨V₁, x, V₂, h, -⟩
  exact List.append_ne_nil_of_right_ne_nil V₁ (List.cons_ne_nil x V₂) h.symm

theorem late_cons {base : List (FT × Value)} {id : ℕ} :
    Late d (c :: V) base id ↔
      (c.1 = d ∧ c.2.id = id ∧ nearer d (V ++ base) = 0) ∨ Late d V base id := by
  constructor
  · rintro ⟨V₁, x, V₂, h, hx⟩
    cases V₁ with
    | nil =>
      obtain ⟨rfl, rfl⟩ := List.cons.inj h
      exact .inl hx
    | cons y V₁ =>
      obtain ⟨-, rfl⟩ := List.cons.inj h
      exact .inr ⟨V₁, x, V₂, rfl, hx⟩
  · rintro (h | ⟨V₁, x, V₂, rfl, hx⟩)
    · exact ⟨[], c, V, rfl, h⟩
    · exact ⟨c :: V₁, x, V₂, rfl, hx⟩

/-- Nearer values at the end count like those of the base. -/
theorem late_append {base near : List (FT × Value)} (hnear : ∀ c ∈ near, c.1 < d) {id : ℕ} :
    Late d (V ++ near) base id ↔ Late d V (near ++ base) id := by
  induction V with
  | nil =>
    refine iff_of_false ?_ (not_late_nil d _ id)
    rintro ⟨V₁, x, V₂, h, hx, -⟩
    exact absurd hx (hnear x (by rw [show near = _ from h]; simp)).ne
  | cons c V ih => rw [List.cons_append, late_cons, late_cons, ih, List.append_assoc]

/-- As long as a tied value remains, each nearer value removes the top, and the top behind the last
nearer value is the largest of those that come from then on. -/
theorem FullAt.foldl (V : List (FT × Value)) : ∀ {t : FT × Value} {T N : List (FT × Value)},
    FullAt k d (t :: T) N → nearer d V ≤ T.length →
    ∃ f t' T' N', (t :: T).drop (nearer d V) = f :: T' ∧
      V.foldl (checkPending k) (t :: T ++ N) = t' :: T' ++ N' ∧ FullAt k d (t' :: T') N' ∧
      N'.Perm (N ++ V.filter fun c => c.1 < d) ∧
      IsGreatest {id | id = f.2.id ∨ Late d V [] id} t'.2.id := by
  induction V with
  | nil =>
    intro t T N h _
    refine ⟨t, t, T, N, rfl, rfl, h, by simp, .inl rfl, ?_⟩
    rintro id (rfl | hlate)
    · exact le_rfl
    · exact absurd hlate (not_late_nil d [] id)
  | cons c V ih =>
    intro t T N h hle
    rw [nearer_cons] at hle ⊢
    rw [List.foldl_cons]
    rcases lt_trichotomy c.1 d with hc | hc | hc
    · -- the second value becomes the top
      rw [if_pos hc] at hle ⊢
      obtain ⟨t₁, T₁, rfl⟩ := List.exists_cons_of_length_pos (show 0 < T.length by omega)
      obtain ⟨heq, hfull⟩ := h.check_near hc
      rw [List.length_cons] at hle
      obtain ⟨f, t', T', N', hdrop, hfold, hfull', hperm, htop⟩ := ih hfull (by omega)
      refine ⟨f, t', T', N', hdrop, heq ▸ hfold, hfull', hperm.trans ?_, ?_⟩
      · rw [List.filter_cons_of_pos (by simpa using hc)]
        exact ((push_perm N c).append_right _).trans List.perm_middle.symm
      · simpa only [late_cons, hc.ne, false_and, false_or] using htop
    · rw [if_neg hc.not_lt, Nat.add_zero] at hle ⊢
      rw [List.filter_cons_of_neg (by simp [hc])]
      rcases lt_or_ge t.2.id c.2.id with hid | hid
      · -- a new top, which counts if no nearer value follows
        obtain ⟨heq, hfull⟩ := h.check_tied hc hid
        obtain ⟨f, t', T', N', hdrop, hfold, hfull', hperm, htop⟩ := ih hfull hle
        rcases Nat.eq_zero_or_pos (nearer d V) with hzero | hpos
        · rw [hzero] at hdrop ⊢
          obtain ⟨rfl, rfl⟩ := List.cons.inj hdrop
          refine ⟨t, t', T, N', rfl, heq ▸ hfold, hfull', hperm, ?_, ?_⟩
          · rcases htop.1 with h | h
            · exact .inr (late_cons.mpr (.inl ⟨hc, h.symm, by rwa [List.append_nil]⟩))
            · exact .inr (late_cons.mpr (.inr h))
          · rintro id (rfl | hlate)
            · exact hid.le.trans (htop.2 (.inl rfl))
            · rcases late_cons.mp hlate with ⟨-, rfl, -⟩ | hlate
              · exact htop.2 (.inl rfl)
              · exact htop.2 (.inr hlate)
        · refine ⟨f, t', T', N', ?_, heq ▸ hfold, hfull', hperm, ?_⟩
          · obtain ⟨m, hm⟩ := Nat.exists_eq_succ_of_ne_zero hpos.ne'
            rw [hm] at hdrop ⊢
            exact hdrop
          · simpa only [late_cons, List.append_nil, hpos.ne', and_false, false_or] using htop
      · -- the top stays, and it is at least as large
        rw [h.check_refused hc.ge fun _ => hid]
        obtain ⟨f, t', T', N', hdrop, hfold, hfull', hperm, htop⟩ := ih h hle
        refine ⟨f, t', T', N', hdrop, hfold, hfull', hperm, ?_, ?_⟩
        · exact htop.1.imp_right fun h => late_cons.mpr (.inr h)
        · rintro id (rfl | hlate)
          · exact htop.2 (.inl rfl)
          · rcases late_cons.mp hlate with ⟨-, rfl, hzero⟩ | hlate
            · rw [List.append_nil] at hzero
              rw [hzero] at hdrop
              obtain ⟨rfl, -⟩ := List.cons.inj hdrop
              exact hid.trans (htop.2 (.inl rfl))
            · exact htop.2 (.inr hlate)
    · rw [if_neg hc.not_gt, Nat.add_zero] at hle ⊢
      rw [List.filter_cons_of_neg (by simp [hc.le]),
        h.check_refused hc.le fun heq => absurd heq hc.ne']
      obtain ⟨f, t', T', N', hdrop, hfold, hfull', hperm, htop⟩ := ih h hle
      refine ⟨f, t', T', N', hdrop, hfold, hfull', hperm, ?_⟩
      simpa only [late_cons, hc.ne', false_and, false_or] using htop

/-! ## The base -/

theorem FullAt.checkBase_cons (h : FullAt k d (t :: T) N) (c : FT × Value)
    (cs : List (FT × Value)) :
    checkBase k (t :: T ++ N) (c :: cs) =
      if replaces c t then checkBase k (push maxHeapCmp (T ++ N) c) cs else t :: T ++ N := by
  rw [checkBase, if_neg (not_lt.mpr h.length.ge)]
  rfl

/-- A nearer value of the base removes the top as well. -/
theorem FullAt.checkBase_near (h : FullAt k d (t :: T) N) (hc : c.1 < d)
    (cs : List (FT × Value)) :
    checkBase k (t :: T ++ N) (c :: cs) = checkBase k (T ++ push maxHeapCmp N c) cs := by
  have ht : c.1 < t.1 := hc.trans_eq (h.tied t List.mem_cons_self).symm
  have hrep : replaces c t = true := (replaces_iff c t).mpr (.inl ht)
  have heq := (h.check_near hc).1
  rw [h.check, if_pos hrep] at heq
  rw [h.checkBase_cons, if_pos hrep, heq]

/-- Nearer values of the base go in like pending ones. -/
theorem FullAt.checkBase_append (near C : List (FT × Value)) : ∀ {T N : List (FT × Value)},
    FullAt k d T N → (∀ c ∈ near, c.1 < d) → near.length ≤ T.length →
    checkBase k (T ++ N) (near ++ C) = checkBase k (near.foldl (checkPending k) (T ++ N)) C := by
  induction near with
  | nil => exact fun _ _ _ => rfl
  | cons c near ih =>
    intro T N h hnear hle
    obtain ⟨t, T, rfl⟩ := List.exists_cons_of_length_pos (hle.trans_lt' (Nat.succ_pos _))
    have hc := hnear c List.mem_cons_self
    obtain ⟨heq, hfull⟩ := h.check_near hc
    rw [List.foldl_cons, heq]
    refine (h.checkBase_near hc (near ++ C)).trans (ih hfull (fun y hy => ?_) ?_)
    · exact hnear y (List.mem_cons_of_mem c hy)
    · exact Nat.le_of_succ_le_succ hle

/-- When the nearer values of the base remove all tied ones, it does not matter which they were. -/
theorem FullAt.checkBase_agree (near C : List (FT × Value)) : ∀ {T T' N : List (FT × Value)},
    FullAt k d T N → FullAt k d T' N → (∀ c ∈ near, c.1 < d) → T.length ≤ near.length →
    checkBase k (T ++ N) (near ++ C) = checkBase k (T' ++ N) (near ++ C) := by
  induction near with
  | nil =>
    intro T T' N h h' _ hle
    have hlen := h.length.trans h'.length.symm
    rw [List.length_append, List.length_append] at hlen
    rw [List.length_nil] at hle
    rw [List.length_eq_zero_iff.mp (by omega : T.length = 0),
      List.length_eq_zero_iff.mp (by omega : T'.length = 0)]
  | cons c near ih =>
    intro T T' N h h' hnear hle
    have hlen := h.length.trans h'.length.symm
    rw [List.length_append, List.length_append] at hlen
    have hc := hnear c List.mem_cons_self
    rcases T with _ | ⟨t, T⟩
    · rw [List.length_nil] at hlen
      rw [List.length_eq_zero_iff.mp (by omega : T'.length = 0)]
    · obtain ⟨t', T', rfl⟩ := List.exists_cons_of_length_pos (show 0 < T'.length by
        rw [List.length_cons] at hlen
        omega)
      calc checkBase k (t :: T ++ N) (c :: near ++ C)
          = checkBase k (T ++ push maxHeapCmp N c) (near ++ C) := h.checkBase_near hc _
        _ = checkBase k (T' ++ push maxHeapCmp N c) (near ++ C) :=
          ih (h.check_near hc).2 (h'.check_near hc).2
            (fun y hy => hnear y (List.mem_cons_of_mem c hy)) (Nat.le_of_succ_le_succ hle)
        _ = checkBase k (t' :: T' ++ N) (c :: near ++ C) := (h'.checkBase_near hc _).symm

/-- The identifier on top after tied values of the base: each one must be larger than the last. -/
def climb (d : FT) (id : ℕ) : List (FT × Value) → ℕ
  | [] => id
  | c :: cs => if c.1 = d ∧ id < c.2.id then climb d c.2.id cs else id

theorem le_climb (cs : List (FT × Value)) : ∀ id, id ≤ climb d id cs := by
  induction cs with
  | nil => exact fun id => le_rfl
  | cons c cs ih =>
    intro id
    unfold climb
    split_ifs with h
    · exact h.2.le.trans (ih _)
    · exact le_rfl

theorem climb_eq_or_mem (cs : List (FT × Value)) : ∀ id,
    climb d id cs = id ∨ ∃ c ∈ cs, c.1 = d ∧ c.2.id = climb d id cs := by
  induction cs with
  | nil => exact fun id => .inl rfl
  | cons c cs ih =>
    intro id
    unfold climb
    split_ifs with h
    · rcases ih c.2.id with heq | ⟨y, hy, hyd⟩
      · exact .inr ⟨c, List.mem_cons_self, h.1, heq.symm⟩
      · exact .inr ⟨y, List.mem_cons_of_mem c hy, hyd⟩
    · exact .inl rfl

/-- Behind the nearer values only the top can change. -/
theorem FullAt.checkBase_climb (cs : List (FT × Value)) : ∀ {t : FT × Value},
    FullAt k d (t :: T) N → (∀ c ∈ cs, d ≤ c.1) →
    ∃ t', checkBase k (t :: T ++ N) cs = t' :: T ++ N ∧ FullAt k d (t' :: T) N ∧
      t'.2.id = climb d t.2.id cs := by
  induction cs with
  | nil => exact fun h _ => ⟨_, rfl, h, rfl⟩
  | cons c cs ih =>
    intro t h hcs
    have hc := hcs c List.mem_cons_self
    unfold climb
    rw [h.checkBase_cons]
    split_ifs with hrep hup hup
    · obtain ⟨heq, hfull⟩ := h.check_tied hup.1 hup.2
      rw [h.check, if_pos hrep] at heq
      rw [heq]
      exact ih hfull fun y hy => hcs y (List.mem_cons_of_mem c hy)
    · refine absurd hrep (Bool.eq_false_iff.mp (h.refused hc fun heq => ?_))
      exact not_lt.mp fun hlt => hup ⟨heq, hlt⟩
    · refine absurd ((replaces_iff c t).mpr (.inr ⟨?_, hup.2⟩)) hrep
      exact hup.1.trans (h.tied t List.mem_cons_self).symm
    · exact ⟨t, rfl, h, rfl⟩

/-! ## Which values fill the heap -/

/-- A heap within a distance splits into the tied values and the nearer ones. -/
theorem exists_split (hsorted : Q.Pairwise fun a b => heapKey b ≤ heapKey a)
    (hQ : ∀ c ∈ Q, c.1 ≤ d) :
    ∃ T N, Q = T ++ N ∧ (∀ c ∈ T, c.1 = d) ∧ ∀ c ∈ N, c.1 < d := by
  induction Q with
  | nil => exact ⟨[], [], rfl, by simp, by simp⟩
  | cons c Q ih =>
    obtain ⟨hc, hsorted⟩ := List.pairwise_cons.mp hsorted
    rcases (hQ c List.mem_cons_self).lt_or_eq with hlt | heq
    · refine ⟨[], c :: Q, rfl, by simp, fun y hy => ?_⟩
      rcases List.mem_cons.mp hy with rfl | hy
      · exact hlt
      · exact (fst_le_of_heapKey_le (hc y hy)).trans_lt hlt
    · obtain ⟨T, N, rfl, hT, hN⟩ := ih hsorted fun y hy => hQ y (List.mem_cons_of_mem c hy)
      refine ⟨c :: T, N, rfl, fun y hy => ?_, hN⟩
      rcases List.mem_cons.mp hy with rfl | hy
      · exact heq
      · exact hT y hy

/-- When fewer than `k` values are nearer and at least `k` are within a distance, the heap is full of
all nearer values and of tied ones; if there are exactly `k`, of all of them. -/
theorem run_split (hk : 0 < k) (hlt : nearer d W < k) (hle : k ≤ within d W) :
    ∃ T N, run k W = T ++ N ∧ FullAt k d T N ∧ N.Perm (W.filter fun c => c.1 < d) ∧
      (within d W = k → T.Perm (W.filter fun c => c.1 = d)) := by
  have h := heap_run hk W
  obtain ⟨rest, hperm, hfar⟩ := h.nearest.rest
  have hlen : (run k W).length = k :=
    h.nearest.length.trans (min_eq_left (hle.trans List.countP_le_length))
  have hwithin : within d (run k W) + within d rest = within d W := by
    rw [← within_append, within_perm hperm]
  have hnearer : nearer d (run k W) + nearer d rest = nearer d W := by
    rw [← nearer_append, nearer_perm hperm]
  have hQ : ∀ c ∈ run k W, c.1 ≤ d := by
    by_contra hno
    push Not at hno
    obtain ⟨y, hy, hyd⟩ := hno
    have hrest : within d rest = 0 := List.countP_eq_zero.mpr fun z hz => by
      simpa using hyd.trans_le (hfar y hy z hz)
    have hall := List.countP_eq_length.mp
      (le_antisymm List.countP_le_length (by unfold within at *; omega) :
        (run k W).countP (fun c => c.1 ≤ d) = (run k W).length) y hy
    exact absurd hyd (not_lt.mpr (of_decide_eq_true hall))
  have hrest : ∀ z ∈ rest, d ≤ z.1 := by
    by_contra hno
    push Not at hno
    obtain ⟨z, hz, hzd⟩ := hno
    have hall : nearer d (run k W) = (run k W).length := List.countP_eq_length.mpr fun y hy => by
      simpa using (hfar y hy z hz).trans_lt hzd
    omega
  obtain ⟨T, N, heq, hT, hN⟩ := exists_split h.sorted hQ
  rw [heq] at hperm hlen
  refine ⟨T, N, heq, ⟨hlen, heq ▸ h.sorted, hT, hN⟩, ?_, fun hexact => ?_⟩
  · refine List.Perm.trans (List.Perm.of_eq ?_) (hperm.filter _)
    rw [List.filter_append, List.filter_append, List.filter_eq_nil_iff.mpr, List.filter_eq_self.mpr,
      List.filter_eq_nil_iff.mpr, List.nil_append, List.append_nil]
    · exact fun z hz => by simpa using hrest z hz
    · exact fun c hc => by simpa using hN c hc
    · exact fun c hc => by simp [hT c hc]
  · have hzero : within d rest = 0 := by
      have hfull : within d (run k W) = (run k W).length :=
        List.countP_eq_length.mpr fun y hy => by simpa using hQ y hy
      rw [heq] at hfull hwithin
      omega
    refine List.Perm.trans (List.Perm.of_eq ?_) (hperm.filter _)
    rw [List.filter_append, List.filter_append, List.filter_eq_self.mpr, List.filter_eq_nil_iff.mpr,
      List.filter_eq_nil_iff.mpr, List.append_nil, List.append_nil]
    · intro z hz
      have := List.countP_eq_zero.mp hzero z hz
      simp only [decide_eq_true_eq, not_le] at this
      simpa using this.ne'
    · exact fun c hc => by simpa using (hN c hc).ne
    · exact fun c hc => by simpa using hT c hc

/-- The position of a tied value is the number of those below it. -/
theorem tiedBelow_split {X : List (FT × Value)} {f : FT × Value}
    (htied : ∀ c ∈ X ++ f :: T, c.1 = d)
    (hdesc : (X ++ f :: T).Pairwise fun a b => b.2.id < a.2.id) :
    tiedBelow d (X ++ f :: T) f.2.id = T.length ∧
      (∀ c ∈ T, tiedBelow d (X ++ f :: T) c.2.id < T.length) ∧
      ∀ c ∈ X, T.length < tiedBelow d (X ++ f :: T) c.2.id := by
  obtain ⟨-, hfT, hX⟩ := List.pairwise_append.mp hdesc
  obtain ⟨hf, -⟩ := List.pairwise_cons.mp hfT
  have hT : ∀ c ∈ T, c.1 = d := fun c hc => htied c (by simp [hc])
  have hfd : f.1 = d := htied f (by simp)
  have hbelow : ∀ id, (∀ c ∈ T, c.2.id < id) → tiedBelow d T id = T.length := fun id hid =>
    List.countP_eq_length.mpr fun c hc => by simp [hT c hc, hid c hc]
  have habove : ∀ id, (∀ c ∈ X, id ≤ c.2.id) → tiedBelow d X id = 0 := fun id hid =>
    List.countP_eq_zero.mpr fun c hc => by simp [hid c hc]
  have hsplit : ∀ id, tiedBelow d (X ++ f :: T) id =
      tiedBelow d X id + (tiedBelow d T id + if f.2.id < id then 1 else 0) := by
    intro id
    simp only [tiedBelow, List.countP_append, List.countP_cons, hfd, true_and, decide_eq_true_eq]
  refine ⟨?_, fun c hc => ?_, fun c hc => ?_⟩
  · rw [hsplit, hbelow _ hf, habove _ fun c hc => (hX c hc f List.mem_cons_self).le,
      if_neg (lt_irrefl _)]
    omega
  · rw [hsplit, habove _ fun y hy => (hX y hy c (List.mem_cons_of_mem f hc)).le,
      if_neg (hf c hc).not_gt, Nat.zero_add, Nat.add_zero]
    refine lt_of_le_of_ne List.countP_le_length fun heq => ?_
    have := List.countP_eq_length.mp heq c hc
    simp at this
  · rw [hsplit, hbelow _ fun y hy => hX c hc y (List.mem_cons_of_mem f hy),
      if_pos (hX c hc f List.mem_cons_self)]
    omega

end FullAt

end Rlog

end Silva
