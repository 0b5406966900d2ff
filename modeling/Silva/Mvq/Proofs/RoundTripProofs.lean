import Silva.Mvq.Proofs.DiffProofs

/-!
# Proofs: a difference applied as a commit

A commit on contents without repeated keys is a set operation on keys. Applying the difference of
two versions to the first one therefore gives the keys of the second, but keeps the coordinates that
the first one has for the keys they share.
-/

namespace Silva

open BaseNode

variable {leafSize : Nat} {t t1 t2 : BaseNode}

/-! ## Keys, identifiers and contents -/

theorem nodup_key_of_nodup_id {P : List Point} (h : (P.map Point.id).Nodup) :
    (P.map Point.key).Nodup := by
  have hid : (P.map Point.key).map (fun k => (ofLex k).2) = P.map Point.id := by
    simp [Point.key, Function.comp_def]
  rw [← hid] at h
  exact h.of_map

theorem removesOf_eq_minus {P Q : List Point} (hP : SortedByKey P) (hQ : SortedByKey Q)
    (hnd : (P.map Point.key).Nodup) : removesOf P Q = minus P Q :=
  survivors_eq_filter hP hQ hnd

theorem mem_minus {P Q : List Point} {p : Point} :
    p ∈ minus P Q ↔ p ∈ P ∧ ∀ q ∈ Q, q.key ≠ p.key := by
  unfold minus
  rw [List.mem_filter]
  simp

/-- The difference of two versions, as set operations on keys. -/
theorem twoVersionDiff_eq_minus (h1 : Version leafSize t1) (h2 : Version leafSize t2)
    (hid1 : ((Tree.collectRecords t1).map Point.id).Nodup)
    (hid2 : ((Tree.collectRecords t2).map Point.id).Nodup) (ptr : PtrEq t1 t2) :
    Tree.twoVersionDiff t1 t2 ptr =
      (minus (Tree.collectRecords t2) (Tree.collectRecords t1),
        minus (Tree.collectRecords t1) (Tree.collectRecords t2)) := by
  rw [twoVersionDiff_eq h1 h2, addsOf_eq_removesOf,
    removesOf_eq_minus h2.batch.sorted h1.batch.sorted (nodup_key_of_nodup_id hid2),
    removesOf_eq_minus h1.batch.sorted h2.batch.sorted (nodup_key_of_nodup_id hid1)]

/-- A commit of points that carry their codes. -/
theorem Version.commit_contents (ht : Version leafSize t)
    (hnd : ((Tree.collectRecords t).map Point.key).Nodup) {I D : List Point}
    (hI : ∀ p ∈ I, p.Coded) (hD : ∀ p ∈ D, p.Coded) :
    ∃ t', Tree.commit leafSize t I D = some t' ∧ Version leafSize t' ∧
      (Tree.collectRecords t').Perm (minus (Tree.collectRecords t) D ++ I) := by
  have hold : Holds leafSize t (Tree.collectRecords t) := ⟨_, List.Perm.refl _, ht.isVersion⟩
  obtain ⟨t', ht', P, hP, hw⟩ := hold.commit hnd I D
  unfold withCodes at hP
  rw [map_code_eq_self hI, map_code_eq_self hD] at hP
  refine ⟨t', ht', hw.version, ?_⟩
  rwa [WellFormed.collectRecords hw]

/-- Points that carry their codes and agree in identifier and coordinates are equal. -/
theorem Point.Coded.ext {p q : Point} (hp : p.Coded) (hq : q.Coded) (hid : p.id = q.id)
    (hx : p.x = q.x) (hy : p.y = q.y) : p = q := by
  have hcode : p.mortonId = q.mortonId := by
    rw [hp, hq]
    unfold Point.interleaveBits
    rw [hx, hy]
  cases p
  cases q
  simp_all

/-- Two records have the same key when the identifiers agree and the coordinates lie in one cell. -/
theorem key_eq_iff_floor {p q : Point} (hp : p.Coded) (hq : q.Coded) (hdp : p.InDomain)
    (hdq : q.InDomain) :
    p.key = q.key ↔ p.id = q.id ∧ ⌊p.x⌋₊ = ⌊q.x⌋₊ ∧ ⌊p.y⌋₊ = ⌊q.y⌋₊ := by
  rw [key_eq_iff, hp, hq, interleaveBits_inj, toUint_eq_floor hdp.x_lt, toUint_eq_floor hdq.x_lt,
    toUint_eq_floor hdp.y_lt, toUint_eq_floor hdq.y_lt]
  tauto

/-! ## The round trip -/

/-- What a user sees of a record. -/
def Point.placed (p : Point) : ℕ × FT × FT := (p.id, p.x, p.y)

/-- Both versions hold the same identifiers at the same coordinates. -/
def SamePoints (t t' : BaseNode) : Prop :=
  ((Tree.collectRecords t).map Point.placed).Perm ((Tree.collectRecords t').map Point.placed)

/-- Committing a difference to its first version gives the points of the second one exactly when no
identifier moved within a unit cell. -/
theorem round_trip_iff (h1 : Version leafSize t1) (h2 : Version leafSize t2)
    (hid1 : ((Tree.collectRecords t1).map Point.id).Nodup)
    (hid2 : ((Tree.collectRecords t2).map Point.id).Nodup)
    (hdom1 : ∀ p ∈ Tree.collectRecords t1, p.InDomain)
    (hdom2 : ∀ p ∈ Tree.collectRecords t2, p.InDomain) (ptr : PtrEq t1 t2) :
    (∃ t', Tree.commit leafSize t1 (Tree.twoVersionDiff t1 t2 ptr).1
        (Tree.twoVersionDiff t1 t2 ptr).2 = some t' ∧ SamePoints t' t2) ↔
      ∀ p ∈ Tree.collectRecords t1, ∀ q ∈ Tree.collectRecords t2, p.id = q.id →
        ⌊p.x⌋₊ = ⌊q.x⌋₊ → ⌊p.y⌋₊ = ⌊q.y⌋₊ → p.x = q.x ∧ p.y = q.y := by
  have hc1 := h1.batch.coded
  have hc2 := h2.batch.coded
  rw [twoVersionDiff_eq_minus h1 h2 hid1 hid2]
  obtain ⟨t', ht', hv', hperm⟩ := h1.commit_contents (nodup_key_of_nodup_id hid1)
    (fun p hp => hc2 p (mem_minus.mp hp).1) (fun p hp => hc1 p (mem_minus.mp hp).1)
  constructor
  · rintro ⟨t'', ht'', hsame⟩ p hp q hq hid hx hy
    obtain rfl : t'' = t' := by rw [ht'] at ht''; exact (Option.some.inj ht'').symm
    have hkey : p.key = q.key :=
      (key_eq_iff_floor (hc1 p hp) (hc2 q hq) (hdom1 p hp) (hdom2 q hq)).mpr ⟨hid, hx, hy⟩
    -- the record of the first version survives, so the second one has it
    have hp' : p ∈ Tree.collectRecords t'' := by
      refine hperm.mem_iff.mpr (List.mem_append_left _ (mem_minus.mpr ⟨hp, fun r hr hrp => ?_⟩))
      exact (mem_minus.mp hr).2 q hq (by rw [hrp, hkey])
    obtain ⟨q', hq', hplaced⟩ :=
      List.mem_map.mp (hsame.mem_iff.mp (List.mem_map_of_mem (f := Point.placed) hp'))
    simp only [Point.placed, Prod.mk.injEq] at hplaced
    obtain rfl : q' = q := List.inj_on_of_nodup_map hid2 hq' hq (hplaced.1.trans hid)
    exact ⟨hplaced.2.1.symm, hplaced.2.2.symm⟩
  · intro hcell
    refine ⟨t', ht', (hperm.trans ?_).map _⟩
    have hkeep : ∀ p ∈ Tree.collectRecords t1, ∀ q ∈ Tree.collectRecords t2, p.key = q.key → p = q := by
      intro p hp q hq hkey
      obtain ⟨hid, hx, hy⟩ :=
        (key_eq_iff_floor (hc1 p hp) (hc2 q hq) (hdom1 p hp) (hdom2 q hq)).mp hkey
      obtain ⟨hx', hy'⟩ := hcell p hp q hq hid hx hy
      exact (hc1 p hp).ext (hc2 q hq) hid hx' hy'
    have hnd1 := (hid1.of_map : (Tree.collectRecords t1).Nodup)
    have hnd2 := (hid2.of_map : (Tree.collectRecords t2).Nodup)
    rw [List.perm_ext_iff_of_nodup ?_ hnd2]
    · intro p
      rw [List.mem_append, mem_minus, mem_minus]
      constructor
      · rintro (⟨hp, hno⟩ | ⟨hp, -⟩)
        · by_contra hp2
          refine hno p (mem_minus.mpr ⟨hp, fun q hq hkey => hp2 ?_⟩) rfl
          rwa [hkeep p hp q hq hkey.symm]
        · exact hp
      · intro hp
        by_cases hp1 : p ∈ Tree.collectRecords t1
        · exact Or.inl ⟨hp1, fun q hq hkey => (mem_minus.mp hq).2 p hp hkey.symm⟩
        · refine Or.inr ⟨hp, fun q hq hkey => hp1 ?_⟩
          rwa [← hkeep q hq p hp hkey]
    · refine List.Nodup.append (hnd1.filter _) (hnd2.filter _) ?_
      intro p hp hp'
      exact (mem_minus.mp hp').2 p (mem_minus.mp hp).1 rfl

/-- A move into another cell is carried over. -/
theorem round_trip_iff_move :
    ∃ t', Tree.commit 16 (Tree.build 16 [⟨1, 5 / 4, 1, 3⟩])
        (Tree.twoVersionDiff (Tree.build 16 [⟨1, 5 / 4, 1, 3⟩]) (Tree.build 16 [⟨1, 5 / 2, 1, 9⟩])
          (.distinct _ _)).1
        (Tree.twoVersionDiff (Tree.build 16 [⟨1, 5 / 4, 1, 3⟩]) (Tree.build 16 [⟨1, 5 / 2, 1, 9⟩])
          (.distinct _ _)).2 = some t' ∧
      SamePoints t' (Tree.build 16 [⟨1, 5 / 2, 1, 9⟩]) := by
  have h1 : Version 16 (Tree.build 16 [⟨1, 5 / 4, 1, 3⟩]) :=
    .build ⟨by decide +kernel, by decide +kernel⟩
  have h2 : Version 16 (Tree.build 16 [⟨1, 5 / 2, 1, 9⟩]) :=
    .build ⟨by decide +kernel, by decide +kernel⟩
  have hdom1 : ∀ p ∈ Tree.collectRecords (Tree.build 16 [⟨1, 5 / 4, 1, 3⟩]), p.InDomain := by
    intro p hp
    obtain rfl : p = ⟨1, 5 / 4, 1, 3⟩ := List.mem_singleton.mp hp
    exact ⟨by norm_num, by norm_num, by norm_num, by norm_num⟩
  have hdom2 : ∀ p ∈ Tree.collectRecords (Tree.build 16 [⟨1, 5 / 2, 1, 9⟩]), p.InDomain := by
    intro p hp
    obtain rfl : p = ⟨1, 5 / 2, 1, 9⟩ := List.mem_singleton.mp hp
    exact ⟨by norm_num, by norm_num, by norm_num, by norm_num⟩
  exact (round_trip_iff h1 h2 (by decide) (by decide) hdom1 hdom2 (.distinct _ _)).mpr
    (by decide +kernel)

/-- A move from `(5/4, 1)` to `(3/2, 1)` is lost. -/
theorem round_trip_fails :
    ¬ ∀ (leafSize : ℕ) (t1 t2 : BaseNode) (ptr : PtrEq t1 t2), Version leafSize t1 →
      Version leafSize t2 → ((Tree.collectRecords t1).map Point.id).Nodup →
      ((Tree.collectRecords t2).map Point.id).Nodup →
      (∀ p ∈ Tree.collectRecords t1, p.InDomain) → (∀ p ∈ Tree.collectRecords t2, p.InDomain) →
      ∃ t', Tree.commit leafSize t1 (Tree.twoVersionDiff t1 t2 ptr).1
        (Tree.twoVersionDiff t1 t2 ptr).2 = some t' ∧ SamePoints t' t2 := by
  intro h
  have h1 : Version 16 (Tree.build 16 [⟨1, 5 / 4, 1, 3⟩]) :=
    .build ⟨by decide +kernel, by decide +kernel⟩
  have h2 : Version 16 (Tree.build 16 [⟨1, 3 / 2, 1, 3⟩]) :=
    .build ⟨by decide +kernel, by decide +kernel⟩
  have hdom1 : ∀ p ∈ Tree.collectRecords (Tree.build 16 [⟨1, 5 / 4, 1, 3⟩]), p.InDomain := by
    intro p hp
    obtain rfl : p = ⟨1, 5 / 4, 1, 3⟩ := List.mem_singleton.mp hp
    exact ⟨by norm_num, by norm_num, by norm_num, by norm_num⟩
  have hdom2 : ∀ p ∈ Tree.collectRecords (Tree.build 16 [⟨1, 3 / 2, 1, 3⟩]), p.InDomain := by
    intro p hp
    obtain rfl : p = ⟨1, 3 / 2, 1, 3⟩ := List.mem_singleton.mp hp
    exact ⟨by norm_num, by norm_num, by norm_num, by norm_num⟩
  obtain ⟨t', ht', hsame⟩ := h 16 _ _ (.distinct _ _) h1 h2 (by decide) (by decide) hdom1 hdom2
  have hcommit : Tree.commit 16 (Tree.build 16 [⟨1, 5 / 4, 1, 3⟩])
      (Tree.twoVersionDiff (Tree.build 16 [⟨1, 5 / 4, 1, 3⟩]) (Tree.build 16 [⟨1, 3 / 2, 1, 3⟩])
        (.distinct _ _)).1
      (Tree.twoVersionDiff (Tree.build 16 [⟨1, 5 / 4, 1, 3⟩]) (Tree.build 16 [⟨1, 3 / 2, 1, 3⟩])
        (.distinct _ _)).2 = some (Tree.build 16 [⟨1, 5 / 4, 1, 3⟩]) := by decide +kernel
  rw [hcommit] at ht'
  cases ht'
  have hplaced : ((1, 5 / 4, 1) : ℕ × FT × FT) ∈
      (Tree.collectRecords (Tree.build 16 [⟨1, 3 / 2, 1, 3⟩])).map Point.placed :=
    hsame.mem_iff.mp (by decide +kernel)
  revert hplaced
  decide +kernel

end Silva
