import Silva.Mvq.Proofs.MergeProofs

/-!
# Proofs: conflicts and symmetry of the merge

A pairing by identifier reports a conflict exactly where both lists have different changes, so the
three conflict lists are exact. Exchanging the branches exchanges the two points of a conflict and
nothing else.
-/

namespace Silva

open BaseNode KeyedList

variable {leafSize : Nat} {base node1 node2 : BaseNode}

/-! ## One identifier -/

/-- A pairing of plain points reports a conflict when both lists have the identifier, differently. -/
theorem conflictAt_eq_pair {s t : Option Point} {i : Nat}
    (hs : ∀ p, s = some p → Plain p ∧ p.id = i) (ht : ∀ p, t = some p → Plain p ∧ p.id = i)
    {p q : Point} (hp : s = some p) (hq : t = some q) (hne : p ≠ q) : conflictAt s t = [p, q] := by
  subst hp
  subst hq
  rw [conflictAt, if_neg (by rwa [(hs p rfl).1.eqv_iff (ht q rfl).1])]

theorem conflictAt_ne_nil {s t : Option Point} {i : Nat}
    (hs : ∀ p, s = some p → Plain p ∧ p.id = i) (ht : ∀ p, t = some p → Plain p ∧ p.id = i) :
    conflictAt s t ≠ [] ↔ ∃ p q, s = some p ∧ t = some q ∧ p ≠ q := by
  constructor
  · intro hne
    rcases s with _ | p <;> rcases t with _ | q
    · exact absurd rfl hne
    · exact absurd rfl hne
    · exact absurd rfl hne
    · refine ⟨p, q, rfl, rfl, ?_⟩
      rintro rfl
      rw [conflictAt, if_pos ((hs p rfl).1.eqv_iff (ht p rfl).1 |>.mpr rfl)] at hne
      exact hne rfl
  · rintro ⟨p, q, hp, hq, hne⟩
    rw [conflictAt_eq_pair hs ht hp hq hne]
    simp

theorem deleted_eq_some {b s : Option Point} {p : Point} :
    deleted b s = some p ↔ b = some p ∧ s = none := by
  rcases b with _ | c <;> rcases s with _ | q <;> simp [deleted]

theorem inserted_eq_some {b s : Option Point} {p : Point} :
    inserted b s = some p ↔ b = none ∧ s = some p := by
  rcases b with _ | c <;> simp [inserted]

section At

variable {b s1 s2 : Option Point} {i : Nat} (h : States b s1 s2 i)

include h

/-- The states of one identifier differ exactly when the places differ. -/
theorem States.ne_iff {p q : Point} (hp : s1 = some p) (hq : s2 = some q) :
    p ≠ q ↔ ¬SamePlace p q := by
  obtain ⟨hpp, hpi⟩ := h.state1 p hp
  obtain ⟨hqq, hqi⟩ := h.state2 q hq
  exact not_congr (hpp.eq_iff_samePlace hqq (hpi.trans hqi.symm))

theorem States.base_ne_iff {c p : Point} (hc : b = some c) (hp : s1 = some p) :
    p ≠ c ↔ ¬SamePlace p c := by
  obtain ⟨hcc, hci⟩ := h.base c hc
  obtain ⟨hpp, hpi⟩ := h.state1 p hp
  exact not_congr (hpp.eq_iff_samePlace hcc (hpi.trans hci.symm))

theorem States.moved_eq_some {p : Point} :
    Silva.moved b s1 = some p ↔ ∃ c, b = some c ∧ s1 = some p ∧ ¬SamePlace p c := by
  rcases b with _ | c <;> rcases s1 with _ | q
  · simp [Silva.moved]
  · simp [Silva.moved]
  · simp [Silva.moved]
  · rw [Silva.moved]
    have hne := h.base_ne_iff rfl rfl
    by_cases hq : q = c
    · rw [if_pos hq]
      constructor
      · intro hp
        cases hp
      · rintro ⟨c', hc', hp, hplace⟩
        cases hc'
        cases hp
        exact absurd hq (hne.mpr hplace)
    · rw [if_neg hq]
      constructor
      · intro hp
        cases hp
        exact ⟨c, rfl, rfl, hne.mp hq⟩
      · rintro ⟨c', hc', hp, -⟩
        exact hp

theorem States.insertConflict_iff :
    conflictAt (Silva.inserted b s1) (Silva.inserted b s2) ≠ [] ↔ InsertConflict b s1 s2 := by
  rw [conflictAt_ne_nil h.inserted h.symm.inserted]
  unfold InsertConflict
  constructor
  · rintro ⟨p, q, hp, hq, hne⟩
    obtain ⟨hb, hp⟩ := inserted_eq_some.mp hp
    obtain ⟨-, hq⟩ := inserted_eq_some.mp hq
    exact ⟨hb, p, q, hp, hq, (h.ne_iff hp hq).mp hne⟩
  · rintro ⟨hb, p, q, hp, hq, hne⟩
    exact ⟨p, q, inserted_eq_some.mpr ⟨hb, hp⟩, inserted_eq_some.mpr ⟨hb, hq⟩,
      (h.ne_iff hp hq).mpr hne⟩

theorem States.insertConflict_points (hc : InsertConflict b s1 s2) :
    ∃ p q, s1 = some p ∧ s2 = some q ∧
      conflictAt (Silva.inserted b s1) (Silva.inserted b s2) = [p, q] := by
  obtain ⟨hb, p, q, hp, hq, hne⟩ := hc
  exact ⟨p, q, hp, hq, conflictAt_eq_pair h.inserted h.symm.inserted
    (inserted_eq_some.mpr ⟨hb, hp⟩) (inserted_eq_some.mpr ⟨hb, hq⟩) ((h.ne_iff hp hq).mpr hne)⟩

theorem States.updateConflict_iff :
    conflictAt (Silva.moved b s1) (Silva.moved b s2) ≠ [] ↔ UpdateConflict b s1 s2 := by
  rw [conflictAt_ne_nil h.moved h.symm.moved]
  unfold UpdateConflict
  constructor
  · rintro ⟨p, q, hp, hq, hne⟩
    obtain ⟨c, hc, hp, hpc⟩ := h.moved_eq_some.mp hp
    obtain ⟨c', hc', hq, hqc⟩ := h.symm.moved_eq_some.mp hq
    obtain rfl : c = c' := Option.some.inj (hc.symm.trans hc')
    exact ⟨c, p, q, hc, hp, hq, hpc, hqc, (h.ne_iff hp hq).mp hne⟩
  · rintro ⟨c, p, q, hc, hp, hq, hpc, hqc, hne⟩
    exact ⟨p, q, h.moved_eq_some.mpr ⟨c, hc, hp, hpc⟩, h.symm.moved_eq_some.mpr ⟨c, hc, hq, hqc⟩,
      (h.ne_iff hp hq).mpr hne⟩

theorem States.updateConflict_points (hc : UpdateConflict b s1 s2) :
    ∃ p q, s1 = some p ∧ s2 = some q ∧
      conflictAt (Silva.moved b s1) (Silva.moved b s2) = [p, q] := by
  obtain ⟨c, p, q, hc, hp, hq, hpc, hqc, hne⟩ := hc
  exact ⟨p, q, hp, hq, conflictAt_eq_pair h.moved h.symm.moved
    (h.moved_eq_some.mpr ⟨c, hc, hp, hpc⟩) (h.symm.moved_eq_some.mpr ⟨c, hc, hq, hqc⟩)
    ((h.ne_iff hp hq).mpr hne)⟩

/-- A deletion by the first branch against a move by the second one. -/
theorem States.delete_move {c q : Point} (hc : b = some c) (hs1 : s1 = none) (hq : s2 = some q)
    (hqc : ¬SamePlace q c) : conflictAt (Silva.deleted b s1) (Silva.moved b s2) = [c, q] :=
  conflictAt_eq_pair h.deleted h.symm.moved (deleted_eq_some.mpr ⟨hc, hs1⟩)
    (h.symm.moved_eq_some.mpr ⟨c, hc, hq, hqc⟩) ((h.symm.base_ne_iff hc hq).mpr hqc).symm

theorem States.delete_move_iff : conflictAt (Silva.deleted b s1) (Silva.moved b s2) ≠ [] ↔
    ∃ c, b = some c ∧ s1 = none ∧ ∃ q, s2 = some q ∧ ¬SamePlace q c := by
  constructor
  · intro hne
    obtain ⟨c, q, hc, hq, -⟩ := (conflictAt_ne_nil h.deleted h.symm.moved).mp hne
    obtain ⟨hc, hs1⟩ := deleted_eq_some.mp hc
    obtain ⟨c', hc', hq, hqc⟩ := h.symm.moved_eq_some.mp hq
    obtain rfl : c = c' := Option.some.inj (hc.symm.trans hc')
    exact ⟨c, hc, hs1, q, hq, hqc⟩
  · rintro ⟨c, hc, hs1, q, hq, hqc⟩
    rw [h.delete_move hc hs1 hq hqc]
    simp

theorem States.deleteConflict_iff :
    conflictAt (Silva.deleted b s1) (Silva.moved b s2) ++
        conflictAt (Silva.deleted b s2) (Silva.moved b s1) ≠ [] ↔ DeleteConflict b s1 s2 := by
  rw [Ne, List.append_eq_nil_iff, not_and_or, ← Ne, ← Ne, h.delete_move_iff, h.symm.delete_move_iff]
  unfold DeleteConflict
  constructor
  · rintro (⟨c, hc, hrest⟩ | ⟨c, hc, hrest⟩)
    · exact ⟨c, hc, Or.inl hrest⟩
    · exact ⟨c, hc, Or.inr hrest⟩
  · rintro ⟨c, hc, hrest | hrest⟩
    · exact Or.inl ⟨c, hc, hrest⟩
    · exact Or.inr ⟨c, hc, hrest⟩

theorem States.deleteConflict_points (hc : DeleteConflict b s1 s2) :
    ∃ c p, b = some c ∧ (s1 = some p ∨ s2 = some p) ∧
      conflictAt (Silva.deleted b s1) (Silva.moved b s2) ++
        conflictAt (Silva.deleted b s2) (Silva.moved b s1) = [c, p] := by
  obtain ⟨c, hc, ⟨hs, p, hp, hpc⟩ | ⟨hs, p, hp, hpc⟩⟩ := hc
  · refine ⟨c, p, hc, Or.inr hp, ?_⟩
    rw [h.delete_move hc hs hp hpc, hs, hp, hc]
    rfl
  · refine ⟨c, p, hc, Or.inl hp, ?_⟩
    rw [h.symm.delete_move hc hs hp hpc, hs, hp, hc]
    rfl

end At

/-! ## The whole merge -/

/-- Conflict detection is sound and complete. -/
theorem merge_conflicts_exact (hb : PlainVersion leafSize base) (h1 : PlainVersion leafSize node1)
    (h2 : PlainVersion leafSize node2) (ptr1 : PtrEq base node1) (ptr2 : PtrEq base node2) :
    ∃ ret, Tree.merge leafSize base node1 node2 ptr1 ptr2 = some ret ∧
      ∀ i, ConflictsExact ret (stateOf base i) (stateOf node1 i) (stateOf node2 i) i := by
  obtain ⟨newVer, hcommit, -, -⟩ := hb.commit_resolution h1 h2 ptr1 ptr2 rfl
  have hmerge := merge_eq leafSize ptr1 ptr2 rfl
  rw [hcommit] at hmerge
  refine ⟨_, hmerge, fun i => ?_⟩
  have hst := states hb h1 h2 i
  have hc1 := hb.changes h1 ptr1
  have hc2 := hb.changes h2 ptr2
  have hinsert := hc1.conflictInsert hc2 i
  have hupdate := hc1.conflictUpdate hc2 i
  have hdelete := hc1.conflictDelete hc2 i
  refine { insert_iff := ?_, update_iff := ?_, delete_iff := ?_, insert_points := fun hc => ?_,
           update_points := fun hc => ?_, delete_points := fun hc => ?_, insert_not_update := ?_,
           insert_not_delete := ?_, update_not_delete := ?_ }
  · rw [mem_map_id_iff, ← hst.insertConflict_iff, ← hinsert]
    rfl
  · rw [mem_map_id_iff, ← hst.updateConflict_iff, ← hupdate]
    rfl
  · rw [mem_map_id_iff, ← hst.deleteConflict_iff, ← hdelete]
    rfl
  · obtain ⟨p, q, hp, hq, hpoints⟩ := hst.insertConflict_points hc
    exact ⟨p, q, hp, hq, hinsert.trans hpoints⟩
  · obtain ⟨p, q, hp, hq, hpoints⟩ := hst.updateConflict_points hc
    exact ⟨p, q, hp, hq, hupdate.trans hpoints⟩
  · obtain ⟨c, p, hc, hp, hpoints⟩ := hst.deleteConflict_points hc
    exact ⟨c, p, hc, hp, hdelete.trans hpoints⟩
  · rintro ⟨⟨hn, -⟩, c, p, q, hs, -⟩
    rw [hn] at hs
    cases hs
  · rintro ⟨⟨hn, -⟩, c, hs, -⟩
    rw [hn] at hs
    cases hs
  · rintro ⟨⟨-, p, q, -, hp, hq, -⟩, c, -, ⟨hn, -⟩ | ⟨hn, -⟩⟩
    · rw [hn] at hp
      cases hp
    · rw [hn] at hq
      cases hq

/-- A deletion against a move. -/
theorem merge_conflicts_exact_delete :
    ∃ ret, Tree.merge 16 (Tree.build 16 [⟨1, 1, 1, 3⟩]) (Tree.build 16 [])
        (Tree.build 16 [⟨1, 5, 6, 54⟩]) (.distinct _ _) (.distinct _ _) = some ret ∧
      ∀ i, ConflictsExact ret (stateOf (Tree.build 16 [⟨1, 1, 1, 3⟩]) i)
        (stateOf (Tree.build 16 []) i) (stateOf (Tree.build 16 [⟨1, 5, 6, 54⟩]) i) i := by
  have hb : PlainVersion 16 (Tree.build 16 [⟨1, 1, 1, 3⟩]) :=
    plainVersion_singleton (by decide +kernel)
      ⟨1, 1, by norm_num, by norm_num, by norm_num, by norm_num⟩
  have h2 : PlainVersion 16 (Tree.build 16 [⟨1, 5, 6, 54⟩]) :=
    plainVersion_singleton (by decide +kernel)
      ⟨5, 6, by norm_num, by norm_num, by norm_num, by norm_num⟩
  have h1 : PlainVersion 16 (Tree.build 16 []) :=
    plainVersion_build Batch.nil (by decide) (by simp)
  exact merge_conflicts_exact hb h1 h2 (.distinct _ _) (.distinct _ _)

/-! ## Symmetry -/

theorem noConflictAt_comm {s t : Option Point} {i : Nat}
    (hs : ∀ p, s = some p → Plain p ∧ p.id = i) (ht : ∀ p, t = some p → Plain p ∧ p.id = i) :
    noConflictAt s t = noConflictAt t s := by
  rw [noConflictAt_eq hs ht, noConflictAt_eq ht hs]
  unfold threeWay
  rcases s with _ | p <;> rcases t with _ | q
  · rfl
  · rfl
  · rfl
  · by_cases h : p = q
    · rw [h]
    · simp [h, Ne.symm h]

theorem conflictAt_perm {s t : Option Point} {i : Nat}
    (hs : ∀ p, s = some p → Plain p ∧ p.id = i) (ht : ∀ p, t = some p → Plain p ∧ p.id = i) :
    (conflictAt s t).Perm (conflictAt t s) := by
  rcases s with _ | p <;> rcases t with _ | q
  · exact List.Perm.refl _
  · exact List.Perm.refl _
  · exact List.Perm.refl _
  · by_cases h : p = q
    · rw [h]
    · rw [conflictAt_eq_pair hs ht rfl rfl h, conflictAt_eq_pair ht hs rfl rfl (Ne.symm h)]
      exact List.Perm.swap q p []

/-- Sorting forgets the order in which plain points are given. -/
theorem getSortedPoints_eq_of_perm {P Q : List Point} (hP : ∀ p ∈ P, Plain p) (h : P.Perm Q) :
    getSortedPoints P = getSortedPoints Q := by
  have hQ : ∀ p ∈ Q, Plain p := fun p hp => hP p (h.mem_iff.mpr hp)
  have hPP := getSortedPoints_perm_self fun p hp => (hP p hp).coded
  have hQQ := getSortedPoints_perm_self fun p hp => (hQ p hp).coded
  refine List.Perm.eq_of_pairwise ?_ (getSortedPoints_sorted P) (getSortedPoints_sorted Q)
    (hPP.trans (h.trans hQQ.symm))
  intro p q hp hq hpq hqp
  exact (hP p (hPP.mem_iff.mp hp)).eq_of_key (hQ q (hQQ.mem_iff.mp hq)) (le_antisymm hpq hqp)

/-- Exchanging the branches in the resolution of their differences. -/
theorem Changes.resolve_swap {b s1 s2 : ℕ → Option Point} {diff1 diff2 : List Point × List Point}
    (hc1 : Changes b s1 diff1) (hc2 : Changes b s2 diff2)
    (hst : ∀ i, States (b i) (s1 i) (s2 i) i) :
    (resolve diff1 diff2).inserts.Perm (resolve diff2 diff1).inserts ∧
      (resolve diff1 diff2).deletes.Perm (resolve diff2 diff1).deletes ∧
      (resolve diff1 diff2).conflictInsert.Perm (resolve diff2 diff1).conflictInsert ∧
      (resolve diff1 diff2).conflictUpdate.Perm (resolve diff2 diff1).conflictUpdate ∧
      (resolve diff1 diff2).conflictDelete.Perm (resolve diff2 diff1).conflictDelete := by
  refine ⟨perm_of_pointsOf fun i => ?_, List.perm_append_comm, perm_of_pointsOf fun i => ?_,
    perm_of_pointsOf fun i => ?_, List.perm_append_comm⟩
  · have h1 := hc1.inserts hc2 i
    have h2 := hc2.inserts hc1 i
    unfold pointsOf
    rw [h1, h2]
    show (noConflictAt _ _).toList.Perm (noConflictAt _ _).toList
    rw [noConflictAt_comm (hst i).inserted (hst i).symm.inserted]
  · rw [hc1.conflictInsert hc2, hc2.conflictInsert hc1]
    exact conflictAt_perm (hst i).inserted (hst i).symm.inserted
  · rw [hc1.conflictUpdate hc2, hc2.conflictUpdate hc1]
    exact conflictAt_perm (hst i).moved (hst i).symm.moved

/-- The merge is symmetric in its branches: the same version, and the same conflicts up to order. -/
theorem merge_symmetric (hb : PlainVersion leafSize base) (h1 : PlainVersion leafSize node1)
    (h2 : PlainVersion leafSize node2) (ptr1 : PtrEq base node1) (ptr2 : PtrEq base node2) :
    ∃ ret ret', Tree.merge leafSize base node1 node2 ptr1 ptr2 = some ret ∧
      Tree.merge leafSize base node2 node1 ptr2 ptr1 = some ret' ∧
      ret.newVer = ret'.newVer ∧ ret.conflictInsert.Perm ret'.conflictInsert ∧
      ret.conflictUpdate.Perm ret'.conflictUpdate ∧
      ret.conflictDelete.Perm ret'.conflictDelete := by
  obtain ⟨newVer, hcommit, -, -⟩ := hb.commit_resolution h1 h2 ptr1 ptr2 rfl
  have hc1 := hb.changes h1 ptr1
  have hc2 := hb.changes h2 ptr2
  have hst := states hb h1 h2
  obtain ⟨hI, hD, hci, hcu, hcd⟩ := hc1.resolve_swap hc2 hst
  have hcommit' : Tree.commit leafSize base
      (resolve (Tree.twoVersionDiff base node2 ptr2) (Tree.twoVersionDiff base node1 ptr1)).inserts
      (resolve (Tree.twoVersionDiff base node2 ptr2) (Tree.twoVersionDiff base node1 ptr1)).deletes =
        some newVer := by
    rw [← hcommit]
    unfold Tree.commit
    rw [getSortedPoints_eq_of_perm (hc1.inserts_plain hc2 hst) hI,
      getSortedPoints_eq_of_perm (hc1.deletes_plain hc2 hst) hD]
  have hmerge := merge_eq leafSize ptr1 ptr2 rfl
  have hmerge' := merge_eq leafSize ptr2 ptr1 rfl
  rw [hcommit] at hmerge
  rw [hcommit'] at hmerge'
  exact ⟨_, _, hmerge, hmerge', rfl, hci, hcu, hcd⟩

/-- Two different insertions of one identifier. -/
theorem merge_symmetric_insert :
    ∃ ret ret', Tree.merge 16 (Tree.build 16 []) (Tree.build 16 [⟨1, 1, 1, 3⟩])
        (Tree.build 16 [⟨1, 5, 6, 54⟩]) (.distinct _ _) (.distinct _ _) = some ret ∧
      Tree.merge 16 (Tree.build 16 []) (Tree.build 16 [⟨1, 5, 6, 54⟩])
        (Tree.build 16 [⟨1, 1, 1, 3⟩]) (.distinct _ _) (.distinct _ _) = some ret' ∧
      ret.newVer = ret'.newVer ∧ ret.conflictInsert.Perm ret'.conflictInsert ∧
      ret.conflictUpdate.Perm ret'.conflictUpdate ∧
      ret.conflictDelete.Perm ret'.conflictDelete := by
  have h1 : PlainVersion 16 (Tree.build 16 [⟨1, 1, 1, 3⟩]) :=
    plainVersion_singleton (by decide +kernel)
      ⟨1, 1, by norm_num, by norm_num, by norm_num, by norm_num⟩
  have h2 : PlainVersion 16 (Tree.build 16 [⟨1, 5, 6, 54⟩]) :=
    plainVersion_singleton (by decide +kernel)
      ⟨5, 6, by norm_num, by norm_num, by norm_num, by norm_num⟩
  have hb : PlainVersion 16 (Tree.build 16 []) :=
    plainVersion_build Batch.nil (by decide) (by simp)
  exact merge_symmetric hb h1 h2 (.distinct _ _) (.distinct _ _)

end Silva
