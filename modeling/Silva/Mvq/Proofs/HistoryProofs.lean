import Silva.Mvq.History
import Silva.Mvq.Proofs.UpdateProofs

/-!
# Proofs: history independence

Whatever history produced a version, its tree is the one that `build` makes of its contents.
-/

namespace Silva

open BaseNode

variable {leafSize : Nat}

/-! ## Single versions -/

/-- Every version satisfies the invariant for its own records. -/
theorem Version.isVersion {t : BaseNode} (h : Version leafSize t) :
    IsVersion leafSize t (Tree.collectRecords t) := by
  have hex : ∃ P, IsVersion leafSize t P := by
    induction h with
    | build hP => exact ⟨_, build_isVersion hP⟩
    | insert ht hP ih =>
      obtain ⟨P, hw⟩ := ih
      exact ⟨_, IsVersion.insert hw hP⟩
    | delete ht hP h ih =>
      obtain ⟨P, hw⟩ := ih
      obtain ⟨t', ht', hw'⟩ := IsVersion.delete hw hP
      rw [h] at ht'
      cases ht'
      exact ⟨_, hw'⟩
    | commit ht h ih =>
      obtain ⟨P, hw⟩ := ih
      obtain ⟨t', ht', hw'⟩ := IsVersion.commit hw _ _
      rw [h] at ht'
      cases ht'
      exact ⟨_, hw'⟩
  obtain ⟨P, hw⟩ := hex
  rw [hw.collectRecords]
  exact hw

theorem Version.batch {t : BaseNode} (h : Version leafSize t) : Batch (Tree.collectRecords t) :=
  h.isVersion.cell.toBatch

/-- The invariant is exactly what the operations can produce. -/
theorem IsVersion.version {t : BaseNode} {P : List Point} (h : IsVersion leafSize t P) :
    Version leafSize t := by
  have hnull : Version leafSize nullptr := Version.build Batch.nil
  by_cases hP : P = []
  · subst hP
    rcases WellFormed.of_nil h with rfl | rfl
    · exact hnull
    · have hins := hnull.insert Batch.nil
      have hleaf : Tree.multiVersionBatchInsertSorted leafSize [] nullptr = leafNode [] := by
        unfold Tree.multiVersionBatchInsertSorted
        rw [Tree.multiVersionBatchInsertSortedNode, buildNode_small (by simp)]
      rwa [hleaf] at hins
  · have ht := WellFormed.eq_buildNode h hP
    have hbuild : Tree.build leafSize P = t := by
      unfold Tree.build
      rw [ht, if_neg (by simpa using hP)]
    rw [← hbuild]
    exact Version.build (WellFormed.cell h).toBatch

/-! ## Runs -/

/-- The tree stores the contents, in some order. -/
def Holds (leafSize : Nat) (t : BaseNode) (C : List Point) : Prop :=
  ∃ P, P.Perm C ∧ IsVersion leafSize t P

theorem minus_perm {C C' : List Point} (h : C.Perm C') (D : List Point) :
    (minus C D).Perm (minus C' D) := h.filter _

theorem minus_congr (C : List Point) {D D' : List Point}
    (h : ∀ k, k ∈ D.map Point.key ↔ k ∈ D'.map Point.key) : minus C D = minus C D' := by
  unfold minus
  exact List.filter_congr fun p _ => by rw [decide_eq_decide, h]

theorem survivors_perm_minus {P C Q : List Point} (hP : SortedByKey P) (hQ : SortedByKey Q)
    (hPC : P.Perm C) (hnd : (C.map Point.key).Nodup) : (survivors P Q).Perm (minus C Q) := by
  have hndP : (P.map Point.key).Nodup := (hPC.map Point.key).nodup_iff.mpr hnd
  rw [survivors_eq_filter hP hQ hndP]
  exact minus_perm hPC Q

theorem Holds.insert {t : BaseNode} {C Q : List Point} (h : Holds leafSize t C) (hQ : Batch Q) :
    Holds leafSize (Tree.multiVersionBatchInsertSorted leafSize Q t) (C ++ Q) := by
  obtain ⟨P, hPC, hw⟩ := h
  exact ⟨_, (parlayMerge_perm _ P Q).trans (hPC.append_right Q), hw.insert hQ⟩

theorem Holds.delete {t : BaseNode} {C Q : List Point} (h : Holds leafSize t C) (hQ : Batch Q)
    (hnd : (C.map Point.key).Nodup) :
    ∃ t', Tree.multiVersionBatchDeleteSorted leafSize Q t = some t' ∧
      Holds leafSize t' (minus C Q) := by
  obtain ⟨P, hPC, hw⟩ := h
  obtain ⟨t', ht', hw'⟩ := hw.delete hQ
  exact ⟨t', ht', _, survivors_perm_minus (WellFormed.cell hw).sorted hQ.sorted hPC hnd, hw'⟩

theorem Holds.commit {t : BaseNode} {C : List Point} (h : Holds leafSize t C)
    (hnd : (C.map Point.key).Nodup) (I D : List Point) :
    ∃ t', Tree.commit leafSize t I D = some t' ∧
      Holds leafSize t' (minus C (withCodes D) ++ withCodes I) := by
  obtain ⟨tmp, htmp, hdel⟩ := h.delete (getSortedPoints_batch D) hnd
  have hkeys : minus C (getSortedPoints D) = minus C (withCodes D) :=
    minus_congr C fun k => ((getSortedPoints_perm D).map Point.key).mem_iff
  obtain ⟨P, hP, hw⟩ := hdel.insert (getSortedPoints_batch I)
  rw [hkeys] at hP
  refine ⟨_, ?_, P, hP.trans ((getSortedPoints_perm I).append_left _), hw⟩
  unfold Tree.commit
  rw [htmp]
  rfl

/-- A version that holds contents without repeated keys is the canonical one. -/
theorem Holds.canonical {t : BaseNode} {C : List Point} (h : Holds leafSize t C)
    (hnd : (C.map Point.key).Nodup) : Canonical leafSize t C := by
  obtain ⟨P, hPC, hw⟩ := h
  have hbatch := (WellFormed.cell hw).toBatch
  constructor
  · intro hC
    have hP : P ≠ [] := fun h0 => hC (by rw [h0] at hPC; exact hPC.nil_eq.symm)
    have hcoded : ∀ p ∈ C, p.Coded := fun p hp => hbatch.coded p (hPC.mem_iff.mpr hp)
    have heq : P = getSortedPoints C :=
      eq_of_sorted_of_nodup hbatch.sorted (getSortedPoints_sorted C)
        ((hPC.map Point.key).nodup_iff.mpr hnd)
        (hPC.trans (getSortedPoints_perm_self hcoded).symm)
    rw [← heq]
    exact WellFormed.eq_buildNode hw hP
  · intro hC
    subst hC
    rw [hPC.eq_nil] at hw
    exact WellFormed.of_nil hw

/-- One operation: if every version holds its contents, so does the one that is added. -/
theorem Op.apply_holds {op : Op} (hop : op.Sorted) {versions : List BaseNode}
    {contents : List (List Point)} (h : List.Forall₂ (Holds leafSize) versions contents)
    (hnd : ∀ C ∈ contents, (C.map Point.key).Nodup) {C' : List Point}
    (hC' : op.applyContents contents = some C') :
    ∃ t', op.apply leafSize versions = some t' ∧ Holds leafSize t' C' := by
  have hget : ∀ {v : Nat} {C : List Point}, contents[v]? = some C →
      ∃ t, versions[v]? = some t ∧ Holds leafSize t C := by
    intro v C hv
    obtain ⟨hlt, hvC⟩ := List.getElem?_eq_some_iff.mp hv
    have hlt' : v < versions.length := by rw [h.length_eq]; exact hlt
    refine ⟨versions[v], List.getElem?_eq_getElem hlt', ?_⟩
    rw [← hvC]
    exact h.get hlt' hlt
  cases op with
  | insert v P =>
    obtain ⟨C, hC, rfl⟩ : ∃ C, contents[v]? = some C ∧ C ++ P = C' := by
      simpa [Op.applyContents, Option.bind_eq_some_iff] using hC'
    obtain ⟨t, ht, hold⟩ := hget hC
    exact ⟨_, by rw [Op.apply, ht]; rfl, hold.insert hop⟩
  | delete v P =>
    obtain ⟨C, hC, rfl⟩ : ∃ C, contents[v]? = some C ∧ minus C P = C' := by
      simpa [Op.applyContents, Option.bind_eq_some_iff] using hC'
    obtain ⟨t, ht, hold⟩ := hget hC
    obtain ⟨t', ht', hold'⟩ := hold.delete hop (hnd C (List.mem_of_getElem? hC))
    exact ⟨t', by rw [Op.apply, ht]; exact ht', hold'⟩
  | commit v I D =>
    obtain ⟨C, hC, rfl⟩ : ∃ C, contents[v]? = some C ∧
        minus C (withCodes D) ++ withCodes I = C' := by
      simpa [Op.applyContents, Option.bind_eq_some_iff] using hC'
    obtain ⟨t, ht, hold⟩ := hget hC
    obtain ⟨t', ht', hold'⟩ := hold.commit (hnd C (List.mem_of_getElem? hC)) I D
    exact ⟨t', by rw [Op.apply, ht]; exact ht', hold'⟩

/-- The contents of earlier versions never change. -/
theorem runContents_extends {ops : List Op} : ∀ {contents contents' : List (List Point)},
    runContents ops contents = some contents' → contents <+: contents' := by
  induction ops with
  | nil =>
    intro contents contents' h
    cases h
    exact List.prefix_rfl
  | cons op ops ih =>
    intro contents contents' h
    obtain ⟨C, -, hrest⟩ := Option.bind_eq_some_iff.mp h
    exact (List.prefix_append contents [C]).trans (ih hrest)

/-- A whole run: every version holds its contents. -/
theorem run_holds {ops : List Op} : ∀ {versions : List BaseNode} {contents contents' : List (List Point)},
    (∀ op ∈ ops, op.Sorted) → List.Forall₂ (Holds leafSize) versions contents →
    runContents ops contents = some contents' →
    (∀ C ∈ contents', (C.map Point.key).Nodup) →
    ∃ versions', run leafSize ops versions = some versions' ∧
      List.Forall₂ (Holds leafSize) versions' contents' := by
  induction ops with
  | nil =>
    intro versions contents contents' _ h hrun _
    cases hrun
    exact ⟨versions, rfl, h⟩
  | cons op ops ih =>
    intro versions contents contents' hops h hrun hnd
    obtain ⟨C, hC, hrest⟩ := Option.bind_eq_some_iff.mp hrun
    have hsub := (runContents_extends hrest).subset
    have hnd0 : ∀ C ∈ contents, (C.map Point.key).Nodup :=
      fun C hC => hnd C (hsub (List.mem_append_left _ hC))
    obtain ⟨t, ht, hold⟩ := Op.apply_holds (hops op (by simp)) h hnd0 hC
    obtain ⟨versions', hrun', hall⟩ := ih (fun o ho => hops o (List.mem_cons_of_mem _ ho))
      (List.rel_append h (.cons hold .nil)) hrest hnd
    refine ⟨versions', ?_, hall⟩
    rw [run, ht]
    exact hrun'

/-- History independence. Every history of persistent operations on earlier versions runs through,
and every version it makes is the tree that `build` makes of the version's contents. -/
theorem history_independence (leafSize : Nat) (P : List Point) (ops : List Op)
    (contents : List (List Point)) (hP : Batch P) (hops : ∀ op ∈ ops, op.Sorted)
    (hrun : runContents ops [P] = some contents)
    (hnd : ∀ C ∈ contents, (C.map Point.key).Nodup) :
    ∃ versions, run leafSize ops [Tree.build leafSize P] = some versions ∧
      List.Forall₂ (Canonical leafSize) versions contents := by
  have h0 : List.Forall₂ (Holds leafSize) [Tree.build leafSize P] [P] :=
    .cons ⟨P, List.Perm.refl P, build_isVersion hP⟩ .nil
  obtain ⟨versions, hv, hall⟩ := run_holds hops h0 hrun hnd
  refine ⟨versions, hv, ?_⟩
  rw [List.forall₂_iff_get] at hall ⊢
  refine ⟨hall.1, fun i h1 h2 => (hall.2 i h1 h2).canonical (hnd _ (List.get_mem _ _))⟩

/-- A run that builds, inserts into a shared region, deletes and commits. -/
theorem history_independence_run :
    ∃ versions, run 1 [.insert 0 [⟨7, 3, 1, 11⟩], .delete 1 [⟨5, 1, 1, 3⟩],
        .commit 1 [⟨5, 2, 2, 0⟩] [⟨9, 5, 6, 0⟩]] [Tree.build 1 [⟨5, 1, 1, 3⟩, ⟨9, 5, 6, 54⟩]] =
        some versions ∧
      List.Forall₂ (Canonical 1) versions
        [[⟨5, 1, 1, 3⟩, ⟨9, 5, 6, 54⟩], [⟨5, 1, 1, 3⟩, ⟨9, 5, 6, 54⟩, ⟨7, 3, 1, 11⟩],
          [⟨9, 5, 6, 54⟩, ⟨7, 3, 1, 11⟩],
          [⟨5, 1, 1, 3⟩, ⟨7, 3, 1, 11⟩, ⟨5, 2, 2, 12⟩]] := by
  refine history_independence 1 _ _ _ ⟨?_, ?_⟩ ?_ ?_ ?_
  · decide +kernel
  · decide +kernel
  · intro op hop
    fin_cases hop
    · exact ⟨by decide +kernel, by decide +kernel⟩
    · exact ⟨by decide +kernel, by decide +kernel⟩
    · trivial
  · decide +kernel
  · decide +kernel

end Silva
