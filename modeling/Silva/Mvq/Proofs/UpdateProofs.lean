import Silva.Mvq.WellFormed

/-!
# Proofs: the persistent updates preserve the invariant

An insertion merges the batch into the record list of the version, a deletion leaves the survivors,
and both end in the one tree that the invariant allows.
-/

namespace Silva

open BaseNode

section Updates

variable {leafSize : Nat}

/-! ## Insertion -/

theorem insertNode_inte {b c : Nat} {A B : List Point} (hA : Cell b (2 * c) A)
    (hB : Cell b (2 * c + 1) B) (l r : BaseNode) (n : Nat) :
    Tree.multiVersionBatchInsertSortedNode leafSize (inteNode l r n) (A ++ B) (b + 1) =
      Tree.createInternal
        (if A = [] then l else Tree.multiVersionBatchInsertSortedNode leafSize l A b)
        (if B = [] then r else Tree.multiVersionBatchInsertSortedNode leafSize r B b) := by
  unfold Tree.createInternal
  rw [Tree.multiVersionBatchInsertSortedNode]
  simp only [splitByBit_append hA hB, List.take_left, List.drop_left, Nat.add_sub_cancel]
  by_cases hA0 : A = [] <;> by_cases hB0 : B = [] <;> simp [hA0, hB0, List.length_pos_iff]

/-- A son of an interior node, which is left alone when its part of the batch is empty. -/
theorem WellFormed.insertSon {b c : Nat} {t : BaseNode} {P Q : List Point}
    (h : WellFormed leafSize b c t P) (h0 : P = [] → t = nullptr)
    (hins : WellFormed leafSize b c (Tree.multiVersionBatchInsertSortedNode leafSize t Q b)
      (parlayMerge mortonCmp P Q)) :
    ∃ t', (if Q = [] then t else Tree.multiVersionBatchInsertSortedNode leafSize t Q b) = t' ∧
      WellFormed leafSize b c t' (parlayMerge mortonCmp P Q) ∧
      (parlayMerge mortonCmp P Q = [] → t' = nullptr) := by
  by_cases hQ : Q = []
  · subst hQ
    exact ⟨t, if_pos rfl, by rwa [parlayMerge_nil_right], by rwa [parlayMerge_nil_right]⟩
  · refine ⟨_, if_neg hQ, hins, fun hnil => ?_⟩
    have hlen := congrArg List.length hnil
    rw [length_parlayMerge, List.length_nil] at hlen
    exact absurd (List.length_eq_zero_iff.mp (by omega)) hQ

/-- Inserting a batch of the region merges it into the records. -/
theorem WellFormed.insertNode {b c : Nat} {t : BaseNode} {P : List Point}
    (h : WellFormed leafSize b c t P) : ∀ {Q : List Point}, Cell b c Q →
      WellFormed leafSize b c (Tree.multiVersionBatchInsertSortedNode leafSize t Q b)
        (parlayMerge mortonCmp P Q) := by
  induction h with
  | null b c =>
    intro Q hQ
    rw [parlayMerge_nil_left]
    exact buildNode_wellFormed hQ
  | @leaf b c P cell fits =>
    intro Q hQ
    have hcell := cell.parlayMerge hQ
    rw [Tree.multiVersionBatchInsertSortedNode]
    by_cases hfit : b = 0 ∨ P.length + Q.length ≤ leafSize
    · rw [if_pos hfit]
      exact .leaf hcell (by rwa [length_parlayMerge])
    · rw [if_neg hfit]
      exact buildNode_wellFormed hcell
  | @inte b c l r A B left right hl hr large ihl ihr =>
    intro Q hQ
    obtain ⟨QA, QB, rfl, -, hQA, hQB⟩ := hQ.split
    rw [insertNode_inte hQA hQB,
      parlayMerge_append (left.cell.below hQB (by omega)) (hQA.below right.cell (by omega))]
    obtain ⟨l', hl', hlw, hl0⟩ := left.insertSon hl (ihl hQA)
    obtain ⟨r', hr', hrw, hr0⟩ := right.insertSon hr (ihr hQB)
    rw [hl', hr']
    unfold Tree.createInternal
    rw [hlw.getNumPoints, hrw.getNumPoints]
    exact .inte hlw hrw hl0 hr0 (by rw [length_parlayMerge, length_parlayMerge]; omega)

/-! ## Deletion -/

theorem collapse_nullptr_left {r : BaseNode} (hr : r ≠ nullptr) :
    Tree.collapse leafSize nullptr r =
      some (if r.getNumPoints ≤ leafSize then r else inteNode nullptr r (0 + r.getNumPoints)) := by
  rw [apply_ite some]
  cases r with
  | nullptr => exact absurd rfl hr
  | leafNode records => rfl
  | inteNode x y n => rfl

theorem collapse_nullptr_right {l : BaseNode} (hl : l ≠ nullptr) :
    Tree.collapse leafSize l nullptr =
      some (if l.getNumPoints ≤ leafSize then l else inteNode l nullptr (l.getNumPoints + 0)) := by
  rw [apply_ite some]
  cases l with
  | nullptr => exact absurd rfl hl
  | leafNode records => rfl
  | inteNode x y n => rfl

theorem collapse_of_ne {l r : BaseNode} (hl : l ≠ nullptr) (hr : r ≠ nullptr) :
    Tree.collapse leafSize l r =
      if l.getNumPoints + r.getNumPoints ≤ leafSize then do
        let L ← l.asLeaf
        let R ← r.asLeaf
        some (leafNode (parlayMerge mortonCmp L R))
      else some (inteNode l r (l.getNumPoints + r.getNumPoints)) := by
  cases l with
  | nullptr => exact absurd rfl hl
  | leafNode records =>
    cases r with
    | nullptr => exact absurd rfl hr
    | leafNode records' => rfl
    | inteNode x y n => rfl
  | inteNode x y n =>
    cases r with
    | nullptr => exact absurd rfl hr
    | leafNode records' => rfl
    | inteNode x' y' n' => rfl

/-- A subtree that fits into a leaf is null or a leaf. -/
theorem WellFormed.asLeaf {b c : Nat} {t : BaseNode} {P : List Point}
    (h : WellFormed leafSize b c t P) (ht : t ≠ nullptr) (hle : P.length ≤ leafSize) :
    t.asLeaf = some P := by
  cases h with
  | null => exact absurd rfl ht
  | leaf cell fits => rfl
  | inte left right hl hr large => rw [List.length_append] at hle; omega

/-- A subtree that fits into a leaf can take the place of its parent. -/
theorem WellFormed.lift {b c c' : Nat} {t : BaseNode} {P : List Point}
    (h : WellFormed leafSize b c' t P) (hcell : Cell (b + 1) c P) (ht : t ≠ nullptr)
    (hle : P.length ≤ leafSize) : WellFormed leafSize (b + 1) c t P := by
  cases h with
  | null => exact absurd rfl ht
  | leaf cell fits => exact .leaf hcell (Or.inr hle)
  | inte left right hl hr large => rw [List.length_append] at hle; omega

/-- The collapse step: the casts are valid, and the result is the only tree for the records of both
children. -/
theorem collapse_wellFormed {b c : Nat} {l r : BaseNode} {A B : List Point}
    (left : WellFormed leafSize b (2 * c) l A) (right : WellFormed leafSize b (2 * c + 1) r B)
    (hl : A = [] → l = nullptr) (hr : B = [] → r = nullptr) :
    ∃ t, Tree.collapse leafSize l r = some t ∧ WellFormed leafSize (b + 1) c t (A ++ B) ∧
      (A ++ B = [] → t = nullptr) := by
  have hcell := left.cell.append right.cell
  by_cases hA : A = []
  · obtain rfl := hl hA
    subst hA
    by_cases hB : B = []
    · obtain rfl := hr hB
      subst hB
      exact ⟨nullptr, rfl, .null _ _, fun _ => rfl⟩
    · have hrne : r ≠ nullptr := fun h => hB (h ▸ right).nullptr_iff
      refine ⟨_, collapse_nullptr_left hrne, ?_, fun h => absurd h hB⟩
      rw [right.getNumPoints]
      by_cases hfit : B.length ≤ leafSize
      · rw [if_pos hfit]
        exact right.lift hcell hrne hfit
      · rw [if_neg hfit]
        exact @WellFormed.inte leafSize b c nullptr r [] B left right hl hr (by simpa using hfit)
  · have hlne : l ≠ nullptr := fun h => hA (h ▸ left).nullptr_iff
    have hAB : A ++ B ≠ [] := by simp [hA]
    by_cases hB : B = []
    · obtain rfl := hr hB
      subst hB
      refine ⟨_, collapse_nullptr_right hlne, ?_, fun h => absurd h hAB⟩
      rw [left.getNumPoints]
      by_cases hfit : A.length ≤ leafSize
      · rw [if_pos hfit, List.append_nil]
        rw [List.append_nil] at hcell
        exact left.lift hcell hlne hfit
      · rw [if_neg hfit]
        exact @WellFormed.inte leafSize b c l nullptr A [] left right hl hr (by simpa using hfit)
    · have hrne : r ≠ nullptr := fun h => hB (h ▸ right).nullptr_iff
      rw [collapse_of_ne hlne hrne, left.getNumPoints, right.getNumPoints]
      by_cases hfit : A.length + B.length ≤ leafSize
      · have hmerge : parlayMerge mortonCmp A B = A ++ B := by
          have h := @parlayMerge_append A [] [] B (left.cell.below right.cell (by omega))
            (by simp [Below])
          simpa using h
        rw [if_pos hfit, left.asLeaf hlne (by omega), right.asLeaf hrne (by omega)]
        refine ⟨leafNode (A ++ B), ?_, .leaf hcell (Or.inr ?_), fun h => absurd h hAB⟩
        · show some (leafNode (parlayMerge mortonCmp A B)) = _
          rw [hmerge]
        · rw [List.length_append]; exact hfit
      · rw [if_neg hfit]
        exact ⟨_, rfl, .inte left right hl hr (by omega), fun h => absurd h hAB⟩

theorem deleteNode_inte {b c : Nat} {A B : List Point} (hA : Cell b (2 * c) A)
    (hB : Cell b (2 * c + 1) B) (l r : BaseNode) (n : Nat) :
    Tree.multiVersionBatchDeleteSortedNode leafSize (inteNode l r n) (A ++ B) (b + 1) =
      (if A = [] then some l else Tree.multiVersionBatchDeleteSortedNode leafSize l A b).bind
        fun newLSon =>
      (if B = [] then some r else Tree.multiVersionBatchDeleteSortedNode leafSize r B b).bind
        fun newRSon => Tree.collapse leafSize newLSon newRSon := by
  rw [Tree.multiVersionBatchDeleteSortedNode]
  simp only [splitByBit_append hA hB, List.take_left, List.drop_left, Nat.add_sub_cancel]
  by_cases hA0 : A = [] <;> by_cases hB0 : B = [] <;> simp [hA0, hB0, List.length_pos_iff]

/-- A son of an interior node, which is left alone when its part of the batch is empty. -/
theorem WellFormed.deleteSon {b c : Nat} {t : BaseNode} {P Q : List Point}
    (h : WellFormed leafSize b c t P) (h0 : P = [] → t = nullptr)
    (hdel : ∃ t', Tree.multiVersionBatchDeleteSortedNode leafSize t Q b = some t' ∧
      WellFormed leafSize b c t' (survivors P Q) ∧ (survivors P Q = [] → t' = nullptr)) :
    ∃ t', (if Q = [] then some t else Tree.multiVersionBatchDeleteSortedNode leafSize t Q b) =
        some t' ∧
      WellFormed leafSize b c t' (survivors P Q) ∧ (survivors P Q = [] → t' = nullptr) := by
  by_cases hQ : Q = []
  · subst hQ
    exact ⟨t, if_pos rfl, by rwa [survivors_nil_right], by rwa [survivors_nil_right]⟩
  · rw [if_neg hQ]
    exact hdel

/-- Deleting a batch of the region leaves the survivors; no cast fails on the way. -/
theorem WellFormed.deleteNode {b c : Nat} {t : BaseNode} {P : List Point}
    (h : WellFormed leafSize b c t P) : ∀ {Q : List Point}, Cell b c Q →
      ∃ t', Tree.multiVersionBatchDeleteSortedNode leafSize t Q b = some t' ∧
        WellFormed leafSize b c t' (survivors P Q) ∧ (survivors P Q = [] → t' = nullptr) := by
  induction h with
  | null b c =>
    intro Q hQ
    rw [survivors_nil_left]
    exact ⟨nullptr, rfl, .null b c, fun _ => rfl⟩
  | @leaf b c P cell fits =>
    intro Q hQ
    have hsub := survivors_sublist P Q
    rw [Tree.multiVersionBatchDeleteSortedNode, getDeleteP_eq]
    by_cases h0 : survivors P Q = []
    · rw [h0]
      exact ⟨nullptr, rfl, .null b c, fun _ => rfl⟩
    · refine ⟨leafNode (survivors P Q), ?_, .leaf (cell.sublist hsub) ?_, fun h => absurd h h0⟩
      · exact if_neg (fun h => h0 (List.length_eq_zero_iff.mp h))
      · rcases fits with h | h
        · exact Or.inl h
        · exact Or.inr (hsub.length_le.trans h)
  | @inte b c l r A B left right hl hr large ihl ihr =>
    intro Q hQ
    obtain ⟨QA, QB, rfl, -, hQA, hQB⟩ := hQ.split
    obtain ⟨l', hl', hlw, hl0⟩ := left.deleteSon hl (ihl hQA)
    obtain ⟨r', hr', hrw, hr0⟩ := right.deleteSon hr (ihr hQB)
    rw [deleteNode_inte hQA hQB, hl', hr',
      survivors_append (left.cell.below hQB (by omega)) (hQA.below right.cell (by omega))]
    exact collapse_wellFormed hlw hrw hl0 hr0

/-! ## The operations on whole versions -/

/-- A version: the whole code space at the top level. -/
abbrev IsVersion (leafSize : Nat) (t : BaseNode) (P : List Point) : Prop :=
  WellFormed leafSize 64 0 t P

theorem build_isVersion {P : List Point} (hP : Batch P) :
    IsVersion leafSize (Tree.build leafSize P) P := by
  unfold Tree.build
  cases P with
  | nil => exact .null 64 0
  | cons p P => exact buildNode_wellFormed hP.cell

theorem IsVersion.insert {t : BaseNode} {P Q : List Point} (h : IsVersion leafSize t P)
    (hQ : Batch Q) :
    IsVersion leafSize (Tree.multiVersionBatchInsertSorted leafSize Q t)
      (parlayMerge mortonCmp P Q) :=
  h.insertNode hQ.cell

theorem IsVersion.delete {t : BaseNode} {P Q : List Point} (h : IsVersion leafSize t P)
    (hQ : Batch Q) :
    ∃ t', Tree.multiVersionBatchDeleteSorted leafSize Q t = some t' ∧
      IsVersion leafSize t' (survivors P Q) := by
  obtain ⟨t', ht', hw, -⟩ := h.deleteNode hQ.cell
  exact ⟨t', ht', hw⟩

theorem IsVersion.commit {t : BaseNode} {P : List Point} (h : IsVersion leafSize t P)
    (I D : List Point) :
    ∃ t', Tree.commit leafSize t I D = some t' ∧ IsVersion leafSize t'
      (parlayMerge mortonCmp (survivors P (getSortedPoints D)) (getSortedPoints I)) := by
  obtain ⟨tmp, htmp, hw⟩ := h.delete (getSortedPoints_batch D)
  refine ⟨_, ?_, hw.insert (getSortedPoints_batch I)⟩
  unfold Tree.commit
  rw [htmp]
  rfl

end Updates

end Silva
