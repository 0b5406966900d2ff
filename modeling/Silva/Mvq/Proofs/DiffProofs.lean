import Silva.Mvq.Versioning
import Silva.Mvq.Proofs.RangeProofs

/-!
# Proofs: differences of versions are exact

Both walks compute what a two-pointer loop over the two whole record lists would compute: a region
that the versions share contributes nothing, and the differences of the two halves of a region make
up the difference of the region, whatever the shapes of the two subtrees.
-/

namespace Silva

open BaseNode TwoPointer

variable {leafSize b c : Nat} {P : List Point}

@[simp] theorem addsOf_nil_left (Q : List Point) : addsOf [] Q = Q := by
  rw [addsOf_eq_removesOf, removesOf_nil_right]

@[simp] theorem addsOf_nil_right (P : List Point) : addsOf P [] = [] := by
  rw [addsOf_eq_removesOf, removesOf_nil_left]

@[simp] theorem addsOf_self (P : List Point) : addsOf P P = [] := by
  rw [addsOf_eq_removesOf, removesOf_self]

theorem addsOf_append {P₁ P₂ Q₁ Q₂ : List Point} (h1 : Below P₁ Q₂) (h2 : Below Q₁ P₂) :
    addsOf (P₁ ++ P₂) (Q₁ ++ Q₂) = addsOf P₁ Q₁ ++ addsOf P₂ Q₂ := by
  rw [addsOf_eq_removesOf, addsOf_eq_removesOf, addsOf_eq_removesOf, removesOf_append h2 h1]

theorem removesOf_sublist (P Q : List Point) : (removesOf P Q).Sublist P :=
  lefts_events_sublist ptCmp P Q

theorem addsOf_sublist (P Q : List Point) : (addsOf P Q).Sublist Q := by
  rw [addsOf_eq_removesOf]
  exact removesOf_sublist Q P

/-- The two halves of a region are compared on their own. -/
theorem diff_halves {A₁ B₁ A₂ B₂ : List Point} (hA₁ : Cell b (2 * c) A₁)
    (hB₁ : Cell b (2 * c + 1) B₁) (hA₂ : Cell b (2 * c) A₂) (hB₂ : Cell b (2 * c + 1) B₂) :
    addsOf (A₁ ++ B₁) (A₂ ++ B₂) = addsOf A₁ A₂ ++ addsOf B₁ B₂ ∧
      removesOf (A₁ ++ B₁) (A₂ ++ B₂) = removesOf A₁ A₂ ++ removesOf B₁ B₂ := by
  have h1 := hA₁.below hB₂ (by omega)
  have h2 := hA₂.below hB₁ (by omega)
  exact ⟨addsOf_append h1 h2, removesOf_append h1 h2⟩

/-! ## Whole versions -/

/-- A leaf against a subtree. -/
theorem WellFormed.leafInteDiff {x : BaseNode} {R : List Point} (h : WellFormed leafSize b c x R) :
    ∀ {P : List Point}, Cell b c P →
      Tree.leafInteDiff P x b = (addsOf P R, removesOf P R) := by
  induction h with
  | null b c =>
    intro P _
    rw [Tree.leafInteDiff, addsOf_nil_right, removesOf_nil_right]
  | leaf cell fits =>
    intro P _
    rw [Tree.leafInteDiff, mergePts_eq]
  | @inte b c l r A B left right hl hr large ihl ihr =>
    intro P hP
    obtain ⟨PA, PB, rfl, hsplit, hPA, hPB⟩ := hP.split
    obtain ⟨hadd, hremove⟩ := diff_halves hPA hPB left.cell right.cell
    rw [Tree.leafInteDiff]
    simp only [hsplit, List.take_left, List.drop_left, Nat.add_sub_cancel]
    rw [ihl hPA, ihr hPB, hadd, hremove]

/-- Two subtrees of the same region. -/
theorem WellFormed.diff {t1 : BaseNode} {P1 : List Point} (h1 : WellFormed leafSize b c t1 P1) :
    ∀ {t2 : BaseNode} {P2 : List Point}, WellFormed leafSize b c t2 P2 →
      ∀ ptr : PtrEq t1 t2, Tree.diff t1 t2 ptr b = (addsOf P1 P2, removesOf P1 P2) := by
  have hshared : ∀ {b c : Nat} {t1 t2 : BaseNode} {P1 P2 : List Point},
      WellFormed leafSize b c t1 P1 → WellFormed leafSize b c t2 P2 → t1 = t2 →
      (([], []) : List Point × List Point) = (addsOf P1 P2, removesOf P1 P2) := by
    intro b c t1 t2 P1 P2 h1 h2 heq
    rw [← h1.collectRecords, ← h2.collectRecords, heq, addsOf_self, removesOf_self]
  induction h1 with
  | null b c =>
    intro t2 P2 h2 ptr
    unfold Tree.diff
    by_cases heq : ptr.eq = true
    · rw [if_pos heq]
      exact hshared (.null b c) h2 (PtrEq.eq_sound heq)
    · rw [if_neg heq, addsOf_nil_left, removesOf_nil_left, ← h2.collectRecords]
  | @leaf b c P cell fits =>
    intro t2 P2 h2 ptr
    unfold Tree.diff
    by_cases heq : ptr.eq = true
    · rw [if_pos heq]
      exact hshared (.leaf cell fits) h2 (PtrEq.eq_sound heq)
    · rw [if_neg heq]
      cases h2 with
      | null => rw [addsOf_nil_right, removesOf_nil_right]; rfl
      | leaf cell2 fits2 => exact mergePts_eq _ _
      | inte left right hl hr large =>
        exact (WellFormed.inte left right hl hr large).leafInteDiff cell
  | @inte b c l r A B left right hl hr large ihl ihr =>
    intro t2 P2 h2 ptr
    have h1 := WellFormed.inte left right hl hr large
    unfold Tree.diff
    by_cases heq : ptr.eq = true
    · rw [if_pos heq]
      exact hshared h1 h2 (PtrEq.eq_sound heq)
    · rw [if_neg heq]
      cases h2 with
      | null =>
        rw [addsOf_nil_right, removesOf_nil_right, ← h1.collectRecords]
      | leaf cell2 fits2 =>
        show Prod.mk (Tree.leafInteDiff P2 (inteNode l r (A.length + B.length)) (b + 1)).2
          (Tree.leafInteDiff P2 (inteNode l r (A.length + B.length)) (b + 1)).1 = _
        rw [h1.leafInteDiff cell2, addsOf_eq_removesOf (A ++ B), addsOf_eq_removesOf P2]
      | inte left2 right2 hl2 hr2 large2 =>
        obtain ⟨hadd, hremove⟩ := diff_halves left.cell right.cell left2.cell right2.cell
        rw [hadd, hremove]
        show Prod.mk ((Tree.diff l _ ptr.left b).1 ++ (Tree.diff r _ ptr.right b).1)
          ((Tree.diff l _ ptr.left b).2 ++ (Tree.diff r _ ptr.right b).2) = _
        rw [ihl left2 ptr.left, ihr right2 ptr.right]

/-! ## Inside a query box -/

/-- The points of a query, added to and removed from a `diff_type`. -/
def DiffType.writeIn (queryMbr : BoundingBox) (d : DiffType) (adds removes : List Point) : DiffType :=
  d.write (inQuery queryMbr adds) (inQuery queryMbr removes)

theorem DiffType.writeIn_append (queryMbr : BoundingBox) (d : DiffType)
    (adds removes adds' removes' : List Point) :
    d.writeIn queryMbr (adds ++ adds') (removes ++ removes') =
      (d.writeIn queryMbr adds removes).writeIn queryMbr adds' removes' := by
  unfold DiffType.writeIn
  rw [inQuery_append, inQuery_append, DiffType.write_write]

/-- Lists that the box of the region misses leave a `diff_type` alone. -/
theorem Located.writeIn_of_neg {curMbr queryMbr : BoundingBox} {xPrefix yPrefix : FT}
    {xSplitter : Bool} {Q adds removes : List Point}
    (hP : Located b curMbr xPrefix yPrefix xSplitter P)
    (hQ : Located b curMbr xPrefix yPrefix xSplitter Q)
    (hflag : mbrMbrRelation curMbr queryMbr < 0) (hadds : adds.Sublist Q)
    (hremoves : removes.Sublist P) (d : DiffType) : d.writeIn queryMbr adds removes = d := by
  unfold DiffType.writeIn
  rw [inQuery_of_relation_neg (hQ.sub hadds.subset).inMbr hflag,
    inQuery_of_relation_neg (hP.sub hremoves.subset).inMbr hflag,
    DiffType.write_nil]

theorem mergePtsInto_writeIn (queryMbr : BoundingBox) (P Q : List Point) (d : DiffType)
    (reverse : Bool) :
    mergePtsInto P Q (fun p => pointInMbr p queryMbr) d reverse =
      if reverse then d.writeIn queryMbr (removesOf P Q) (addsOf P Q)
      else d.writeIn queryMbr (addsOf P Q) (removesOf P Q) := mergePtsInto_eq ..

/-- A leaf against a subtree, inside a query box. -/
theorem WellFormed.leafInteDiffIn {x : BaseNode} {R : List Point}
    (h : WellFormed leafSize b c x R) (queryMbr : BoundingBox) (reverse : Bool) :
    ∀ {P : List Point} {curMbr : BoundingBox} {xPrefix yPrefix : FT} {xSplitter : Bool}
      (d : DiffType), Cell b c P → Located b curMbr xPrefix yPrefix xSplitter P →
      Located b curMbr xPrefix yPrefix xSplitter R →
      Tree.leafInteDiffIn P x queryMbr curMbr xPrefix yPrefix b xSplitter d reverse =
        if reverse then d.writeIn queryMbr (removesOf P R) (addsOf P R)
        else d.writeIn queryMbr (addsOf P R) (removesOf P R) := by
  have hskip : ∀ {b : Nat} {P R : List Point} {curMbr : BoundingBox} {xPrefix yPrefix : FT}
      {xSplitter : Bool} (d : DiffType), Located b curMbr xPrefix yPrefix xSplitter P →
      Located b curMbr xPrefix yPrefix xSplitter R → mbrMbrRelation curMbr queryMbr < 0 →
      d = if reverse then d.writeIn queryMbr (removesOf P R) (addsOf P R)
        else d.writeIn queryMbr (addsOf P R) (removesOf P R) := by
    intro b P R curMbr xPrefix yPrefix xSplitter d hlocP hlocR hneg
    rw [hlocR.writeIn_of_neg hlocP hneg (removesOf_sublist P R) (addsOf_sublist P R),
      hlocP.writeIn_of_neg hlocR hneg (addsOf_sublist P R) (removesOf_sublist P R), ite_self]
  induction h with
  | null b c =>
    intro P curMbr xPrefix yPrefix xSplitter d _ hlocP hlocR
    rw [Tree.leafInteDiffIn]
    by_cases hneg : mbrMbrRelation curMbr queryMbr < 0
    · rw [if_pos hneg]
      exact hskip d hlocP hlocR hneg
    · rw [if_neg hneg, ← mergePtsInto_writeIn, mergePtsInto, events_nil_right, List.foldl_map]
      rfl
  | leaf cell fits =>
    intro P curMbr xPrefix yPrefix xSplitter d _ hlocP hlocR
    rw [Tree.leafInteDiffIn]
    by_cases hneg : mbrMbrRelation curMbr queryMbr < 0
    · rw [if_pos hneg]
      exact hskip d hlocP hlocR hneg
    · rw [if_neg hneg, mergePtsInto_writeIn]
  | @inte b c l r A B left right hl hr large ihl ihr =>
    intro P curMbr xPrefix yPrefix xSplitter d hP hlocP hlocR
    rw [Tree.leafInteDiffIn]
    by_cases hneg : mbrMbrRelation curMbr queryMbr < 0
    · rw [if_pos hneg]
      exact hskip d hlocP hlocR hneg
    · rw [if_neg hneg]
      obtain ⟨PA, PB, rfl, hsplit, hPA, hPB⟩ := hP.split
      obtain ⟨hadd, hremove⟩ := diff_halves hPA hPB left.cell right.cell
      rcases hbox : computeCurBox curMbr xPrefix yPrefix (b + 1) xSplitter with
        ⟨LBox, RBox, rxPrefix, ryPrefix⟩
      obtain ⟨hlocA, hlocB⟩ := left.located_children right hlocR hbox
      obtain ⟨hlocPA, hlocPB⟩ := hlocP.children (fun _ hp => hPA.bitLess_left hp)
        (fun _ hp => hPB.bitLess_right hp) hbox
      simp only [hsplit, List.take_left, List.drop_left, Nat.add_sub_cancel]
      rw [ihl d hPA hlocPA hlocA, ihr _ hPB hlocPB hlocB, hadd, hremove]
      cases reverse with
      | true => exact (DiffType.writeIn_append queryMbr d _ _ _ _).symm
      | false => exact (DiffType.writeIn_append queryMbr d _ _ _ _).symm

theorem WellFormed.reportAdd {x : BaseNode} {xPrefix yPrefix : FT} {xSplitter : Bool}
    {curMbr : BoundingBox} (h : WellFormed leafSize b c x P)
    (hloc : Located b curMbr xPrefix yPrefix xSplitter P) (queryMbr : BoundingBox) (d : DiffType) :
    Tree.reportAdd x queryMbr curMbr xPrefix yPrefix b xSplitter d = d.writeIn queryMbr P [] := by
  unfold Tree.reportAdd
  rw [h.rangeReportNode queryMbr hloc]
  rfl

theorem WellFormed.reportRemove {x : BaseNode} {xPrefix yPrefix : FT} {xSplitter : Bool}
    {curMbr : BoundingBox} (h : WellFormed leafSize b c x P)
    (hloc : Located b curMbr xPrefix yPrefix xSplitter P) (queryMbr : BoundingBox) (d : DiffType) :
    Tree.reportRemove x queryMbr curMbr xPrefix yPrefix b xSplitter d = d.writeIn queryMbr [] P := by
  unfold Tree.reportRemove
  rw [h.rangeReportNode queryMbr hloc]
  rfl

/-- Two subtrees of the same region, inside a query box. -/
theorem WellFormed.spatialDiff {t1 : BaseNode} {P1 : List Point}
    (h1 : WellFormed leafSize b c t1 P1) (queryMbr : BoundingBox) :
    ∀ {t2 : BaseNode} {P2 : List Point}, WellFormed leafSize b c t2 P2 → ∀ (ptr : PtrEq t1 t2)
      {curMbr : BoundingBox} {xPrefix yPrefix : FT} {xSplitter : Bool} (d : DiffType),
      Located b curMbr xPrefix yPrefix xSplitter P1 →
      Located b curMbr xPrefix yPrefix xSplitter P2 →
      Tree.spatialDiff t1 t2 ptr queryMbr curMbr xPrefix yPrefix b xSplitter d =
        d.writeIn queryMbr (addsOf P1 P2) (removesOf P1 P2) := by
  have hskip : ∀ {b c : Nat} {t1 t2 : BaseNode} {P1 P2 : List Point} {curMbr : BoundingBox}
      {xPrefix yPrefix : FT} {xSplitter : Bool} (ptr : PtrEq t1 t2) (d : DiffType) {rest : DiffType},
      WellFormed leafSize b c t1 P1 → WellFormed leafSize b c t2 P2 →
      Located b curMbr xPrefix yPrefix xSplitter P1 →
      Located b curMbr xPrefix yPrefix xSplitter P2 →
      rest = d.writeIn queryMbr (addsOf P1 P2) (removesOf P1 P2) →
      Tree.spatialSkip ptr.eq queryMbr curMbr d rest =
        d.writeIn queryMbr (addsOf P1 P2) (removesOf P1 P2) := by
    intro b c t1 t2 P1 P2 curMbr xPrefix yPrefix xSplitter ptr d rest h1 h2 hloc1 hloc2 hrest
    unfold Tree.spatialSkip
    by_cases hneg : mbrMbrRelation curMbr queryMbr < 0
    · rw [if_pos hneg,
        hloc1.writeIn_of_neg hloc2 hneg (addsOf_sublist P1 P2) (removesOf_sublist P1 P2)]
    · rw [if_neg hneg]
      by_cases heq : ptr.eq = true
      · rw [if_pos heq, ← h1.collectRecords, ← h2.collectRecords, PtrEq.eq_sound heq, addsOf_self,
          removesOf_self]
        rfl
      · rw [if_neg heq, hrest]
  induction h1 with
  | null b c =>
    intro t2 P2 h2 ptr curMbr xPrefix yPrefix xSplitter d hloc1 hloc2
    rw [Tree.spatialDiff]
    refine hskip ptr d (.null b c) h2 hloc1 hloc2 ?_
    rw [addsOf_nil_left, removesOf_nil_left, h2.reportAdd hloc2]
  | @leaf b c P cell fits =>
    intro t2 P2 h2 ptr curMbr xPrefix yPrefix xSplitter d hloc1 hloc2
    have h1 := WellFormed.leaf cell fits
    cases h2 with
    | null =>
      rw [Tree.spatialDiff]
      refine hskip ptr d h1 (.null b c) hloc1 hloc2 ?_
      rw [addsOf_nil_right, removesOf_nil_right, h1.reportRemove hloc1]
    | leaf cell2 fits2 =>
      rw [Tree.spatialDiff]
      refine hskip ptr d h1 (.leaf cell2 fits2) hloc1 hloc2 ?_
      exact mergePtsInto_writeIn queryMbr P P2 d false
    | inte left right hl hr large =>
      have h2 := WellFormed.inte left right hl hr large
      rw [Tree.spatialDiff]
      exact hskip ptr d h1 h2 hloc1 hloc2 (h2.leafInteDiffIn queryMbr false d cell hloc1 hloc2)
  | @inte b c l r A B left right hl hr large ihl ihr =>
    intro t2 P2 h2 ptr curMbr xPrefix yPrefix xSplitter d hloc1 hloc2
    have h1 := WellFormed.inte left right hl hr large
    cases h2 with
    | null =>
      rw [Tree.spatialDiff]
      refine hskip ptr d h1 (.null _ _) hloc1 hloc2 ?_
      rw [addsOf_nil_right, removesOf_nil_right, h1.reportRemove hloc1]
    | leaf cell2 fits2 =>
      rw [Tree.spatialDiff]
      refine hskip ptr d h1 (.leaf cell2 fits2) hloc1 hloc2 ?_
      rw [h1.leafInteDiffIn queryMbr true d cell2 hloc2 hloc1, if_pos rfl,
        addsOf_eq_removesOf (A ++ B), addsOf_eq_removesOf P2]
    | inte left2 right2 hl2 hr2 large2 =>
      have h2 := WellFormed.inte left2 right2 hl2 hr2 large2
      obtain ⟨hadd, hremove⟩ := diff_halves left.cell right.cell left2.cell right2.cell
      rw [Tree.spatialDiff]
      rcases hbox : computeCurBox curMbr xPrefix yPrefix (b + 1) xSplitter with
        ⟨LBox, RBox, rxPrefix, ryPrefix⟩
      obtain ⟨hlocA1, hlocB1⟩ := left.located_children right hloc1 hbox
      obtain ⟨hlocA2, hlocB2⟩ := left2.located_children right2 hloc2 hbox
      refine hskip ptr d h1 h2 hloc1 hloc2 ?_
      rw [hadd, hremove, DiffType.writeIn_append, Nat.add_sub_cancel,
        ihl left2 ptr.left d hlocA1 hlocA2, ihr right2 ptr.right _ hlocB1 hlocB2]

/-! ## Differences of versions -/

section Versions

variable {t1 t2 : BaseNode}

/-- The difference of two versions is that of their record lists. -/
theorem twoVersionDiff_eq (h1 : Version leafSize t1) (h2 : Version leafSize t2)
    (ptr : PtrEq t1 t2) :
    Tree.twoVersionDiff t1 t2 ptr =
      (addsOf (Tree.collectRecords t1) (Tree.collectRecords t2),
        removesOf (Tree.collectRecords t1) (Tree.collectRecords t2)) :=
  h1.isVersion.diff h2.isVersion ptr

/-- What is left of a sorted list by a two-pointer loop against another one, as a multiset of keys. -/
theorem removesOf_keys {P Q : List Point} (hP : SortedByKey P) (hQ : SortedByKey Q) :
    ((removesOf P Q).map Point.key : Multiset (ℕ ×ₗ ℕ)) =
      (P.map Point.key : Multiset (ℕ ×ₗ ℕ)) - (Q.map Point.key : Multiset (ℕ ×ₗ ℕ)) :=
  lefts_events_keys ptCmp_eq_compare hP hQ

/-- Differences are exact on keys, for whole versions and inside a query box: the added points are
points of the second version whose keys are the multiset difference, the removed ones likewise, and
the spatial difference is the part of both that lies in the box. -/
theorem diff_exact (h1 : Version leafSize t1) (h2 : Version leafSize t2) (ptr : PtrEq t1 t2) :
    (∃ add remove, Tree.twoVersionDiff t1 t2 ptr = (add, remove) ∧
      add.Sublist (Tree.collectRecords t2) ∧
      (add.map Point.key : Multiset (ℕ ×ₗ ℕ)) =
        ((Tree.collectRecords t2).map Point.key : Multiset (ℕ ×ₗ ℕ)) -
          ((Tree.collectRecords t1).map Point.key : Multiset (ℕ ×ₗ ℕ)) ∧
      remove.Sublist (Tree.collectRecords t1) ∧
      (remove.map Point.key : Multiset (ℕ ×ₗ ℕ)) =
        ((Tree.collectRecords t1).map Point.key : Multiset (ℕ ×ₗ ℕ)) -
          ((Tree.collectRecords t2).map Point.key : Multiset (ℕ ×ₗ ℕ))) ∧
    ∀ queryMbr curMbr : BoundingBox,
      (∀ p ∈ Tree.collectRecords t1 ++ Tree.collectRecords t2,
        p.IsInteger ∧ pointInMbr p curMbr = true) →
      ∀ addSz removeSz : Nat,
        (((Tree.twoVersionDiff t1 t2 ptr).1.countP fun p => pointInMbr p queryMbr) ≤ addSz) →
        (((Tree.twoVersionDiff t1 t2 ptr).2.countP fun p => pointInMbr p queryMbr) ≤ removeSz) →
        ∃ retDiff, (Tree.spatialTwoVersionDiff t1 t2 ptr queryMbr curMbr
            (.ofSize addSz removeSz)).compact = retDiff ∧
          retDiff.add = (Tree.twoVersionDiff t1 t2 ptr).1.filter (fun p => pointInMbr p queryMbr) ∧
          retDiff.remove =
            (Tree.twoVersionDiff t1 t2 ptr).2.filter (fun p => pointInMbr p queryMbr) := by
  rw [twoVersionDiff_eq h1 h2]
  refine ⟨⟨_, _, rfl, addsOf_sublist _ _, ?_, removesOf_sublist _ _, ?_⟩, ?_⟩
  · rw [addsOf_eq_removesOf]
    exact removesOf_keys h2.batch.sorted h1.batch.sorted
  · exact removesOf_keys h1.batch.sorted h2.batch.sorted
  · intro queryMbr curMbr hdom addSz removeSz hadd hremove
    rw [countP_pointInMbr] at hadd hremove
    have hloc : ∀ {Q : List Point}, Q ⊆ Tree.collectRecords t1 ++ Tree.collectRecords t2 →
        Located 64 curMbr 0 0 true Q := by
      intro Q hQ
      exact Located.root (fun p hp => (hdom p (hQ hp)).2) (fun p hp => (hdom p (hQ hp)).1.onGrid)
    refine ⟨_, rfl, ?_⟩
    unfold Tree.spatialTwoVersionDiff
    rw [h1.isVersion.spatialDiff queryMbr h2.isVersion ptr _ (hloc (List.subset_append_left _ _))
      (hloc (List.subset_append_right _ _))]
    exact DiffType.compact_write_ofSize hadd hremove

end Versions

/-- An interior node against a leaf: the record that only the leaf holds is reported in its box. -/
theorem diff_exact_boxes :
    (Tree.spatialTwoVersionDiff (Tree.build 1 [⟨5, 1, 1, 3⟩, ⟨9, 5, 6, 54⟩])
      (Tree.build 1 [⟨7, 3, 1, 11⟩]) (.distinct _ _) ⟨.ofXY 2 0, .ofXY 4 4⟩ ⟨.ofXY 0 0, .ofXY 6 6⟩
      (.ofSize 1 1)).compact.add = [⟨7, 3, 1, 11⟩] := by
  have h1 : Version 1 (Tree.build 1 [⟨5, 1, 1, 3⟩, ⟨9, 5, 6, 54⟩]) :=
    .build ⟨by decide +kernel, by decide +kernel⟩
  have h2 : Version 1 (Tree.build 1 [⟨7, 3, 1, 11⟩]) := .build ⟨by decide +kernel, by decide +kernel⟩
  have hrecords : Tree.collectRecords (Tree.build 1 [⟨5, 1, 1, 3⟩, ⟨9, 5, 6, 54⟩]) ++
      Tree.collectRecords (Tree.build 1 [⟨7, 3, 1, 11⟩]) =
        [⟨5, 1, 1, 3⟩, ⟨9, 5, 6, 54⟩, ⟨7, 3, 1, 11⟩] := by decide +kernel
  have hint : ∀ p ∈ ([⟨5, 1, 1, 3⟩, ⟨9, 5, 6, 54⟩, ⟨7, 3, 1, 11⟩] : List Point),
      p.IsInteger ∧ pointInMbr p ⟨.ofXY 0 0, .ofXY 6 6⟩ = true := by
    intro p hp
    fin_cases hp
    · exact ⟨⟨1, 1, by norm_num, by norm_num, by norm_num, by norm_num⟩, by decide +kernel⟩
    · exact ⟨⟨5, 6, by norm_num, by norm_num, by norm_num, by norm_num⟩, by decide +kernel⟩
    · exact ⟨⟨3, 1, by norm_num, by norm_num, by norm_num, by norm_num⟩, by decide +kernel⟩
  obtain ⟨retDiff, hret, hadd, -⟩ := (diff_exact h1 h2 (.distinct _ _)).2 ⟨.ofXY 2 0, .ofXY 4 4⟩
    ⟨.ofXY 0 0, .ofXY 6 6⟩ (by rwa [hrecords]) 1 1 (by decide +kernel) (by decide +kernel)
  rw [hret, hadd]
  decide +kernel

end Silva
