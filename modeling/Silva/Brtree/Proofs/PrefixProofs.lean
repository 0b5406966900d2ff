import Silva.Brtree.Proofs.QueryProofs

/-!
# Proofs: the queries on prefixes

The regions that these queries work out describe a tree whose ranges are cut where the level's bit of
the Morton code changes. `build` cuts them in the middle, so the queries find what the boxes of the
nodes find exactly when both cuts are the same.
-/

namespace Silva

namespace BRTree

open BRTree.BaseNode

/-- Every range that is too long for a leaf is cut in the middle where `split_by_bit` would cut it. -/
def Aligned (leafSize : ℕ+) : ℕ → List Point → Prop
  | 0, P => P.length ≤ leafSize
  | level + 1, P => P.length ≤ leafSize ∨
      ((∀ p ∈ P.take (P.length / 2), bitLess (level + 1) p = true) ∧
        (∀ p ∈ P.drop (P.length / 2), bitLess (level + 1) p = false) ∧
        Aligned leafSize level (P.take (P.length / 2)) ∧
        Aligned leafSize level (P.drop (P.length / 2)))

instance decidableAligned (leafSize : ℕ+) : ∀ level P, Decidable (Aligned leafSize level P)
  | 0, P => inferInstanceAs (Decidable (P.length ≤ leafSize))
  | level + 1, P =>
    have := decidableAligned leafSize level
    inferInstanceAs (Decidable (P.length ≤ leafSize ∨
      ((∀ p ∈ P.take (P.length / 2), bitLess (level + 1) p = true) ∧
        (∀ p ∈ P.drop (P.length / 2), bitLess (level + 1) p = false) ∧
        Aligned leafSize level (P.take (P.length / 2)) ∧
        Aligned leafSize level (P.drop (P.length / 2)))))

variable {leafSize : ℕ+} {level : ℕ} {t : BaseNode} {P : List Point} {curMbr : BoundingBox}
  {xPrefix yPrefix : FT} {xSplitter : Bool}

/-- A short range needs no cut. -/
theorem aligned_of_fits (level : ℕ) (fits : P.length ≤ leafSize) : Aligned leafSize level P := by
  cases level with
  | zero => exact fits
  | succ level => exact .inl fits

/-- What the property says about the two halves of an interior node. -/
theorem aligned_inte {A B : List Point} (large : leafSize < A.length + B.length)
    (half : A.length = (A.length + B.length) / 2) :
    Aligned leafSize (level + 1) (A ++ B) ↔
      ((∀ p ∈ A, bitLess (level + 1) p = true) ∧ (∀ p ∈ B, bitLess (level + 1) p = false)) ∧
        Aligned leafSize level A ∧ Aligned leafSize level B := by
  have hlen : (A ++ B).length / 2 = A.length := by rw [List.length_append, ← half]
  have hlarge : ¬(A ++ B).length ≤ leafSize := by
    rw [List.length_append]
    exact not_le.mpr large
  rw [Aligned, hlen, List.take_left, List.drop_left]
  constructor
  · intro h
    obtain ⟨h1, h2, h3, h4⟩ := h.resolve_left hlarge
    exact ⟨⟨h1, h2⟩, h3, h4⟩
  · rintro ⟨⟨h1, h2⟩, h3, h4⟩
    exact .inr ⟨h1, h2, h3, h4⟩

/-! ## Frames -/

/-- The frames of the sons are those of `compute_cur_box`: `b` counts the levels in pairs. -/
theorem sonFrames_succ (hpar : xSplitter = ((level + 1) % 2 == 0)) (curMbr : BoundingBox)
    (xPrefix yPrefix : FT) :
    Tree.sonFrames curMbr xPrefix yPrefix ((level + 1 + 1) / 2) xSplitter =
      let (LBox, RBox, rxPrefix, ryPrefix) :=
        computeCurBox curMbr xPrefix yPrefix (level + 1) xSplitter
      (LBox, RBox, rxPrefix, ryPrefix, (level + 1) / 2) := by
  unfold Tree.sonFrames computeCurBox
  by_cases heven : (level + 1) % 2 = 0
  · have hx : xSplitter = true := by rw [hpar, heven]; rfl
    have hb : (level + 1 + 1) / 2 = (level + 1) / 2 := by omega
    simp only [hx, if_true, hb]
  · have hx : ¬xSplitter = true := by rw [hpar]; simpa using heven
    have hb : (level + 1 + 1) / 2 - 1 = (level + 1) / 2 := by omega
    simp only [if_neg hx, hb]

/-- No point lies in the boxes of both sons. -/
theorem computeCurBox_disjoint {LBox RBox : BoundingBox} {rxPrefix ryPrefix : FT} {p : Point}
    (hbox : computeCurBox curMbr xPrefix yPrefix (level + 1) xSplitter =
      (LBox, RBox, rxPrefix, ryPrefix))
    (hl : pointInMbr p LBox = true) (hr : pointInMbr p RBox = true) : False := by
  have heps : (0 : FT) < ftEps := by
    unfold ftEps
    positivity
  obtain ⟨-, lx, -, ly⟩ := pointInMbr_iff.mp hl
  obtain ⟨rx, -, ry, -⟩ := pointInMbr_iff.mp hr
  rw [computeCurBox_succ] at hbox
  by_cases hx : xSplitter = true
  · rw [if_pos hx] at hbox
    obtain ⟨rfl, rfl, -, -⟩ : _ ∧ _ ∧ _ ∧ _ := by simpa only [Prod.mk.injEq] using hbox
    have h1 := (le_min_iff.mp lx).1
    have h2 := (max_le_iff.mp rx).1
    linarith
  · rw [if_neg hx] at hbox
    obtain ⟨rfl, rfl, -, -⟩ : _ ∧ _ ∧ _ ∧ _ := by simpa only [Prod.mk.injEq] using hbox
    have h1 := (le_min_iff.mp ly).1
    have h2 := (max_le_iff.mp ry).1
    linarith

/-- The box of the left son has the points whose bit is clear, that of the right son the others. -/
theorem bitLess_iff_mem_box (h : Located (level + 1) curMbr xPrefix yPrefix xSplitter P)
    {LBox RBox : BoundingBox} {rxPrefix ryPrefix : FT}
    (hbox : computeCurBox curMbr xPrefix yPrefix (level + 1) xSplitter =
      (LBox, RBox, rxPrefix, ryPrefix)) {p : Point} (hp : p ∈ P) :
    (pointInMbr p LBox = true → bitLess (level + 1) p = true) ∧
      (pointInMbr p RBox = true → bitLess (level + 1) p = false) := by
  have hnil : ∀ (b : Bool), ∀ q ∈ ([] : List Point), bitLess (level + 1) q = b :=
    fun _ _ hq => absurd hq List.not_mem_nil
  have hsub : [p] ⊆ P := List.cons_subset.mpr ⟨hp, List.nil_subset P⟩
  cases hbit : bitLess (level + 1) p with
  | true =>
    refine ⟨fun _ => rfl, fun hr => ?_⟩
    obtain ⟨hl, -⟩ := (h.sub hsub).children (A := [p]) (B := [])
      (fun q hq => by rw [List.mem_singleton.mp hq, hbit]) (hnil false) hbox
    exact (computeCurBox_disjoint hbox (hl.inMbr p (List.mem_singleton_self p)) hr).elim
  | false =>
    refine ⟨fun hl => ?_, fun _ => rfl⟩
    obtain ⟨-, hr⟩ := (h.sub hsub).children (A := []) (B := [p]) (hnil true)
      (fun q hq => by rw [List.mem_singleton.mp hq, hbit]) hbox
    exact (computeCurBox_disjoint hbox hl (hr.inMbr p (List.mem_singleton_self p))).elim

/-! ## Counting -/

theorem WellFormed.rangeCountNodePrefix (h : WellFormed leafSize t P) (queryMbr : BoundingBox) :
    ∀ {level : ℕ} {curMbr : BoundingBox} {xPrefix yPrefix : FT} {xSplitter : Bool},
      Located level curMbr xPrefix yPrefix xSplitter P → Aligned leafSize level P →
      Tree.rangeCountNodePrefix queryMbr t curMbr xPrefix yPrefix ((level + 1) / 2) xSplitter =
        some (inQuery queryMbr P).length := by
  induction h with
  | @leaf mbr P fits hin =>
    intro level curMbr xPrefix yPrefix xSplitter hloc _
    exact count_of_relation hloc.inMbr rfl (congrArg some (countP_pointInMbr queryMbr P))
  | @inte mbr l r A B left right large half hin ihl ihr =>
    intro level curMbr xPrefix yPrefix xSplitter hloc hal
    cases level with
    | zero =>
      rw [Aligned, List.length_append] at hal
      omega
    | succ level =>
      obtain ⟨⟨hA, hB⟩, halA, halB⟩ := (aligned_inte large half).mp hal
      refine count_of_relation hloc.inMbr List.length_append.symm ?_
      rw [sonFrames_succ hloc.parity]
      rcases hbox : computeCurBox curMbr xPrefix yPrefix (level + 1) xSplitter with
        ⟨LBox, RBox, rxPrefix, ryPrefix⟩
      obtain ⟨hlocl, hlocr⟩ := hloc.children hA hB hbox
      simp only [left.isNull, right.isNull, ihl hlocl halA, ihr hlocr halB]
      rw [inQuery_append, List.length_append]
      rfl

/-! ## Reporting -/

/-- The points that the prefix-driven walk finds. -/
def reported (queryMbr : BoundingBox) : BaseNode → (curMbr : BoundingBox) →
    (xPrefix yPrefix : FT) → (b : ℕ) → (xSplitter : Bool) → List Point
  | nullptr, _, _, _, _, _ => []
  | leafNode _ records, _, _, _, _, _ => inQuery queryMbr records
  | inteNode _ lSon rSon _, curMbr, xPrefix, yPrefix, b, xSplitter =>
    let (LBox, RBox, rxPrefix, ryPrefix, sonB) :=
      Tree.sonFrames curMbr xPrefix yPrefix b xSplitter
    (if mbrMbrRelation LBox queryMbr ≥ 0 then
        reported queryMbr lSon LBox xPrefix yPrefix sonB (!xSplitter) else []) ++
      (if mbrMbrRelation RBox queryMbr ≥ 0 then
        reported queryMbr rSon RBox rxPrefix ryPrefix sonB (!xSplitter) else [])

/-- A visit that is left out reports nothing. -/
theorem guard_some (visit : Prop) [Decidable visit] (ret : ℕ × List Point) (Q : List Point) :
    (if visit then some (report ret Q) else some ret) =
      some (report ret (if visit then Q else [])) := by
  split <;> rfl

theorem WellFormed.rangeReportNodePrefix (h : WellFormed leafSize t P) (queryMbr : BoundingBox) :
    ∀ (curMbr : BoundingBox) (xPrefix yPrefix : FT) (b : ℕ) (xSplitter : Bool)
      (ret : ℕ × List Point),
      Tree.rangeReportNodePrefix queryMbr t curMbr xPrefix yPrefix b xSplitter ret =
        some (report ret (reported queryMbr t curMbr xPrefix yPrefix b xSplitter)) := by
  induction h with
  | leaf fits hin =>
    intro curMbr xPrefix yPrefix b xSplitter ret
    rw [Tree.rangeReportNodePrefix, reportRecords_eq, reported]
  | @inte mbr l r A B left right large half hin ihl ihr =>
    intro curMbr xPrefix yPrefix b xSplitter ret
    rw [Tree.rangeReportNodePrefix, reported]
    rcases Tree.sonFrames curMbr xPrefix yPrefix b xSplitter with
      ⟨LBox, RBox, rxPrefix, ryPrefix, sonB⟩
    simp only [left.isNull, right.isNull, Bool.not_false, true_and, ihl, ihr, guard_some]
    rw [report_append]
    rfl

/-- The walk never finds anything that is not there. -/
theorem WellFormed.reported_sublist (h : WellFormed leafSize t P) (queryMbr : BoundingBox) :
    ∀ (curMbr : BoundingBox) (xPrefix yPrefix : FT) (b : ℕ) (xSplitter : Bool),
      (reported queryMbr t curMbr xPrefix yPrefix b xSplitter).Sublist (inQuery queryMbr P) := by
  induction h with
  | leaf fits hin =>
    intro curMbr xPrefix yPrefix b xSplitter
    exact List.Sublist.refl _
  | inte left right large half hin ihl ihr =>
    intro curMbr xPrefix yPrefix b xSplitter
    rw [reported, inQuery_append]
    rcases Tree.sonFrames curMbr xPrefix yPrefix b xSplitter with
      ⟨LBox, RBox, rxPrefix, ryPrefix, sonB⟩
    refine List.Sublist.append ?_ ?_
    · split
      · exact ihl ..
      · exact List.nil_sublist _
    · split
      · exact ihr ..
      · exact List.nil_sublist _

/-- On aligned ranges a region that misses the query has no point of the query. -/
theorem WellFormed.reported_eq (h : WellFormed leafSize t P) (queryMbr : BoundingBox) :
    ∀ {level : ℕ} {curMbr : BoundingBox} {xPrefix yPrefix : FT} {xSplitter : Bool},
      Located level curMbr xPrefix yPrefix xSplitter P → Aligned leafSize level P →
      reported queryMbr t curMbr xPrefix yPrefix ((level + 1) / 2) xSplitter =
        inQuery queryMbr P := by
  induction h with
  | leaf fits hin =>
    intro level curMbr xPrefix yPrefix xSplitter _ _
    rfl
  | @inte mbr l r A B left right large half hin ihl ihr =>
    intro level curMbr xPrefix yPrefix xSplitter hloc hal
    cases level with
    | zero =>
      rw [Aligned, List.length_append] at hal
      omega
    | succ level =>
      obtain ⟨⟨hA, hB⟩, halA, halB⟩ := (aligned_inte large half).mp hal
      rw [reported, sonFrames_succ hloc.parity]
      rcases hbox : computeCurBox curMbr xPrefix yPrefix (level + 1) xSplitter with
        ⟨LBox, RBox, rxPrefix, ryPrefix⟩
      obtain ⟨hlocl, hlocr⟩ := hloc.children hA hB hbox
      simp only [ihl hlocl halA, ihr hlocr halB]
      rw [inQuery_append]
      congr 1
      · by_cases hl : mbrMbrRelation LBox queryMbr ≥ 0
        · rw [if_pos hl]
        · rw [if_neg hl, inQuery_of_relation_neg hlocl.inMbr (not_le.mp hl)]
      · by_cases hr : mbrMbrRelation RBox queryMbr ≥ 0
        · rw [if_pos hr]
        · rw [if_neg hr, inQuery_of_relation_neg hlocr.inMbr (not_le.mp hr)]

/-! ## Queries for single points -/

/-- The query box that is a single point. -/
def pointQuery (p : Point) : BoundingBox := ⟨p, p⟩

theorem mem_inQuery_pointQuery {p : Point} (hp : p ∈ P) : p ∈ inQuery (pointQuery p) P :=
  List.mem_filter.mpr ⟨hp, pointInMbr_iff.mpr ⟨le_rfl, le_rfl, le_rfl, le_rfl⟩⟩

/-- A box that the query for a point meets contains the point. -/
theorem pointInMbr_of_relation_pointQuery {p : Point} {mbr : BoundingBox}
    (h : mbrMbrRelation mbr (pointQuery p) ≥ 0) : pointInMbr p mbr = true := by
  unfold mbrMbrRelation at h
  by_cases hmeet : max mbr.first.x (pointQuery p).first.x ≤ min mbr.second.x (pointQuery p).second.x ∧
      max mbr.first.y (pointQuery p).first.y ≤ min mbr.second.y (pointQuery p).second.y
  · obtain ⟨hx, hy⟩ := hmeet
    refine pointInMbr_iff.mpr ⟨?_, ?_, ?_, ?_⟩
    · exact (max_le_iff.mp hx).1.trans (min_le_right _ _)
    · exact (le_max_right _ _).trans (le_min_iff.mp hx).1
    · exact (max_le_iff.mp hy).1.trans (min_le_right _ _)
    · exact (le_max_right _ _).trans (le_min_iff.mp hy).1
  · rw [if_neg hmeet] at h
    omega

/-- A son that has to report a point is visited, so the point lies in its region. -/
theorem mem_region_of_visited {p : Point} (hp : p ∈ P) {box : BoundingBox} {Q : List Point}
    (h : (if mbrMbrRelation box (pointQuery p) ≥ 0 then Q else []) = inQuery (pointQuery p) P) :
    pointInMbr p box = true ∧ Q = inQuery (pointQuery p) P := by
  by_cases hflag : mbrMbrRelation box (pointQuery p) ≥ 0
  · rw [if_pos hflag] at h
    exact ⟨pointInMbr_of_relation_pointQuery hflag, h⟩
  · rw [if_neg hflag] at h
    have hmem := mem_inQuery_pointQuery hp
    rw [← h] at hmem
    exact absurd hmem List.not_mem_nil

/-- When nothing is missing from a node, nothing is missing from its sons. -/
theorem WellFormed.reported_sons {mbr queryMbr : BoundingBox} {l r : BaseNode} {A B : List Point}
    {n b : ℕ} (left : WellFormed leafSize l A) (right : WellFormed leafSize r B)
    (heq : reported queryMbr (inteNode mbr l r n) curMbr xPrefix yPrefix b xSplitter =
      inQuery queryMbr (A ++ B)) {LBox RBox : BoundingBox} {rxPrefix ryPrefix : FT} {sonB : ℕ}
    (hframes : Tree.sonFrames curMbr xPrefix yPrefix b xSplitter =
      (LBox, RBox, rxPrefix, ryPrefix, sonB)) :
    (if mbrMbrRelation LBox queryMbr ≥ 0 then
        reported queryMbr l LBox xPrefix yPrefix sonB (!xSplitter) else []) = inQuery queryMbr A ∧
      (if mbrMbrRelation RBox queryMbr ≥ 0 then
        reported queryMbr r RBox rxPrefix ryPrefix sonB (!xSplitter) else []) =
        inQuery queryMbr B := by
  rw [reported, hframes, inQuery_append] at heq
  have hl : (if mbrMbrRelation LBox queryMbr ≥ 0 then
      reported queryMbr l LBox xPrefix yPrefix sonB (!xSplitter) else []).Sublist
        (inQuery queryMbr A) := by
    split
    · exact left.reported_sublist ..
    · exact List.nil_sublist _
  have hr : (if mbrMbrRelation RBox queryMbr ≥ 0 then
      reported queryMbr r RBox rxPrefix ryPrefix sonB (!xSplitter) else []).Sublist
        (inQuery queryMbr B) := by
    split
    · exact right.reported_sublist ..
    · exact List.nil_sublist _
  -- neither side has more than it should, so neither has less
  have hlen := congrArg List.length heq
  simp only [List.length_append] at hlen
  have hlenl := hl.length_le
  have hlenr := hr.length_le
  exact ⟨hl.eq_of_length (by omega), hr.eq_of_length (by omega)⟩

/-- Below the last level the region of the right son is empty. -/
theorem not_mem_right_box {LBox RBox : BoundingBox} {rxPrefix ryPrefix : FT} {sonB : ℕ}
    (h : Located 0 curMbr xPrefix yPrefix xSplitter P)
    (hframes : Tree.sonFrames curMbr xPrefix yPrefix 0 xSplitter =
      (LBox, RBox, rxPrefix, ryPrefix, sonB)) {p : Point} (hp : p ∈ P) :
    pointInMbr p RBox = false := by
  have hx : xSplitter = true := h.parity
  have hgrid := h.onGrid p hp
  have hlt := ((h.xStrip p hp).bounds hgrid.x_nonneg hgrid.x_lt).2
  rw [← Bool.not_eq_true]
  intro hr
  obtain ⟨rx, -, -, -⟩ := pointInMbr_iff.mp hr
  unfold Tree.sonFrames at hframes
  rw [if_pos hx] at hframes
  obtain ⟨-, rfl, -, -, -⟩ : _ ∧ _ ∧ _ ∧ _ ∧ _ := by simpa only [Prod.mk.injEq] using hframes
  have hle := (max_le_iff.mp rx).1
  norm_num at hle hlt
  linarith

/-- A walk that finds every single point runs over aligned ranges. -/
theorem WellFormed.aligned_of_reported (h : WellFormed leafSize t P) :
    ∀ {level : ℕ} {curMbr : BoundingBox} {xPrefix yPrefix : FT} {xSplitter : Bool},
      Located level curMbr xPrefix yPrefix xSplitter P →
      (∀ p ∈ P, reported (pointQuery p) t curMbr xPrefix yPrefix ((level + 1) / 2) xSplitter =
        inQuery (pointQuery p) P) → Aligned leafSize level P := by
  induction h with
  | leaf fits hin =>
    intro level _ _ _ _ _ _
    exact aligned_of_fits level fits
  | @inte mbr l r A B left right large half hin ihl ihr =>
    intro level curMbr xPrefix yPrefix xSplitter hloc hall
    rcases hframes : Tree.sonFrames curMbr xPrefix yPrefix ((level + 1) / 2) xSplitter with
      ⟨LBox, RBox, rxPrefix, ryPrefix, sonB⟩
    have hleft : ∀ p ∈ A, pointInMbr p LBox = true ∧
        reported (pointQuery p) l LBox xPrefix yPrefix sonB (!xSplitter) =
          inQuery (pointQuery p) A := fun p hp =>
      mem_region_of_visited hp
        (left.reported_sons right (hall p (List.mem_append_left B hp)) hframes).1
    have hright : ∀ p ∈ B, pointInMbr p RBox = true ∧
        reported (pointQuery p) r RBox rxPrefix ryPrefix sonB (!xSplitter) =
          inQuery (pointQuery p) B := fun p hp =>
      mem_region_of_visited hp
        (left.reported_sons right (hall p (List.mem_append_right A hp)) hframes).2
    cases level with
    | zero =>
      obtain ⟨hA, hAB⟩ := WellFormed.left_length large half
      obtain ⟨p, hp⟩ := List.exists_mem_of_length_pos (hA.trans_le hAB)
      have hout := not_mem_right_box hloc hframes (List.mem_append_right A hp)
      rw [(hright p hp).1] at hout
      exact absurd hout (by decide)
    | succ level =>
      rcases hbox : computeCurBox curMbr xPrefix yPrefix (level + 1) xSplitter with
        ⟨LBox', RBox', rxPrefix', ryPrefix'⟩
      rw [sonFrames_succ hloc.parity, hbox] at hframes
      obtain ⟨rfl, rfl, rfl, rfl, rfl⟩ : _ ∧ _ ∧ _ ∧ _ ∧ _ := by
        simpa only [Prod.mk.injEq] using hframes
      have hA : ∀ p ∈ A, bitLess (level + 1) p = true := fun p hp =>
        (bitLess_iff_mem_box hloc hbox (List.mem_append_left B hp)).1 (hleft p hp).1
      have hB : ∀ p ∈ B, bitLess (level + 1) p = false := fun p hp =>
        (bitLess_iff_mem_box hloc hbox (List.mem_append_right A hp)).2 (hright p hp).1
      obtain ⟨hlocl, hlocr⟩ := hloc.children hA hB hbox
      exact (aligned_inte large half).mpr ⟨⟨hA, hB⟩, ihl hlocl fun p hp => (hleft p hp).2,
        ihr hlocr fun p hp => (hright p hp).2⟩

/-! ## Built trees -/

/-- The queries on prefixes agree with those on the boxes of the nodes, for every query box, exactly
when every range is cut in the middle where `split_by_bit` would cut it. -/
theorem prefix_queries_agree_iff (leafSize : ℕ+) (hP : P ≠ []) (hint : ∀ p ∈ P, p.IsInteger)
    (hmbr : ∀ p ∈ P, pointInMbr p curMbr = true) :
    (∀ queryMbr, Tree.rangeCountPrefix (Tree.build leafSize P) queryMbr curMbr =
        Tree.rangeCount (Tree.build leafSize P) queryMbr ∧
      ∀ cnt out, Tree.rangeReportPrefix (Tree.build leafSize P) queryMbr curMbr cnt out =
        Tree.rangeReport (Tree.build leafSize P) queryMbr cnt out) ↔
      Aligned leafSize 64 P := by
  have hwf := Tree.build_wellFormed leafSize hP
  have hloc : Located 64 curMbr 0 0 true P := Located.root hmbr fun p hp => (hint p hp).onGrid
  have hreport : ∀ queryMbr cnt out,
      Tree.rangeReport (Tree.build leafSize P) queryMbr cnt out =
        some (report (cnt, out) (inQuery queryMbr P)) := fun queryMbr cnt out =>
    hwf.rangeReportNode queryMbr (cnt, out)
  have hpoints : ∀ queryMbr cnt out,
      Tree.rangeReportPrefix (Tree.build leafSize P) queryMbr curMbr cnt out =
        some (report (cnt, out)
          (reported queryMbr (Tree.build leafSize P) curMbr 0 0 32 true)) := fun queryMbr cnt out =>
    hwf.rangeReportNodePrefix queryMbr curMbr 0 0 32 true (cnt, out)
  constructor
  · intro hagree
    refine hwf.aligned_of_reported hloc fun p _ => ?_
    -- the walk finds a part of the points, and as many as there are
    have heq := (hagree (pointQuery p)).2 0 []
    rw [hpoints, hreport] at heq
    have hcnt := congrArg Prod.fst (Option.some.inj heq)
    simp only [report, Nat.zero_add] at hcnt
    exact (hwf.reported_sublist (pointQuery p) curMbr 0 0 32 true).eq_of_length hcnt
  · intro hal queryMbr
    refine ⟨?_, fun cnt out => ?_⟩
    · exact (hwf.rangeCountNodePrefix queryMbr hloc hal).trans (hwf.rangeCountNode queryMbr).symm
    · rw [hpoints, hreport]
      exact congrArg (fun Q => some (report (cnt, out) Q)) (hwf.reported_eq queryMbr hloc hal)

/-- Two points on different sides of the first cut. -/
theorem prefix_queries_agree_iff_two :
    let P : List Point := [⟨1, 0, 0, 0⟩, ⟨2, 2 ^ 31, 0, 2 ^ 63⟩]
    Tree.rangeCountPrefix (Tree.build 1 P) ⟨.ofXY 1 0, .ofXY (2 ^ 31) 1⟩
        ⟨.ofXY 0 0, .ofXY (2 ^ 31) 1⟩ =
      Tree.rangeCount (Tree.build 1 P) ⟨.ofXY 1 0, .ofXY (2 ^ 31) 1⟩ := by
  intro P
  have hint : ∀ p ∈ P, p.IsInteger := by
    intro p hp
    rcases List.mem_pair.mp hp with rfl | rfl
    · exact ⟨0, 0, by norm_num, by norm_num, by norm_num, by norm_num⟩
    · exact ⟨2 ^ 31, 0, by norm_num, by norm_num, by norm_num, by norm_num⟩
  have hagree := prefix_queries_agree_iff 1 (List.cons_ne_nil _ _) hint
    (show ∀ p ∈ P, pointInMbr p ⟨.ofXY 0 0, .ofXY (2 ^ 31) 1⟩ = true by decide +kernel)
  exact (hagree.mpr (by decide +kernel) _).1

/-- Two points in the order of their codes that `build` puts into different leaves although the first
cut does not separate them: the query for the second one finds it only through the boxes. -/
theorem median_split_loses_point :
    let P : List Point := [⟨1, 0, 0, 0⟩, ⟨2, 1, 1, 3⟩]
    let curMbr : BoundingBox := ⟨.ofXY 0 0, .ofXY 1 1⟩
    let queryMbr : BoundingBox := ⟨.ofXY 1 1, .ofXY 1 1⟩
    (∀ p ∈ P, p.IsInteger) ∧ P.Pairwise (fun p q => p.interleaveBits ≤ q.interleaveBits) ∧
      (∀ p ∈ P, pointInMbr p curMbr = true) ∧
      Tree.rangeCount (Tree.build 1 P) queryMbr = some 1 ∧
      Tree.rangeCountPrefix (Tree.build 1 P) queryMbr curMbr = some 0 ∧
      (Tree.rangeReport (Tree.build 1 P) queryMbr 0 [default]).map Prod.fst = some 1 ∧
      (Tree.rangeReportPrefix (Tree.build 1 P) queryMbr curMbr 0 [default]).map Prod.fst =
        some 0 := by
  refine ⟨fun p hp => ?_, by decide +kernel⟩
  fin_cases hp
  · exact ⟨0, 0, by norm_num, by norm_num, by norm_num, by norm_num⟩
  · exact ⟨1, 1, by norm_num, by norm_num, by norm_num, by norm_num⟩

end BRTree

end Silva
