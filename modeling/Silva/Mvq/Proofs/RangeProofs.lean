import Silva.Mvq.Query
import Silva.Mvq.Proofs.HistoryProofs
import Silva.Geo.Proofs.BoxProofs

/-!
# Proofs: range queries are exact

The three walks skip a subtree whose box misses the query, and two of them take a subtree whole when
its box lies inside the query. Both shortcuts are sound because the box contains the records.
-/

namespace Silva

open BaseNode

/-- The records of a list that a query selects. -/
def inQuery (queryMbr : BoundingBox) (P : List Point) : List Point :=
  P.filter fun p => pointInMbr p queryMbr

@[simp] theorem inQuery_nil (queryMbr : BoundingBox) : inQuery queryMbr [] = [] := rfl

@[simp] theorem inQuery_append (queryMbr : BoundingBox) (P Q : List Point) :
    inQuery queryMbr (P ++ Q) = inQuery queryMbr P ++ inQuery queryMbr Q := List.filter_append ..

theorem inQuery_cons (queryMbr : BoundingBox) (p : Point) (P : List Point) :
    inQuery queryMbr (p :: P) =
      if pointInMbr p queryMbr then p :: inQuery queryMbr P else inQuery queryMbr P :=
  List.filter_cons

theorem countP_pointInMbr (queryMbr : BoundingBox) (P : List Point) :
    (P.countP fun p => pointInMbr p queryMbr) = (inQuery queryMbr P).length :=
  List.countP_eq_length_filter

/-- A box around the points that misses the query. -/
theorem inQuery_of_relation_neg {P : List Point} {curMbr queryMbr : BoundingBox}
    (hin : ∀ p ∈ P, pointInMbr p curMbr = true) (hflag : mbrMbrRelation curMbr queryMbr < 0) :
    inQuery queryMbr P = [] := by
  unfold inQuery
  rw [List.filter_eq_nil_iff]
  intro p hp
  rw [not_pointInMbr_of_relation_neg hflag (hin p hp)]
  simp

/-- A box around the points inside the query. -/
theorem inQuery_of_relation_pos {P : List Point} {curMbr queryMbr : BoundingBox}
    (hin : ∀ p ∈ P, pointInMbr p curMbr = true) (hflag : 0 < mbrMbrRelation curMbr queryMbr) :
    inQuery queryMbr P = P := by
  unfold inQuery
  rw [List.filter_eq_self]
  intro p hp
  exact pointInMbr_of_relation_pos hflag (hin p hp)

variable {leafSize b c : Nat} {t : BaseNode} {P : List Point} {curMbr : BoundingBox}
  {xPrefix yPrefix : FT} {xSplitter : Bool}

/-- The frames of the children of a well-formed interior node. -/
theorem WellFormed.located_children {l r : BaseNode} {A B : List Point} {LBox RBox : BoundingBox}
    {rxPrefix ryPrefix : FT} (left : WellFormed leafSize b (2 * c) l A)
    (right : WellFormed leafSize b (2 * c + 1) r B)
    (h : Located (b + 1) curMbr xPrefix yPrefix xSplitter (A ++ B))
    (hbox : computeCurBox curMbr xPrefix yPrefix (b + 1) xSplitter =
      (LBox, RBox, rxPrefix, ryPrefix)) :
    Located b LBox xPrefix yPrefix (!xSplitter) A ∧
      Located b RBox rxPrefix ryPrefix (!xSplitter) B :=
  h.children (fun _ hp => left.cell.bitLess_left hp) (fun _ hp => right.cell.bitLess_right hp) hbox

/-! ## Counting -/

/-- The three-way test of every count: a box that misses the query, one inside it, or a closer look
at the points. -/
theorem count_of_relation {queryMbr : BoundingBox} {n : Nat} {scan : Option Nat}
    (hin : ∀ p ∈ P, pointInMbr p curMbr = true) (hn : n = P.length)
    (hscan : scan = some (inQuery queryMbr P).length) :
    (if mbrMbrRelation curMbr queryMbr < 0 then some 0
      else if mbrMbrRelation curMbr queryMbr > 0 then some n else scan) =
        some (inQuery queryMbr P).length := by
  by_cases hneg : mbrMbrRelation curMbr queryMbr < 0
  · rw [if_pos hneg, inQuery_of_relation_neg hin hneg]
    rfl
  · rw [if_neg hneg]
    by_cases hpos : mbrMbrRelation curMbr queryMbr > 0
    · rw [if_pos hpos, inQuery_of_relation_pos hin hpos, hn]
    · rw [if_neg hpos, hscan]

/-- A null child has no records, so skipping it does not change the count. -/
theorem WellFormed.guard_count (h : WellFormed leafSize b c t P) {queryMbr : BoundingBox}
    {n : Option Nat} (hn : t ≠ nullptr → n = some (inQuery queryMbr P).length) :
    (if t ≠ nullptr then n else some 0) = some (inQuery queryMbr P).length := by
  by_cases ht : t = nullptr
  · subst ht
    rw [h.nullptr_iff]
    rfl
  · rw [if_pos ht, hn ht]

theorem WellFormed.rangeCountNode (h : WellFormed leafSize b c t P) (queryMbr : BoundingBox) :
    ∀ {curMbr : BoundingBox} {xPrefix yPrefix : FT} {xSplitter : Bool},
      Located b curMbr xPrefix yPrefix xSplitter P → t ≠ nullptr →
      Tree.rangeCountNode t queryMbr curMbr xPrefix yPrefix b xSplitter =
        some (inQuery queryMbr P).length := by
  induction h with
  | null b c => intro _ _ _ _ _ hne; exact absurd rfl hne
  | @leaf b c P cell fits =>
    intro curMbr xPrefix yPrefix xSplitter hloc _
    exact count_of_relation hloc.inMbr rfl (congrArg some (countP_pointInMbr queryMbr P))
  | @inte b c l r A B left right hl hr large ihl ihr =>
    intro curMbr xPrefix yPrefix xSplitter hloc _
    refine count_of_relation hloc.inMbr List.length_append.symm ?_
    rcases hbox : computeCurBox curMbr xPrefix yPrefix (b + 1) xSplitter with
      ⟨LBox, RBox, rxPrefix, ryPrefix⟩
    obtain ⟨hlocl, hlocr⟩ := left.located_children right hloc hbox
    show (Option.bind (if l ≠ nullptr then
        Tree.rangeCountNode l queryMbr LBox xPrefix yPrefix b (!xSplitter) else some 0) fun retL =>
      Option.bind (if r ≠ nullptr then
        Tree.rangeCountNode r queryMbr RBox rxPrefix ryPrefix b (!xSplitter) else some 0) fun retR =>
      some (retL + retR)) = _
    rw [left.guard_count (ihl hlocl), right.guard_count (ihr hlocr)]
    simp

/-! ## Reporting -/

/-- The effect of reporting the points `Q` in a row. -/
def report (ret : Nat × List Point) (Q : List Point) : Nat × List Point :=
  (ret.1 + Q.length, Buffer.write ret.2 ret.1 Q)

@[simp] theorem report_nil (ret : Nat × List Point) : report ret [] = ret := rfl

theorem report_append (ret : Nat × List Point) (Q R : List Point) :
    report ret (Q ++ R) = report (report ret Q) R := by
  simp [report, Buffer.write_append, Nat.add_assoc]

theorem reportRecords_eq (queryMbr : BoundingBox) (records : List Point) (ret : Nat × List Point) :
    Tree.reportRecords queryMbr records ret = report ret (inQuery queryMbr records) := by
  unfold Tree.reportRecords
  induction records generalizing ret with
  | nil => rfl
  | cons p records ih =>
    rw [List.foldl_cons, ih, inQuery_cons]
    by_cases hp : pointInMbr p queryMbr = true
    · rw [if_pos hp, if_pos hp, ← List.singleton_append, report_append]
      rfl
    · rw [if_neg hp, if_neg hp]

theorem WellFormed.rangeReportNode (h : WellFormed leafSize b c t P) (queryMbr : BoundingBox) :
    ∀ {curMbr : BoundingBox} {xPrefix yPrefix : FT} {xSplitter : Bool},
      Located b curMbr xPrefix yPrefix xSplitter P → ∀ ret : Nat × List Point,
      Tree.rangeReportNode t queryMbr curMbr xPrefix yPrefix b xSplitter ret =
        report ret (inQuery queryMbr P) := by
  induction h with
  | null b c => intro _ _ _ _ _ ret; rfl
  | @leaf b c P cell fits =>
    intro curMbr xPrefix yPrefix xSplitter hloc ret
    rw [Tree.rangeReportNode]
    by_cases hneg : mbrMbrRelation curMbr queryMbr < 0
    · rw [if_pos hneg, inQuery_of_relation_neg hloc.inMbr hneg, report_nil]
    · rw [if_neg hneg, reportRecords_eq]
  | @inte b c l r A B left right hl hr large ihl ihr =>
    intro curMbr xPrefix yPrefix xSplitter hloc ret
    rw [Tree.rangeReportNode]
    by_cases hneg : mbrMbrRelation curMbr queryMbr < 0
    · rw [if_pos hneg, inQuery_of_relation_neg hloc.inMbr hneg, report_nil]
    · rw [if_neg hneg]
      rcases hbox : computeCurBox curMbr xPrefix yPrefix (b + 1) xSplitter with
        ⟨LBox, RBox, rxPrefix, ryPrefix⟩
      obtain ⟨hlocl, hlocr⟩ := left.located_children right hloc hbox
      show Tree.rangeReportNode r queryMbr RBox rxPrefix ryPrefix b (!xSplitter)
        (Tree.rangeReportNode l queryMbr LBox xPrefix yPrefix b (!xSplitter) ret) = _
      rw [ihl hlocl, ihr hlocr, inQuery_append, report_append]

/-! ## Collecting -/

theorem WellFormed.collectRecordsIn (h : WellFormed leafSize b c t P) (queryMbr : BoundingBox) :
    ∀ {curMbr : BoundingBox} {xPrefix yPrefix : FT} {xSplitter : Bool},
      Located b curMbr xPrefix yPrefix xSplitter P →
      Tree.collectRecordsIn t queryMbr curMbr xPrefix yPrefix b xSplitter =
        inQuery queryMbr P := by
  induction h with
  | null b c => intro _ _ _ _ _; rfl
  | @leaf b c P cell fits =>
    intro curMbr xPrefix yPrefix xSplitter hloc
    rw [Tree.collectRecordsIn]
    by_cases hneg : mbrMbrRelation curMbr queryMbr < 0
    · rw [if_pos hneg, inQuery_of_relation_neg hloc.inMbr hneg]
    · rw [if_neg hneg]
      by_cases hpos : mbrMbrRelation curMbr queryMbr > 0
      · rw [if_pos hpos, inQuery_of_relation_pos hloc.inMbr hpos]
      · rw [if_neg hpos]
        rfl
  | @inte b c l r A B left right hl hr large ihl ihr =>
    intro curMbr xPrefix yPrefix xSplitter hloc
    rw [Tree.collectRecordsIn]
    by_cases hneg : mbrMbrRelation curMbr queryMbr < 0
    · rw [if_pos hneg, inQuery_of_relation_neg hloc.inMbr hneg]
    · rw [if_neg hneg]
      rcases hbox : computeCurBox curMbr xPrefix yPrefix (b + 1) xSplitter with
        ⟨LBox, RBox, rxPrefix, ryPrefix⟩
      obtain ⟨hlocl, hlocr⟩ := left.located_children right hloc hbox
      show Tree.collectRecordsIn l queryMbr LBox xPrefix yPrefix b (!xSplitter) ++
        Tree.collectRecordsIn r queryMbr RBox rxPrefix ryPrefix b (!xSplitter) = _
      rw [ihl hlocl, ihr hlocr, inQuery_append]

/-! ## Whole versions -/

/-- Range queries are exact on every version: the count, the reported points and the collected
records are those of the version's records that lie in the query box. -/
theorem range_queries_exact (ht : Version leafSize t) (hne : t ≠ nullptr)
    (hmbr : ∀ p ∈ Tree.collectRecords t, pointInMbr p curMbr = true)
    (hgrid : ∀ p ∈ Tree.collectRecords t, p.OnGrid) (queryMbr : BoundingBox) :
    Tree.rangeCount t queryMbr curMbr =
        some ((Tree.collectRecords t).countP fun p => pointInMbr p queryMbr) ∧
      (∀ out : List Point,
        ((Tree.collectRecords t).countP fun p => pointInMbr p queryMbr) ≤ out.length →
        ∃ cnt out', Tree.rangeReport t queryMbr curMbr 0 out = (cnt, out') ∧
          cnt = ((Tree.collectRecords t).countP fun p => pointInMbr p queryMbr) ∧
          out'.take cnt = (Tree.collectRecords t).filter (fun p => pointInMbr p queryMbr) ∧
          out'.drop cnt = out.drop cnt) ∧
      Tree.collectRecordsIn t queryMbr curMbr 0 0 64 true =
        (Tree.collectRecords t).filter fun p => pointInMbr p queryMbr := by
  have hw := ht.isVersion
  have hloc : Located 64 curMbr 0 0 true (Tree.collectRecords t) := Located.root hmbr hgrid
  rw [countP_pointInMbr]
  refine ⟨hw.rangeCountNode queryMbr hloc hne, fun out hout => ?_,
    hw.collectRecordsIn queryMbr hloc⟩
  refine ⟨_, _, hw.rangeReportNode queryMbr hloc (0, out), Nat.zero_add _, ?_, ?_⟩
  · show (Buffer.write out 0 _).take (0 + _) = _
    rw [Buffer.take_write (by rwa [Nat.zero_add]), List.take_zero]
    rfl
  · show (Buffer.write out 0 _).drop (0 + _) = out.drop (0 + _)
    rw [Buffer.write_eq (by rwa [Nat.zero_add]), List.take_zero, List.nil_append,
      List.drop_left' (Nat.zero_add _).symm]

/-- A query box that meets the box of the version in a degenerate line through one record. -/
theorem range_queries_exact_line :
    Tree.rangeCount (Tree.build 1 [⟨5, 1, 1, 3⟩, ⟨9, 5, 6, 54⟩]) ⟨.ofXY 5 0, .ofXY 5 9⟩
      ⟨.ofXY 0 0, .ofXY 6 6⟩ = some 1 := by
  have hgrid : ∀ p ∈ ([⟨5, 1, 1, 3⟩, ⟨9, 5, 6, 54⟩] : List Point), p.OnGrid := by
    intro p hp
    fin_cases hp
    · exact Point.IsInteger.onGrid ⟨1, 1, by norm_num, by norm_num, by norm_num, by norm_num⟩
    · exact Point.IsInteger.onGrid ⟨5, 6, by norm_num, by norm_num, by norm_num, by norm_num⟩
  have hrecords : Tree.collectRecords (Tree.build 1 [⟨5, 1, 1, 3⟩, ⟨9, 5, 6, 54⟩]) =
      [⟨5, 1, 1, 3⟩, ⟨9, 5, 6, 54⟩] := by decide +kernel
  have ht : Version 1 (Tree.build 1 [⟨5, 1, 1, 3⟩, ⟨9, 5, 6, 54⟩]) :=
    .build ⟨by decide +kernel, by decide +kernel⟩
  have hmbr : ∀ p ∈ Tree.collectRecords (Tree.build 1 [⟨5, 1, 1, 3⟩, ⟨9, 5, 6, 54⟩]),
      pointInMbr p ⟨.ofXY 0 0, .ofXY 6 6⟩ = true := by
    rw [hrecords]
    decide +kernel
  have h := range_queries_exact ht (by decide +kernel) hmbr (by rwa [hrecords])
    ⟨.ofXY 5 0, .ofXY 5 9⟩
  rw [h.1, hrecords]
  decide +kernel

end Silva
