import Silva.Mvq.Query
import Silva.Mvq.Proofs.HistoryProofs
import Silva.Geo.Proofs.BoxProofs

/-!
# Proofs: nearest-neighbour queries are exact

The queue always holds the best candidates among the records seen so far. Skipping a subtree is
sound because its box is at most as far as its records, and a record farther than the top of a full
queue would be refused anyway; on equal distances the subtree is visited.
-/

namespace Silva

open BaseNode BoundedQueue

/-- The order of candidates: nearer first, then the larger identifier first. -/
def candidateKey (c : NnPair) : FT ×ₗ ℕᵒᵈ := toLex (c.2, OrderDual.toDual c.1.id)

theorem nnPairCmp_iff (lhs rhs : NnPair) :
    nnPairCmp lhs rhs = true ↔ candidateKey lhs < candidateKey rhs := by
  unfold candidateKey
  rw [Prod.Lex.toLex_lt_toLex]
  simp [nnPairCmp]

theorem snd_le_of_candidateKey_le (a b : NnPair) (h : candidateKey a ≤ candidateKey b) :
    a.2 ≤ b.2 := by
  unfold candidateKey at h
  rcases Prod.Lex.toLex_le_toLex.mp h with h | ⟨h, -⟩
  · exact h.le
  · exact h.le

/-- The candidates that a list of records contributes. -/
def candidates (queryPoint : Point) (P : List Point) : List NnPair :=
  P.map fun p => (p, pointPointSqrdis p queryPoint)

@[simp] theorem candidates_nil (queryPoint : Point) : candidates queryPoint [] = [] := rfl

@[simp] theorem candidates_append (queryPoint : Point) (P Q : List Point) :
    candidates queryPoint (P ++ Q) = candidates queryPoint P ++ candidates queryPoint Q :=
  List.map_append

/-- Distinct identifiers make distinct candidates. -/
theorem candidates_nodup {queryPoint : Point} {P : List Point} (h : (P.map Point.id).Nodup) :
    ((candidates queryPoint P).map candidateKey).Nodup := by
  have hid : ((candidates queryPoint P).map candidateKey).map
      (fun k => OrderDual.ofDual (ofLex k).2) = P.map Point.id := by
    simp [candidates, candidateKey, Function.comp_def]
  rw [← hid] at h
  exact h.of_map

variable {leafSize b c k : Nat} {t : BaseNode} {P : List Point} {queryPoint : Point}
  {curMbr : BoundingBox} {xPrefix yPrefix : FT} {xSplitter : Bool}

/-- Scanning a leaf offers its records. -/
theorem knnScan_best (S : List NnPair) (records : List Point) :
    Tree.knnScan k queryPoint records (best nnPairCmp k S) =
      best nnPairCmp k (S ++ candidates queryPoint records) := by
  rw [← foldl_offer_best nnPairCmp_iff]
  unfold Tree.knnScan candidates
  rw [List.foldl_map]

/-- A subtree that fails the test has no record for the queue. -/
theorem best_append_of_not_visits {S : List NnPair} {sqrdis : FT}
    (hfar : ∀ p ∈ P, sqrdis ≤ pointPointSqrdis p queryPoint) (hk : 0 < k)
    (hskip : Tree.knnVisits k (best nnPairCmp k S) sqrdis = false) :
    best nnPairCmp k (S ++ candidates queryPoint P) = best nnPairCmp k S := by
  unfold Tree.knnVisits at hskip
  rw [Bool.or_eq_false_iff, decide_eq_false_iff_not, not_lt] at hskip
  obtain ⟨hfull, htop⟩ := hskip
  obtain ⟨t, ht⟩ : ∃ t, top (best nnPairCmp k S) = some t := by
    cases hq : best nnPairCmp k S with
    | nil => rw [hq, List.length_nil] at hfull; omega
    | cons t q => exact ⟨t, rfl⟩
  have hfart : t.2 < sqrdis := by simpa [ht] using htop
  apply best_append_of_not_less nnPairCmp_iff hfull ht
  intro y hy
  obtain ⟨p, hp, rfl⟩ := List.mem_map.mp hy
  have hlt : t.2 < pointPointSqrdis p queryPoint := hfart.trans_le (hfar p hp)
  simp [nnPairCmp, hlt.le, hlt.ne']

/-- Visiting or skipping a child: either way the queue has seen its records. -/
theorem visit_best {S : List NnPair} {sqrdis : FT} {visit : List NnPair → List NnPair} (hk : 0 < k)
    (hfar : ∀ p ∈ P, sqrdis ≤ pointPointSqrdis p queryPoint)
    (hvisit : visit (best nnPairCmp k S) = best nnPairCmp k (S ++ candidates queryPoint P)) :
    (if Tree.knnVisits k (best nnPairCmp k S) sqrdis then visit (best nnPairCmp k S)
      else best nnPairCmp k S) = best nnPairCmp k (S ++ candidates queryPoint P) := by
  by_cases h : Tree.knnVisits k (best nnPairCmp k S) sqrdis = true
  · rw [if_pos h, hvisit]
  · rw [if_neg h, best_append_of_not_visits hfar hk (by simpa using h)]

/-- The distance that the test uses for a child is a lower bound for its records. -/
theorem WellFormed.child_sqrdis_le (h : WellFormed leafSize b c t P) (queryPoint : Point)
    {box : BoundingBox}
    (hin : ∀ p ∈ P, pointInMbr p box = true) : ∀ p ∈ P,
      (if t ≠ nullptr then pointMbrSqrdis queryPoint box else ftInfMax) ≤
        pointPointSqrdis p queryPoint := by
  intro p hp
  have ht : t ≠ nullptr := by
    rintro rfl
    rw [h.nullptr_iff] at hp
    exact absurd hp List.not_mem_nil
  rw [if_pos ht]
  exact pointMbrSqrdis_le (hin p hp)

/-- One subtree: whatever the order of the visits, the queue has seen its records afterwards. -/
theorem WellFormed.knnReportNodeBy (h : WellFormed leafSize b c t P)
    (leftFirst : BaseNode → BaseNode → FT → FT → List NnPair → Bool) (hk : 0 < k) :
    ∀ {curMbr : BoundingBox} {xPrefix yPrefix : FT} {xSplitter : Bool} {S : List NnPair},
      Located b curMbr xPrefix yPrefix xSplitter P →
      ((S ++ candidates queryPoint P).map candidateKey).Nodup →
      Tree.knnReportNodeBy leftFirst t k queryPoint curMbr xPrefix yPrefix b xSplitter
        (best nnPairCmp k S) = best nnPairCmp k (S ++ candidates queryPoint P) := by
  induction h with
  | null b c => intro _ _ _ _ S _ _; simp [Tree.knnReportNodeBy]
  | leaf cell fits =>
    intro _ _ _ _ S _ _
    exact knnScan_best S _
  | @inte b c l r A B left right hl hr large ihl ihr =>
    intro curMbr xPrefix yPrefix xSplitter S hloc hnd
    rw [Tree.knnReportNodeBy]
    rcases hbox : computeCurBox curMbr xPrefix yPrefix (b + 1) xSplitter with
      ⟨LBox, RBox, rxPrefix, ryPrefix⟩
    obtain ⟨hlocl, hlocr⟩ : Located b LBox xPrefix yPrefix (!xSplitter) A ∧
        Located b RBox rxPrefix ryPrefix (!xSplitter) B :=
      hloc.children (fun _ hp => left.cell.bitLess_left hp)
        (fun _ hp => right.cell.bitLess_right hp) hbox
    have hfarl := left.child_sqrdis_le queryPoint hlocl.inMbr
    have hfarr := right.child_sqrdis_le queryPoint hlocr.inMbr
    rw [candidates_append, ← List.append_assoc] at hnd ⊢
    have hswap : (S ++ candidates queryPoint A ++ candidates queryPoint B).Perm
        (S ++ candidates queryPoint B ++ candidates queryPoint A) := by
      rw [List.append_assoc, List.append_assoc]
      exact List.perm_append_comm.append_left S
    have hnd' := (hswap.map candidateKey).nodup_iff.mp hnd
    have hndA : ((S ++ candidates queryPoint A).map candidateKey).Nodup := by
      rw [List.map_append] at hnd; exact hnd.of_append_left
    have hndB : ((S ++ candidates queryPoint B).map candidateKey).Nodup := by
      rw [List.map_append] at hnd'; exact hnd'.of_append_left
    simp only [Nat.add_sub_cancel]
    by_cases hfirst : leftFirst l r (if l ≠ nullptr then pointMbrSqrdis queryPoint LBox else ftInfMax)
        (if r ≠ nullptr then pointMbrSqrdis queryPoint RBox else ftInfMax)
        (best nnPairCmp k S) = true
    · rw [if_pos hfirst, visit_best hk hfarl (ihl hlocl hndA), visit_best hk hfarr (ihr hlocr hnd)]
    · rw [if_neg hfirst, visit_best hk hfarr (ihr hlocr hndB), best_perm nnPairCmp_iff k hnd hswap,
        visit_best hk hfarl (ihl hlocl hnd')]

/-! ## Whole versions -/

/-- The queue of a whole version holds the best candidates, whatever the order of the visits. -/
theorem Version.knnReportNodeBy (ht : Version leafSize t)
    (hid : ((Tree.collectRecords t).map Point.id).Nodup)
    (hmbr : ∀ p ∈ Tree.collectRecords t, pointInMbr p curMbr = true)
    (hgrid : ∀ p ∈ Tree.collectRecords t, p.OnGrid) (queryPoint : Point) (hk : 0 < k)
    (leftFirst : BaseNode → BaseNode → FT → FT → List NnPair → Bool) :
    Tree.knnReportNodeBy leftFirst t k queryPoint curMbr 0 0 64 true [] =
      best nnPairCmp k (candidates queryPoint (Tree.collectRecords t)) := by
  have hnd : ((candidates queryPoint (Tree.collectRecords t)).map candidateKey).Nodup :=
    candidates_nodup hid
  have h := ht.isVersion.knnReportNodeBy leftFirst hk (S := []) (Located.root hmbr hgrid)
    (by rwa [List.nil_append])
  rwa [List.nil_append, best_nil] at h

/-- The records in the order of their distance to the query point, equally near ones by descending
identifier. -/
def nearestFirst (queryPoint : Point) (P : List Point) : List Point :=
  P.insertionSort fun p q => pointPointSqrdis p queryPoint < pointPointSqrdis q queryPoint ∨
    (pointPointSqrdis p queryPoint = pointPointSqrdis q queryPoint ∧ q.id ≤ p.id)

theorem nearestFirst_perm (queryPoint : Point) (P : List Point) :
    (nearestFirst queryPoint P).Perm P := List.perm_insertionSort _ P

theorem nearestFirst_sorted (queryPoint : Point) (P : List Point) :
    (candidates queryPoint (nearestFirst queryPoint P)).Pairwise
      (fun a b => candidateKey a ≤ candidateKey b) := by
  have hle : ∀ p q : Point, (pointPointSqrdis p queryPoint < pointPointSqrdis q queryPoint ∨
      (pointPointSqrdis p queryPoint = pointPointSqrdis q queryPoint ∧ q.id ≤ p.id)) ↔
      candidateKey (p, pointPointSqrdis p queryPoint) ≤
        candidateKey (q, pointPointSqrdis q queryPoint) := by
    intro p q
    unfold candidateKey
    rw [Prod.Lex.toLex_le_toLex]
    exact Iff.rfl
  unfold candidates nearestFirst
  rw [List.pairwise_map]
  simp only [hle]
  have : Std.Total (fun p q : Point => candidateKey (p, pointPointSqrdis p queryPoint) ≤
      candidateKey (q, pointPointSqrdis q queryPoint)) := ⟨fun p q => le_total _ _⟩
  have : IsTrans Point (fun p q : Point => candidateKey (p, pointPointSqrdis p queryPoint) ≤
      candidateKey (q, pointPointSqrdis q queryPoint)) := ⟨fun p q r h1 h2 => h1.trans h2⟩
  exact List.pairwise_insertionSort _ P

/-- Nearest-neighbour queries are exact on every version, and they do not depend on the order in
which the children are visited. -/
theorem knn_exact (ht : Version leafSize t) (hid : ((Tree.collectRecords t).map Point.id).Nodup)
    (hmbr : ∀ p ∈ Tree.collectRecords t, pointInMbr p curMbr = true)
    (hgrid : ∀ p ∈ Tree.collectRecords t, p.OnGrid) (queryPoint : Point) (hk : 0 < k) :
    Tree.knnReport t k queryPoint curMbr =
        (candidates queryPoint
          ((nearestFirst queryPoint (Tree.collectRecords t)).take k)).reverse ∧
      ∀ leftFirst : BaseNode → BaseNode → FT → FT → List NnPair → Bool,
        Tree.knnReportNodeBy leftFirst t k queryPoint curMbr 0 0 64 true [] =
          Tree.knnReport t k queryPoint curMbr := by
  have hnd : ((candidates queryPoint (Tree.collectRecords t)).map candidateKey).Nodup :=
    candidates_nodup hid
  have hall := ht.knnReportNodeBy hid hmbr hgrid queryPoint hk
  have hsorted : best nnPairCmp k (candidates queryPoint (Tree.collectRecords t)) =
      (candidates queryPoint
        ((nearestFirst queryPoint (Tree.collectRecords t)).take k)).reverse := by
    rw [best_eq_take nnPairCmp_iff k hnd ((nearestFirst_perm queryPoint _).map _)
      (nearestFirst_sorted queryPoint _), ← List.map_take]
    rfl
  exact ⟨(hall _).trans hsorted, fun leftFirst => (hall leftFirst).trans (hall _).symm⟩

/-- Two records at the same distance: the query for one neighbour returns the larger identifier. -/
theorem knn_exact_tie :
    (Tree.knnReport (Tree.build 1 [⟨5, 1, 1, 3⟩, ⟨9, 5, 1, 35⟩]) 1 (.ofXY 3 1)
      ⟨.ofXY 0 0, .ofXY 6 6⟩).map (fun c => c.1.id) = [9] := by
  have hgrid : ∀ p ∈ ([⟨5, 1, 1, 3⟩, ⟨9, 5, 1, 35⟩] : List Point), p.OnGrid := by
    intro p hp
    fin_cases hp
    · exact Point.IsInteger.onGrid ⟨1, 1, by norm_num, by norm_num, by norm_num, by norm_num⟩
    · exact Point.IsInteger.onGrid ⟨5, 1, by norm_num, by norm_num, by norm_num, by norm_num⟩
  have hrecords : Tree.collectRecords (Tree.build 1 [⟨5, 1, 1, 3⟩, ⟨9, 5, 1, 35⟩]) =
      [⟨5, 1, 1, 3⟩, ⟨9, 5, 1, 35⟩] := by decide +kernel
  have ht : Version 1 (Tree.build 1 [⟨5, 1, 1, 3⟩, ⟨9, 5, 1, 35⟩]) :=
    .build ⟨by decide +kernel, by decide +kernel⟩
  have hmbr : ∀ p ∈ Tree.collectRecords (Tree.build 1 [⟨5, 1, 1, 3⟩, ⟨9, 5, 1, 35⟩]),
      pointInMbr p ⟨.ofXY 0 0, .ofXY 6 6⟩ = true := by
    rw [hrecords]
    decide +kernel
  have h := knn_exact ht (by rw [hrecords]; decide) hmbr (by rwa [hrecords]) (.ofXY 3 1)
    (Nat.one_pos)
  rw [h.1, hrecords]
  decide +kernel

end Silva
