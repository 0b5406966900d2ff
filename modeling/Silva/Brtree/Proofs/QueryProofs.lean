import Silva.Brtree.WellFormed
import Silva.Cpam.Proofs.KnnFilterProofs
import Silva.Mvq.Proofs.RangeProofs
import Silva.Mvq.Proofs.KnnProofs

/-!
# Proofs: the queries on the boxes of the nodes are exact

Every node stores a box around its points, so a node whose box misses the query can be skipped and one
whose box lies inside the query taken whole; a box is at most as far as its points.
-/

namespace Silva

namespace BRTree

open BRTree.BaseNode BoundedQueue

variable {leafSize : ℕ+} {t : BaseNode} {P : List Point} {k : ℕ} {queryPoint : Point}

/-! ## Counting -/

theorem WellFormed.rangeCountNode (h : WellFormed leafSize t P) (queryMbr : BoundingBox) :
    Tree.rangeCountNode queryMbr t = some (inQuery queryMbr P).length := by
  induction h with
  | @leaf mbr P fits hin =>
    exact count_of_relation hin rfl (congrArg some (countP_pointInMbr queryMbr P))
  | @inte mbr l r A B left right large half hin ihl ihr =>
    refine count_of_relation hin List.length_append.symm ?_
    rw [left.isNull, right.isNull, ihl, ihr, inQuery_append, List.length_append]
    rfl

/-! ## Reporting -/

/-- The effect of a guarded visit: a son whose box misses the query has nothing to report. -/
theorem WellFormed.guard_report (h : WellFormed leafSize t P) {queryMbr : BoundingBox}
    (ret : ℕ × List Point) (hvisit : Tree.rangeReportNode queryMbr t ret =
      some (report ret (inQuery queryMbr P))) :
    (if !t.isNull ∧ mbrMbrRelation t.mbr queryMbr ≥ 0 then Tree.rangeReportNode queryMbr t ret
      else some ret) = some (report ret (inQuery queryMbr P)) := by
  rw [h.isNull]
  by_cases hflag : mbrMbrRelation t.mbr queryMbr ≥ 0
  · rw [if_pos ⟨rfl, hflag⟩, hvisit]
  · rw [if_neg (fun hc => hflag hc.2), inQuery_of_relation_neg h.inMbr (not_le.mp hflag), report_nil]

theorem WellFormed.rangeReportNode (h : WellFormed leafSize t P) (queryMbr : BoundingBox) :
    ∀ ret : ℕ × List Point, Tree.rangeReportNode queryMbr t ret =
      some (report ret (inQuery queryMbr P)) := by
  induction h with
  | leaf fits hin =>
    intro ret
    rw [Tree.rangeReportNode, reportRecords_eq]
  | inte left right large half hin ihl ihr =>
    intro ret
    rw [Tree.rangeReportNode, left.guard_report ret (ihl ret), inQuery_append, report_append]
    exact right.guard_report _ (ihr _)

/-! ## Nearest neighbours -/

/-- Scanning a leaf checks its points. -/
theorem queue_knnScan {S nnRes : List NnPair} (hk : 0 < k) (h : Cpam.Queue candidateKey k S nnRes)
    (P : List Point) :
    Cpam.Queue candidateKey k (S ++ candidates queryPoint P)
      (Tree.knnScan k queryPoint P nnRes) := by
  have hq := h.foldl_ptCheck nnPairCmp_iff snd_le_of_candidateKey_le hk
    (f := fun p => pointPointSqrdis p queryPoint) (P.map fun p => ((), p))
  unfold Cpam.distances at hq
  rwa [List.map_map, List.foldl_map] at hq

/-- `goLeft` or `goRight`: either way the queue has seen the points of the son. -/
theorem WellFormed.goSon (h : WellFormed leafSize t P) (hk : 0 < k) {S nnRes : List NnPair}
    (hq : Cpam.Queue candidateKey k S nnRes) (hvisit : ∃ nnRes', Tree.knnReportNode k queryPoint t
      nnRes = some nnRes' ∧ Cpam.Queue candidateKey k (S ++ candidates queryPoint P) nnRes') :
    ∃ nnRes', (if Cpam.visits k nnRes (pointMbrSqrdis queryPoint t.mbr) then
        Tree.knnReportNode k queryPoint t nnRes else some nnRes) = some nnRes' ∧
      Cpam.Queue candidateKey k (S ++ candidates queryPoint P) nnRes' := by
  by_cases hvisits : Cpam.visits k nnRes (pointMbrSqrdis queryPoint t.mbr) = true
  · rw [if_pos hvisits]
    exact hvisit
  · rw [if_neg hvisits]
    refine ⟨nnRes, rfl, hq.skip snd_le_of_candidateKey_le hk (by simpa using hvisits) ?_⟩
    intro y hy
    obtain ⟨p, hp, rfl⟩ := List.mem_map.mp hy
    exact pointMbrSqrdis_le (h.inMbr p hp)

/-- One subtree: whichever son comes first, the queue has seen all points afterwards. -/
theorem WellFormed.knnReportNode (h : WellFormed leafSize t P) (hk : 0 < k) (queryPoint : Point) :
    ∀ {S nnRes : List NnPair}, Cpam.Queue candidateKey k S nnRes →
      ∃ nnRes', Tree.knnReportNode k queryPoint t nnRes = some nnRes' ∧
        Cpam.Queue candidateKey k (S ++ candidates queryPoint P) nnRes' := by
  induction h with
  | leaf fits hin =>
    intro S nnRes hq
    exact ⟨_, rfl, queue_knnScan hk hq _⟩
  | @inte mbr l r A B left right large half hin ihl ihr =>
    intro S nnRes hq
    rw [Tree.knnReportNode, left.isNull, right.isNull, candidates_append]
    simp only [Bool.not_false, if_true]
    by_cases hfirst : pointMbrSqrdis queryPoint l.mbr ≤ pointMbrSqrdis queryPoint r.mbr
    · rw [if_pos hfirst]
      obtain ⟨nnRes₁, hrun₁, hq₁⟩ := left.goSon hk hq (ihl hq)
      obtain ⟨nnRes₂, hrun₂, hq₂⟩ := right.goSon hk hq₁ (ihr hq₁)
      refine ⟨nnRes₂, ?_, ?_⟩
      · rw [hrun₁]
        exact hrun₂
      · rwa [← List.append_assoc]
    · rw [if_neg hfirst]
      obtain ⟨nnRes₁, hrun₁, hq₁⟩ := right.goSon hk hq (ihr hq)
      obtain ⟨nnRes₂, hrun₂, hq₂⟩ := left.goSon hk hq₁ (ihl hq₁)
      refine ⟨nnRes₂, ?_, ?_⟩
      · rw [hrun₁]
        exact hrun₂
      · rw [List.append_assoc] at hq₂
        exact hq₂.perm (List.perm_append_comm.append_left S)

/-! ## Built trees -/

/-- The queries on the boxes are exact on every built tree: the count, the slots that the report
writes, and the distances of the nearest neighbours. -/
theorem mbr_queries_exact (leafSize : ℕ+) (hP : P ≠ []) (queryMbr : BoundingBox)
    (hk : 0 < k) (queryPoint : Point) :
    let n := P.countP fun p => pointInMbr p queryMbr
    Tree.rangeCount (Tree.build leafSize P) queryMbr = some n ∧
      (∀ cnt out, cnt + n ≤ out.length →
        Tree.rangeReport (Tree.build leafSize P) queryMbr cnt out =
          some (cnt + n, out.take cnt ++ P.filter (fun p => pointInMbr p queryMbr) ++
            out.drop (cnt + n))) ∧
      ∃ nnRes, Tree.knnReport (Tree.build leafSize P) k queryPoint = some nnRes ∧
        (nnRes.map Prod.snd).Perm
          (smallestDistances k (P.map fun p => pointPointSqrdis p queryPoint)) := by
  have hwf := Tree.build_wellFormed leafSize hP
  have hn : (P.countP fun p => pointInMbr p queryMbr) = (inQuery queryMbr P).length :=
    countP_pointInMbr queryMbr P
  refine ⟨?_, fun cnt out hout => ?_, ?_⟩
  · rw [hn]
    exact hwf.rangeCountNode queryMbr
  · rw [hn] at hout ⊢
    have hreport := hwf.rangeReportNode queryMbr (cnt, out)
    unfold report at hreport
    rwa [Buffer.write_eq hout] at hreport
  · obtain ⟨nnRes, hrun, hq⟩ := hwf.knnReportNode hk queryPoint (.nil candidateKey k)
    refine ⟨nnRes, hrun, ?_⟩
    have hperm := hq.nearest.map_dist_perm
    unfold candidates at hperm
    rwa [List.nil_append, List.map_map] at hperm

/-- Two points with negative coordinates, each in a leaf of its own: one is in the box, and it is the
nearest one. -/
theorem mbr_queries_exact_two :
    let t := Tree.build 1 [⟨1, -3, -1, 0⟩, ⟨2, -5, 2, 0⟩]
    let queryMbr : BoundingBox := ⟨.ofXY (-4) (-1), .ofXY 0 3⟩
    Tree.rangeCount t queryMbr = some 1 ∧
      Tree.rangeReport t queryMbr 0 [default, default] = some (1, [⟨1, -3, -1, 0⟩, default]) ∧
      ∃ nnRes, Tree.knnReport t 1 (.ofXY 0 0) = some nnRes ∧ (nnRes.map Prod.snd).Perm [10] := by
  intro t queryMbr
  obtain ⟨hcount, hreport, nnRes, hrun, hknn⟩ :=
    mbr_queries_exact 1 (List.cons_ne_nil ⟨1, -3, -1, 0⟩ [⟨2, -5, 2, 0⟩]) queryMbr Nat.one_pos
      (.ofXY 0 0)
  refine ⟨hcount.trans (by decide +kernel),
    (hreport 0 [default, default] (by decide +kernel)).trans (by decide +kernel), nnRes, hrun, ?_⟩
  exact hknn.trans (List.Perm.of_eq (by decide +kernel))

end BRTree

end Silva
