import Silva.Cpam.Proofs.KnnFilterProofs
import Silva.Mvq.Proofs.KnnProofs
import Silva.Mvq.Proofs.RoundTripProofs
import Silva.Pacz.Proofs.TreeProofs

/-!
# Proofs: nearest neighbours on both indexes

Both queries select nearest points, so they agree where the selection is determined. Where points tie
at the last place, the tree index prefers large identifiers and the map the points it visits first.
-/

namespace Silva

open BoundedQueue

theorem noTie_candidates (queryPoint : Point) (k : ℕ) (P : List Point) :
    NoTie Prod.snd k (candidates queryPoint P) ↔
      NoTie (fun p => pointPointSqrdis p queryPoint) k P := by
  unfold NoTie candidates
  simp only [List.countP_map]
  rfl

variable {leafSize k : Nat} {t : BaseNode} {curMbr : BoundingBox} {queryPoint : Point}

/-- The query on the tree index selects nearest records. -/
theorem Version.knnReport_kNearest (ht : Version leafSize t)
    (hid : ((Tree.collectRecords t).map Point.id).Nodup)
    (hmbr : ∀ p ∈ Tree.collectRecords t, pointInMbr p curMbr = true)
    (hgrid : ∀ p ∈ Tree.collectRecords t, p.OnGrid) (queryPoint : Point) (hk : 0 < k) :
    KNearest Prod.snd k (candidates queryPoint (Tree.collectRecords t))
      (Tree.knnReport t k queryPoint curMbr) := by
  unfold Tree.knnReport Tree.knnReportNode
  rw [ht.knnReportNodeBy hid hmbr hgrid queryPoint hk]
  exact best_kNearest nnPairCmp_iff snd_le_of_candidateKey_le k _

/-- The records of a version with distinct identifiers are the entries of a map. -/
theorem Version.entries_sorted (ht : Version leafSize t)
    (hid : ((Tree.collectRecords t).map Point.id).Nodup) :
    (Tree.collectRecords t).Pairwise (·.key < ·.key) :=
  ht.batch.sorted.imp₂ (fun _ _ hle hne => lt_of_le_of_ne hle hne)
    (List.pairwise_map.mp (nodup_key_of_nodup_id hid))

namespace PACZ

variable {tree : Node} {es : List (KeyType × Point)}

theorem distances_eq_candidates (es : List (KeyType × Point)) (queryPoint : Point) :
    Cpam.distances (fun p => pointPointSqrdis p queryPoint) es =
      candidates queryPoint (es.map Prod.snd) := by
  unfold Cpam.distances candidates
  rw [List.map_map]
  rfl

theorem sqrdis_encode_le (queryPoint : Point) (es : List (KeyType × Point)) (e : KeyType × Point)
    (he : e ∈ es) :
    pointMbrSqrdis queryPoint (Cpam.encode entry es).1 ≤ pointPointSqrdis e.2 queryPoint :=
  pointMbrSqrdis_le (pointInMbr_encode he)

/-- The query on a well-formed tree selects nearest values. -/
theorem knn_kNearest (h : Cpam.WellFormed entry blockSize tree es) (queryPoint : Point) (hk : 0 < k) :
    KNearest Prod.snd k (candidates queryPoint (es.map Prod.snd)) (knn tree queryPoint k) := by
  have hq : Cpam.Queue candidateKey k
      ([] ++ Cpam.distances (fun p => pointPointSqrdis p queryPoint) es) (knn tree queryPoint k) :=
    h.knnFilter nnPairCmp_iff snd_le_of_candidateKey_le (sqrdis_encode_le queryPoint) hk
      (.nil candidateKey k)
  rw [List.nil_append, distances_eq_candidates] at hq
  exact hq.nearest

/-- The query on the map selects nearest values. -/
theorem IsMap.knn_kNearest (h : IsMap tree es) (queryPoint : Point) (hk : 0 < k) :
    KNearest Prod.snd k (candidates queryPoint (es.map Prod.snd)) (knn tree queryPoint k) :=
  PACZ.knn_kNearest h.wellFormed queryPoint hk

/-- Nearest neighbours are exact on every well-formed tree: the distances in the queue are the smallest
ones of all stored points. -/
theorem knn_distances_exact (h : Cpam.WellFormed entry blockSize tree es) (queryPoint : Point)
    (hk : 0 < k) :
    ((knn tree queryPoint k).map Prod.snd).Perm
      (smallestDistances k (es.map fun e => pointPointSqrdis e.2 queryPoint)) := by
  have hperm := (knn_kNearest h queryPoint hk).map_dist_perm
  unfold candidates at hperm
  rwa [List.map_map, List.map_map] at hperm

/-- A regular node over a block, with the query point at one of the two points. -/
theorem knn_distances_exact_two_nodes :
    let e : KeyType × Point := (toLex (0, 1), ⟨1, 0, 0, 0⟩)
    let e' : KeyType × Point := (toLex (3, 7), ⟨7, 1, 1, 3⟩)
    let tree : Node :=
      .regular .null e (.compressed [e'] (Cpam.encode entry [e'])) 2 (Cpam.encode entry [e, e'])
    ((knn tree (.ofXY 1 1) 1).map Prod.snd).Perm (smallestDistances 1 [2, 0]) := by
  intro e e' tree
  have hright : Cpam.WellFormed entry blockSize (.compressed [e'] (Cpam.encode entry [e'])) [e'] :=
    .compressed (List.cons_ne_nil _ _) (by decide)
  have hexact := knn_distances_exact (.regular .null e hright) (.ofXY 1 1) Nat.one_pos
  rwa [show List.map (fun e => pointPointSqrdis e.2 (.ofXY 1 1)) ([] ++ e :: [e']) = [2, 0] by
    decide +kernel] at hexact

/-- The entries that a version of the tree index is as a map. -/
def entriesOf (P : List Point) : List (KeyType × Point) := P.map fun p => (p.key, p)

theorem entriesOf_values (P : List Point) : (entriesOf P).map Prod.snd = P := by
  unfold entriesOf
  rw [List.map_map]
  exact List.map_id _

theorem isMap_entriesOf {P : List Point} (hP : P.Pairwise (·.key < ·.key))
    (hwf : Cpam.WellFormed entry blockSize tree (entriesOf P)) : IsMap tree (entriesOf P) where
  wellFormed := hwf
  sorted := List.pairwise_map.mpr hP
  keyed e he := by
    obtain ⟨p, -, rfl⟩ := List.mem_map.mp he
    rfl

/-- A point that `k` others could replace is left out by the query on some map of the points. -/
theorem exists_isMap_leaving_out {P : List Point} (hP : P.Pairwise (·.key < ·.key))
    (hid : (P.map Point.id).Nodup) (queryPoint : Point) (hk : 0 < k) {p : Point} (hp : p ∈ P)
    (htie : k < P.countP fun q => pointPointSqrdis q queryPoint ≤ pointPointSqrdis p queryPoint) :
    ∃ tree, IsMap tree (entriesOf P) ∧ p.id ∉ (knn tree queryPoint k).map (·.1.id) := by
  obtain ⟨L, R, hLR⟩ := List.append_of_mem hp
  have hes : entriesOf P = entriesOf L ++ (p.key, p) :: entriesOf R := by
    rw [hLR]
    exact List.map_append
  obtain ⟨tree, hwf, hout⟩ := Cpam.exists_leavesOut nnPairCmp_iff snd_le_of_candidateKey_le hk entry
    (fun curMbr => pointMbrSqrdis queryPoint curMbr) ftInfMax blockSize (p.key, p) (entriesOf L)
    (entriesOf R) (f := fun q => pointPointSqrdis q queryPoint)
  rw [← hes] at hwf
  have hmap := isMap_entriesOf hP hwf
  have hothers : Cpam.distances (fun q => pointPointSqrdis q queryPoint)
      (entriesOf L ++ entriesOf R) = candidates queryPoint (L ++ R) := by
    rw [distances_eq_candidates, List.map_append, entriesOf_values, entriesOf_values]
  have hperm : P.Perm (p :: (L ++ R)) := hLR ▸ List.perm_middle
  have hne : ∀ y ∈ [] ++ candidates queryPoint (L ++ R), y.1 ≠ p := by
    rintro y hy rfl
    obtain ⟨q, hq, rfl⟩ := List.mem_map.mp hy
    exact (List.nodup_cons.mp (hperm.nodup_iff.mp hid.of_map)).1 hq
  have hcount : k ≤ ([] ++ candidates queryPoint (L ++ R)).countP fun y : NnPair =>
      y.2 ≤ pointPointSqrdis p queryPoint := by
    rw [hperm.countP_eq, List.countP_cons_of_pos (by simp)] at htie
    unfold candidates
    rw [List.nil_append, List.countP_map]
    exact Nat.le_of_lt_succ htie
  rw [hothers] at hout
  refine ⟨tree, hmap, fun hmem => ?_⟩
  obtain ⟨y, hy, hyp⟩ := List.mem_map.mp hmem
  have hyP := (hmap.knn_kNearest queryPoint hk).mem hy
  rw [entriesOf_values] at hyP
  obtain ⟨q, hq, rfl⟩ := List.mem_map.mp hyP
  exact hout (.nil candidateKey k) hne hcount _ hy (List.inj_on_of_nodup_map hid hq hp hyp)

/-- The two queries return the same identifiers, whatever PaC tree the map is, exactly when no points
tie at the last place: no distance has fewer than `k` points below it and more than `k` up to it. -/
theorem knn_agree_iff (ht : Version leafSize t) (hid : ((Tree.collectRecords t).map Point.id).Nodup)
    (hint : ∀ p ∈ Tree.collectRecords t, p.IsInteger)
    (hmbr : ∀ p ∈ Tree.collectRecords t, pointInMbr p curMbr = true) (queryPoint : Point)
    (hk : 0 < k) :
    (∀ tree es, IsMap tree es → (es.map Prod.snd).Perm (Tree.collectRecords t) →
        ∀ i, i ∈ (Tree.knnReport t k queryPoint curMbr).map (·.1.id) ↔
          i ∈ (knn tree queryPoint k).map (·.1.id)) ↔
      NoTie (fun p => pointPointSqrdis p queryPoint) k (Tree.collectRecords t) := by
  have hgrid : ∀ p ∈ Tree.collectRecords t, p.OnGrid := fun p hp => (hint p hp).onGrid
  have hmvq := ht.knnReport_kNearest hid hmbr hgrid queryPoint hk
  rw [← noTie_candidates]
  constructor
  · intro hagree
    by_contra htie
    obtain ⟨y, hy, hfar⟩ := hmvq.exists_tied htie
    obtain ⟨p, hp, rfl⟩ := List.mem_map.mp (hmvq.mem hy)
    unfold candidates at hfar
    rw [List.countP_map] at hfar
    obtain ⟨tree, hmap, hout⟩ :=
      exists_isMap_leaving_out (ht.entries_sorted hid) hid queryPoint hk hp hfar
    refine hout ((hagree tree _ hmap ?_ p.id).mp (List.mem_map_of_mem hy))
    rw [entriesOf_values]
  · intro htie tree es hmap hperm i
    have hpac := (hmap.knn_kNearest queryPoint hk).perm_left (hperm.map _)
    constructor
    · intro hi
      exact List.map_subset _ (hmvq.subset_of_noTie hpac htie) hi
    · intro hi
      exact List.map_subset _ (hpac.subset_of_noTie hmvq htie) hi

/-- Two points at different distances from the query point. -/
theorem knn_agree_iff_two :
    (∀ tree es, IsMap tree es →
        (es.map Prod.snd).Perm (Tree.collectRecords (Tree.build 1 [⟨5, 1, 1, 3⟩, ⟨9, 5, 1, 35⟩])) →
        ∀ i, i ∈ (Tree.knnReport (Tree.build 1 [⟨5, 1, 1, 3⟩, ⟨9, 5, 1, 35⟩]) 1 (.ofXY 2 1)
            ⟨.ofXY 0 0, .ofXY 6 6⟩).map (·.1.id) ↔
          i ∈ (knn tree (.ofXY 2 1) 1).map (·.1.id)) ↔
      NoTie (fun p => pointPointSqrdis p (.ofXY 2 1)) 1
        (Tree.collectRecords (Tree.build 1 [⟨5, 1, 1, 3⟩, ⟨9, 5, 1, 35⟩])) := by
  have hint : ∀ p ∈ ([⟨5, 1, 1, 3⟩, ⟨9, 5, 1, 35⟩] : List Point), p.IsInteger := by
    intro p hp
    fin_cases hp
    · exact ⟨1, 1, by norm_num, by norm_num, by norm_num, by norm_num⟩
    · exact ⟨5, 1, by norm_num, by norm_num, by norm_num, by norm_num⟩
  have hrecords : Tree.collectRecords (Tree.build 1 [⟨5, 1, 1, 3⟩, ⟨9, 5, 1, 35⟩]) =
      [⟨5, 1, 1, 3⟩, ⟨9, 5, 1, 35⟩] := by decide +kernel
  have hmbr : ∀ p ∈ Tree.collectRecords (Tree.build 1 [⟨5, 1, 1, 3⟩, ⟨9, 5, 1, 35⟩]),
      pointInMbr p ⟨.ofXY 0 0, .ofXY 6 6⟩ = true := by
    rw [hrecords]
    decide +kernel
  exact knn_agree_iff (.build ⟨by decide +kernel, by decide +kernel⟩) (by rw [hrecords]; decide)
    (by rwa [hrecords]) hmbr (.ofXY 2 1) Nat.one_pos

/-- Two points at the same distance in one compressed node: the tree index returns the larger
identifier, the map the point that comes first. -/
theorem tied_point_differs :
    let es : List (KeyType × Point) :=
      [(toLex (3, 5), ⟨5, 1, 1, 3⟩), (toLex (35, 9), ⟨9, 5, 1, 35⟩)]
    IsMap (.compressed es (Cpam.encode entry es)) es ∧
      (Tree.knnReport (Tree.build 16 (es.map Prod.snd)) 1 (.ofXY 3 1)
        ⟨.ofXY 0 0, .ofXY 6 6⟩).map (·.1.id) = [9] ∧
      (knn (.compressed es (Cpam.encode entry es)) (.ofXY 3 1) 1).map (·.1.id) = [5] := by
  intro es
  refine ⟨⟨.compressed (List.cons_ne_nil _ _) (by decide), by decide, by decide⟩, ?_, ?_⟩
  · decide +kernel
  · decide +kernel

end PACZ

end Silva
