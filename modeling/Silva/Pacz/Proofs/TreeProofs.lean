import Silva.Pacz.Tree
import Silva.Cpam.Proofs.FilterProofs
import Silva.Geo.Proofs.BoxProofs
import Silva.Geo.Proofs.RecordProofs

/-!
# Proofs: range queries on PaC trees are exact

The box of a node is the smallest one around its points, so the box tests of the three traversals are
sound, and each of them is a plain filter.
-/

namespace Silva

namespace PACZ

open Cpam (Joins encode)

variable {tree : Node} {es : List (KeyType × Point)} {queryMbr : BoundingBox}

/-! ## The boxes of nodes -/

theorem pointInMbr_mergeMbr_left {p : Point} {a : BoundingBox} (b : BoundingBox)
    (h : pointInMbr p a = true) : pointInMbr p (mergeMbr a b) = true := by
  obtain ⟨h1, h2, h3, h4⟩ := pointInMbr_iff.mp h
  exact pointInMbr_iff.mpr ⟨(min_le_left _ _).trans h1, h2.trans (le_max_left _ _),
    (min_le_left _ _).trans h3, h4.trans (le_max_left _ _)⟩

theorem pointInMbr_mergeMbr_right {p : Point} (a : BoundingBox) {b : BoundingBox}
    (h : pointInMbr p b = true) : pointInMbr p (mergeMbr a b) = true := by
  obtain ⟨h1, h2, h3, h4⟩ := pointInMbr_iff.mp h
  exact pointInMbr_iff.mpr ⟨(min_le_right _ _).trans h1, h2.trans (le_max_right _ _),
    (min_le_right _ _).trans h3, h4.trans (le_max_right _ _)⟩

theorem pointInMbr_self (p : Point) : pointInMbr p ⟨p, p⟩ = true :=
  pointInMbr_iff.mpr ⟨le_rfl, le_rfl, le_rfl, le_rfl⟩

/-- The fold of `encode`: its box has every point of its start and of the entries, and it counts. -/
theorem foldl_combine (es : List (KeyType × Point)) : ∀ av : AugType,
    (∀ p, (pointInMbr p av.1 = true ∨ p ∈ es.map Prod.snd) →
      pointInMbr p (es.foldl (fun av e => entry.combine av (entry.fromEntry e)) av).1 = true) ∧
    (es.foldl (fun av e => entry.combine av (entry.fromEntry e)) av).2 = av.2 + es.length := by
  induction es with
  | nil =>
    intro av
    exact ⟨fun p hp => hp.resolve_right List.not_mem_nil, rfl⟩
  | cons e es ih =>
    intro av
    obtain ⟨hbox, hcount⟩ := ih (entry.combine av (entry.fromEntry e))
    refine ⟨fun p hp => hbox p ?_, ?_⟩
    · rcases hp with hp | hp
      · exact Or.inl (pointInMbr_mergeMbr_left _ hp)
      · rcases List.mem_cons.mp hp with rfl | hp
        · exact Or.inl (pointInMbr_mergeMbr_right _ (pointInMbr_self _))
        · exact Or.inr hp
    · rw [List.foldl_cons, hcount, List.length_cons]
      show av.2 + 1 + es.length = _
      omega

/-- Every point of a node lies in the box of the node. -/
theorem pointInMbr_encode {e : KeyType × Point} (he : e ∈ es) :
    pointInMbr e.2 (encode entry es).1 = true := by
  cases es with
  | nil => cases he
  | cons e' es =>
    refine (foldl_combine es (entry.fromEntry e')).1 e.2 ?_
    rcases List.mem_cons.mp he with rfl | he
    · exact Or.inl (pointInMbr_self _)
    · exact Or.inr (List.mem_map_of_mem he)

theorem encode_count (es : List (KeyType × Point)) : (encode entry es).2 = es.length := by
  cases es with
  | nil => rfl
  | cons e es =>
    rw [encode, (foldl_combine es (entry.fromEntry e)).2, List.length_cons, Nat.add_comm]
    rfl

/-! ## The tests of the traversals -/

/-- The box of a single point is inside the query exactly when the point is. -/
theorem mbrMbrRelation_point (p : Point) (queryMbr : BoundingBox) :
    mbrMbrRelation ⟨p, p⟩ queryMbr = 1 ↔ pointInMbr p queryMbr = true := by
  constructor
  · intro h
    exact pointInMbr_of_relation_pos (by rw [h]; decide) (pointInMbr_self p)
  · intro h
    obtain ⟨h1, h2, h3, h4⟩ := pointInMbr_iff.mp h
    unfold mbrMbrRelation
    simp [max_eq_left h1, max_eq_left h3, min_eq_left h2, min_eq_left h4]

theorem sound (queryMbr : BoundingBox) : Cpam.Sound entry (fun cur => mbrMbrRelation cur queryMbr)
    (fun cur => pointInMbr cur queryMbr) where
  exclude _ _ hflag _ he := not_pointInMbr_of_relation_neg hflag (pointInMbr_encode he)
  contain es hne hflag e he :=
    pointInMbr_of_relation_pos (by rw [hflag]; decide) (pointInMbr_encode he)
  count es _ := encode_count es

/-- A box that `mbr_exclude_mbr` rejects has no point of the query. -/
theorem not_pointInMbr_of_exclude {p : Point} {mbr : BoundingBox}
    (h : mbrExcludeMbr queryMbr mbr = true) (hp : pointInMbr p mbr = true) :
    pointInMbr p queryMbr = false := by
  rw [← Bool.not_eq_true]
  intro hq
  obtain ⟨h1, h2, h3, h4⟩ := pointInMbr_iff.mp hp
  obtain ⟨q1, q2, q3, q4⟩ := pointInMbr_iff.mp hq
  unfold mbrExcludeMbr at h
  simp only [Bool.or_eq_true, decide_eq_true_eq] at h
  rcases h with (h | h) | (h | h)
  · exact absurd (q1.trans h2) (not_le.mpr h)
  · exact absurd (h1.trans q2) (not_le.mpr h)
  · exact absurd (q3.trans h4) (not_le.mpr h)
  · exact absurd (h3.trans q4) (not_le.mpr h)

/-! ## The queries -/

/-- The values of a version, in key order. -/
theorem IsMap.values_sorted (h : IsMap tree es) :
    (es.map Prod.snd).Pairwise (·.key < ·.key) := by
  refine List.pairwise_map.mpr (h.sorted.imp_of_mem fun {a b} ha hb hlt => ?_)
  rwa [← h.keyed a ha, ← h.keyed b hb]

theorem IsMap.rangeCount (h : IsMap tree es) (queryMbr : BoundingBox) :
    rangeCount tree queryMbr = (es.map Prod.snd).countP fun p => pointInMbr p queryMbr := by
  rw [List.countP_eq_length_filter]
  exact h.wellFormed.rangeCountFilter2 (sound queryMbr)

theorem IsMap.rangeReport (h : IsMap tree es) (queryMbr : BoundingBox) (out : List Point) :
    rangeReport tree queryMbr out =
      (((es.map Prod.snd).filter fun p => pointInMbr p queryMbr).length,
        Buffer.write out 0 ((es.map Prod.snd).filter fun p => pointInMbr p queryMbr)) := by
  have hrep := h.wellFormed.rangeReportFilter2 (sound queryMbr)
    (fun p => mbrMbrRelation_point p queryMbr) (0, out)
  rw [Cpam.foldl_assign, Nat.zero_add] at hrep
  exact hrep

theorem IsMap.filterRange (h : IsMap tree es) {joins : Joins KeyType Point AugType}
    (hj : joins.InOrder) (queryMbr : BoundingBox) :
    (filterRange joins tree queryMbr).entries = es.filter fun e => pointInMbr e.2 queryMbr := by
  refine h.wellFormed.augFilter2 hj fun es _ hbb e he => ?_
  exact not_pointInMbr_of_exclude (by simpa using hbb) (pointInMbr_encode he)

/-- Range queries are exact on every well-formed tree and for every query box: the count, the report
in key order, and the filtered map. -/
theorem pac_range_queries_exact (h : IsMap tree es) (queryMbr : BoundingBox) :
    rangeCount tree queryMbr = ((es.map Prod.snd).countP fun p => pointInMbr p queryMbr) ∧
      (∀ out : List Point,
        ((es.map Prod.snd).countP fun p => pointInMbr p queryMbr) ≤ out.length →
        ∃ ret out', rangeReport tree queryMbr out = (ret, out') ∧
          ret = ((es.map Prod.snd).countP fun p => pointInMbr p queryMbr) ∧
          out'.take ret = (es.map Prod.snd).filter (fun p => pointInMbr p queryMbr) ∧
          (out'.take ret).Pairwise (·.key < ·.key)) ∧
      ∀ joins : Joins KeyType Point AugType, joins.InOrder →
        (filterRange joins tree queryMbr).entries = es.filter fun e => pointInMbr e.2 queryMbr := by
  refine ⟨h.rangeCount queryMbr, fun out hout => ?_, fun joins hj => h.filterRange hj queryMbr⟩
  rw [List.countP_eq_length_filter] at hout ⊢
  have htake := @Buffer.take_write _ out 0 ((es.map Prod.snd).filter fun p => pointInMbr p queryMbr)
    (by rwa [Nat.zero_add])
  rw [Nat.zero_add, List.take_zero, List.nil_append] at htake
  refine ⟨_, _, h.rangeReport queryMbr out, rfl, htake, ?_⟩
  rw [htake]
  exact h.values_sorted.filter _

/-- A regular node over a compressed one, and a query box that has a point on its edge. -/
theorem pac_range_queries_exact_two_nodes :
    let e : KeyType × Point := (toLex (0, 1), ⟨1, 0, 0, 0⟩)
    let e' : KeyType × Point := (toLex (3, 7), ⟨7, 1, 1, 3⟩)
    let tree : Node := .regular .null e (.compressed [e'] (encode entry [e'])) 2 (encode entry [e, e'])
    let queryMbr : BoundingBox := ⟨.ofXY 1 0, .ofXY 2 1⟩
    rangeCount tree queryMbr = 1 ∧ rangeReport tree queryMbr [⟨0, 0, 0, 0⟩] = (1, [⟨7, 1, 1, 3⟩]) := by
  intro e e' tree queryMbr
  have hright : Cpam.WellFormed entry blockSize (.compressed [e'] (encode entry [e'])) [e'] :=
    .compressed (List.cons_ne_nil _ _) (by decide)
  have hwf : Cpam.WellFormed entry blockSize tree [e, e'] := .regular .null e hright
  have h : IsMap tree [e, e'] :=
    { wellFormed := hwf
      sorted := by decide
      keyed := by decide }
  obtain ⟨hcount, hreport, -⟩ := pac_range_queries_exact h queryMbr
  have hone : (([e, e'].map Prod.snd).countP fun p => pointInMbr p queryMbr) = 1 := by decide +kernel
  rw [hone] at hcount hreport
  obtain ⟨ret, out', hrep, rfl, htake, -⟩ := hreport [⟨0, 0, 0, 0⟩] le_rfl
  refine ⟨hcount, ?_⟩
  rw [hrep]
  have hlen : out'.length = 1 := by
    have := congrArg (fun r => r.2.length) (hrep.symm.trans (h.rangeReport queryMbr _))
    simpa using this
  rw [List.take_of_length_le hlen.le] at htake
  rw [htake]
  decide +kernel

/-! ## Differences inside a query box -/

/-- The points of a version inside the query box. -/
def pointsIn (queryMbr : BoundingBox) (es : List (KeyType × Point)) : List Point :=
  (es.map Prod.snd).filter fun p => pointInMbr p queryMbr

theorem IsMap.pointsIn_sorted (h : IsMap tree es) (queryMbr : BoundingBox) :
    (pointsIn queryMbr es).Pairwise (·.key < ·.key) := h.values_sorted.filter _

theorem all_fst_ne (es : List (KeyType × Point)) (k : KeyType) :
    (es.all fun e => e.1 ≠ k) = decide (k ∉ es.map Prod.fst) := by
  rw [Bool.eq_iff_iff, List.all_eq_true, decide_eq_true_iff]
  constructor
  · rintro h hk
    obtain ⟨e, he, rfl⟩ := List.mem_map.mp hk
    exact absurd rfl (of_decide_eq_true (h e he))
  · intro h e he
    exact decide_eq_true fun heq => h (List.mem_map.mpr ⟨e, he, heq⟩)

/-- The functional path: the difference of the filtered maps. -/
theorem IsMap.values_difference {tree' : Node} {es' : List (KeyType × Point)} (h : IsMap tree es)
    (h' : IsMap tree' es') {joins : Joins KeyType Point AugType} (hj : joins.InOrder)
    {mapDifference : Node → Node → Node} (hdiff : DiffersByKey mapDifference) :
    treeValues (mapDifference (PACZ.filterRange joins tree queryMbr)
        (PACZ.filterRange joins tree' queryMbr)) =
      (pointsIn queryMbr es).filter fun p => p.key ∉ (pointsIn queryMbr es').map Point.key := by
  have hkeys : ((es'.filter fun e => pointInMbr e.2 queryMbr).map Prod.fst) =
      (pointsIn queryMbr es').map Point.key := by
    unfold pointsIn
    rw [List.filter_map, List.map_map]
    exact List.map_congr_left fun e he => h'.keyed e (List.mem_filter.mp he).1
  unfold treeValues
  rw [hdiff, h.filterRange hj, h'.filterRange hj]
  · simp only [all_fst_ne, hkeys]
    generalize (pointsIn queryMbr es').map Point.key = keys
    unfold pointsIn
    rw [List.filter_map, List.filter_map]
    refine congrArg _ (List.filter_congr fun e he => ?_)
    simp only [Function.comp_apply, h.keyed e (List.mem_filter.mp he).1]
  · rw [h.filterRange hj]
    exact h.sorted.filter _
  · rw [h'.filterRange hj]
    exact h'.sorted.filter _

/-- The plain path: one side of the merge of the two reports. -/
theorem IsMap.removesOf_pointsIn {tree' : Node} {es' : List (KeyType × Point)} (h : IsMap tree es)
    (h' : IsMap tree' es') :
    removesOf (pointsIn queryMbr es) (pointsIn queryMbr es') =
      (pointsIn queryMbr es).filter fun p => p.key ∉ (pointsIn queryMbr es').map Point.key := by
  have hsorted := h.pointsIn_sorted queryMbr
  refine survivors_eq_filter (hsorted.imp le_of_lt) ((h'.pointsIn_sorted queryMbr).imp le_of_lt) ?_
  exact List.pairwise_map.mpr (hsorted.imp ne_of_lt)

/-- A report into a buffer with enough room, cut at its count. -/
theorem IsMap.takeD_rangeReport (h : IsMap tree es) {out : List Point}
    (hroom : (pointsIn queryMbr es).length ≤ out.length) :
    (PACZ.rangeReport tree queryMbr out).2.takeD (PACZ.rangeReport tree queryMbr out).1 default =
      pointsIn queryMbr es := by
  have htake := @Buffer.take_write _ out 0 (pointsIn queryMbr es) (by rwa [Nat.zero_add])
  rw [Nat.zero_add, List.take_zero, List.nil_append] at htake
  rw [h.rangeReport, List.takeD_eq_take _ (by rwa [Buffer.length_write])]
  exact htake

/-- The two ways to compute a difference inside a query box agree: from two versions, an empty
`diff_type` and buffers with enough room they make the same lists, in key order. These are the points
inside the box on one side whose key is not inside it on the other side. -/
theorem spatial_diff_paths_agree {lhs rhs : Node} {esL esR : List (KeyType × Point)}
    (hl : IsMap lhs esL) (hr : IsMap rhs esR) {joins : Joins KeyType Point AugType}
    (hj : joins.InOrder) {mapDifference : Node → Node → Node} (hdiff : DiffersByKey mapDifference)
    (query : BoundingBox) (retDiff : DiffType) (lPts rPts : List Point) (hadd : retDiff.addCnt = 0)
    (hremove : retDiff.removeCnt = 0)
    (hroom : (pointsIn query esL).length ≤ lPts.length ∧
      (pointsIn query esL).length ≤ retDiff.remove.length ∧
      (pointsIn query esR).length ≤ rPts.length ∧
      (pointsIn query esR).length ≤ retDiff.add.length) :
    let diff := mapSpatialDiff joins mapDifference lhs rhs query
    let plain := plainMapSpatialDiff lhs rhs query retDiff lPts rPts
    (diff.add = (pointsIn query esR).filter fun p => p.key ∉ (pointsIn query esL).map Point.key) ∧
      (diff.remove = (pointsIn query esL).filter fun p => p.key ∉ (pointsIn query esR).map Point.key) ∧
      diff.addCnt = diff.add.length ∧ diff.removeCnt = diff.remove.length ∧
      plain.add.take plain.addCnt = diff.add ∧ plain.remove.take plain.removeCnt = diff.remove ∧
      diff.add.Pairwise (·.key < ·.key) ∧ diff.remove.Pairwise (·.key < ·.key) := by
  intro diff plain
  have hda : diff.add =
      (pointsIn query esR).filter fun p => p.key ∉ (pointsIn query esL).map Point.key :=
    hr.values_difference hl hj hdiff
  have hdr : diff.remove =
      (pointsIn query esL).filter fun p => p.key ∉ (pointsIn query esR).map Point.key :=
    hl.values_difference hr hj hdiff
  have hplain : plain = retDiff.write diff.add diff.remove := by
    show mergePtsInto ((rangeReport lhs query lPts).2.takeD (rangeReport lhs query lPts).1 default)
      ((rangeReport rhs query rPts).2.takeD (rangeReport rhs query rPts).1 default) _ retDiff false = _
    rw [hl.takeD_rangeReport hroom.1, hr.takeD_rangeReport hroom.2.2.1, mergePtsInto_eq,
      if_neg Bool.false_ne_true, addsOf_eq_removesOf, hr.removesOf_pointsIn hl,
      hl.removesOf_pointsIn hr, ← hda, ← hdr]
    simp
  have hlenA : diff.add.length ≤ retDiff.add.length := by
    rw [hda]
    exact (List.length_filter_le _ _).trans hroom.2.2.2
  have hlenR : diff.remove.length ≤ retDiff.remove.length := by
    rw [hdr]
    exact (List.length_filter_le _ _).trans hroom.2.1
  have htakeA := @Buffer.take_write _ retDiff.add 0 diff.add (by rwa [Nat.zero_add])
  have htakeR := @Buffer.take_write _ retDiff.remove 0 diff.remove (by rwa [Nat.zero_add])
  refine ⟨hda, hdr, rfl, rfl, ?_, ?_, ?_, ?_⟩
  · rw [hplain, DiffType.write, hadd]
    exact htakeA
  · rw [hplain, DiffType.write, hremove]
    exact htakeR
  · rw [hda]
    exact (hr.pointsIn_sorted query).filter _
  · rw [hdr]
    exact (hl.pointsIn_sorted query).filter _

/-- Rebuilding the tree puts two trees together, too. -/
def rebuildJoins : Joins KeyType Point AugType where
  join l e r := Cpam.toTreeImpl entry blockSize (l.entries ++ e :: r.entries) 0
  join2 l r := Cpam.toTreeImpl entry blockSize (l.entries ++ r.entries) 0

theorem rebuildJoins_inOrder : rebuildJoins.InOrder where
  join _ _ _ := Cpam.entries_toTreeImpl _ 0
  join2 _ _ := Cpam.entries_toTreeImpl _ 0

/-- The difference of the key sets, as a new tree. -/
def rebuildDifference (m m' : Node) : Node :=
  Cpam.toTreeImpl entry blockSize
    (m.entries.filter fun e => m'.entries.all fun e' => e'.1 ≠ e.1) 0

theorem rebuildDifference_differsByKey : DiffersByKey rebuildDifference :=
  fun _ _ _ _ => Cpam.entries_toTreeImpl _ 0

/-- One shared point, one that only the second version has, and one outside the box. -/
theorem spatial_diff_paths_agree_three_points :
    let e : KeyType × Point := (toLex (0, 1), ⟨1, 0, 0, 0⟩)
    let e' : KeyType × Point := (toLex (3, 7), ⟨7, 1, 1, 3⟩)
    let e'' : KeyType × Point := (toLex (12, 9), ⟨9, 2, 2, 12⟩)
    let lhs : Node := .compressed [e, e''] (encode entry [e, e''])
    let rhs : Node := .compressed [e, e'] (encode entry [e, e'])
    let query : BoundingBox := ⟨.ofXY 0 0, .ofXY 1 1⟩
    let diff := mapSpatialDiff rebuildJoins rebuildDifference lhs rhs query
    let plain := plainMapSpatialDiff lhs rhs query (.ofSize 2 2) [default, default] [default, default]
    diff.add = [⟨7, 1, 1, 3⟩] ∧ plain.add.take plain.addCnt = diff.add := by
  intro e e' e'' lhs rhs query diff plain
  have hlhs : IsMap lhs [e, e''] :=
    ⟨.compressed (List.cons_ne_nil _ _) (by decide), by decide, by decide⟩
  have hrhs : IsMap rhs [e, e'] :=
    ⟨.compressed (List.cons_ne_nil _ _) (by decide), by decide, by decide⟩
  have hpointsL : pointsIn query [e, e''] = [⟨1, 0, 0, 0⟩] := by decide +kernel
  have hpointsR : pointsIn query [e, e'] = [⟨1, 0, 0, 0⟩, ⟨7, 1, 1, 3⟩] := by decide +kernel
  have hagree := spatial_diff_paths_agree hlhs hrhs rebuildJoins_inOrder rebuildDifference_differsByKey
    query (.ofSize 2 2) [default, default] [default, default] rfl rfl
    (by rw [hpointsL, hpointsR]; decide)
  rw [hpointsL, hpointsR] at hagree
  exact ⟨hagree.1.trans (by decide), hagree.2.2.2.2.1⟩

end PACZ

end Silva
