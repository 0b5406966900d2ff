import Silva.Lib.NestedJoin
import Silva.Mvq.Join
import Silva.Mvq.Proofs.RangeProofs

/-!
# Proofs: the spatial join is the nested loop

The walk visits every pair of leaves once, so only the box test can lose a pair. It skips boxes that
are farther apart than the distance in one coordinate by `FT_EPS`; between integer coordinates the gap
is then at least one, and the squared distances differ by `FT_EPS` as well.
-/

namespace Silva

open BaseNode NestedJoin

/-! ## Comparisons up to `FT_EPS` -/

theorem ftEps_pos : 0 < ftEps := by norm_num [ftEps]

theorem dcmp_neg_iff (x : FT) : dcmp x < 0 ↔ x ≤ -ftEps := by
  have heps := ftEps_pos
  unfold dcmp
  by_cases habs : |x| < ftEps
  · rw [if_pos habs]
    have := (abs_lt.mp habs).1
    exact iff_of_false (by decide) (not_le.mpr this)
  · rw [if_neg habs]
    by_cases hneg : x < 0
    · rw [if_pos hneg]
      rw [abs_of_neg hneg, not_lt] at habs
      exact iff_of_true (by decide) (by linarith)
    · rw [if_neg hneg]
      exact iff_of_false (by decide) (by linarith [not_lt.mp hneg])

theorem dcmp_pos_of_le {x : FT} (h : ftEps ≤ x) : ¬dcmp x ≤ 0 := by
  have hx := ftEps_pos.trans_le h
  unfold dcmp
  rw [abs_of_pos hx, if_neg (not_lt.mpr h), if_neg hx.not_gt]
  decide

/-- Integers that are farther apart than `d` by `FT_EPS` are so in the square. -/
theorem ftEps_le_sq_sub {m n : ℕ} {d : FT} (hd : 0 ≤ d) (h : d + ftEps ≤ (n : FT) - m) :
    ftEps ≤ ((n : FT) - m) * (n - m) - d * d := by
  have heps := ftEps_pos
  have hlt : (m : FT) < n := by linarith
  have hgap : (1 : FT) ≤ (n : FT) - m := by
    have hmn : m + 1 ≤ n := by exact_mod_cast hlt
    have : (m : FT) + 1 ≤ n := by exact_mod_cast hmn
    linarith
  calc ftEps ≤ ftEps * ((n : FT) - m + d) := le_mul_of_one_le_right heps.le (by linarith)
    _ ≤ ((n : FT) - m - d) * ((n : FT) - m + d) :=
      mul_le_mul_of_nonneg_right (by linarith) (by linarith)
    _ = ((n : FT) - m) * (n - m) - d * d := by ring

/-! ## The box test -/

/-- Two points that are too far apart in one coordinate do not join. -/
theorem joins_eq_false_of_gap {p q : Point} {d : FT} {m n m' n' : ℕ} (hd : 0 ≤ d)
    (hpx : p.x = m) (hpy : p.y = n) (hqx : q.x = m') (hqy : q.y = n')
    (hgap : (d + ftEps ≤ (m' : FT) - m ∨ d + ftEps ≤ (m : FT) - m') ∨
      (d + ftEps ≤ (n' : FT) - n ∨ d + ftEps ≤ (n : FT) - n')) :
    Tree.joins d (p, q) = false := by
  have hfar : ftEps ≤ pointPointSqrdis p q - d * d := by
    unfold pointPointSqrdis
    rw [hpx, hpy, hqx, hqy]
    have hx := mul_self_nonneg ((m : FT) - m')
    have hy := mul_self_nonneg ((n : FT) - n')
    rcases hgap with (h | h) | (h | h)
    · nlinarith only [ftEps_le_sq_sub hd h, hy]
    · nlinarith only [ftEps_le_sq_sub hd h, hy]
    · nlinarith only [ftEps_le_sq_sub hd h, hx]
    · nlinarith only [ftEps_le_sq_sub hd h, hx]
  unfold Tree.joins
  rw [decide_eq_false_iff_not]
  exact fun h => dcmp_pos_of_le hfar h.2

/-- Points in boxes that fail the test do not join. -/
theorem joins_eq_false_of_not_within {p q : Point} {mbr1 mbr2 : BoundingBox} {d : FT} (hd : 0 ≤ d)
    (hp : p.IsInteger) (hq : q.IsInteger) (hp1 : pointInMbr p mbr1 = true)
    (hq2 : pointInMbr q mbr2 = true) (h : mbrMbrWithinDis mbr1 mbr2 d = false) :
    Tree.joins d (p, q) = false := by
  obtain ⟨m, n, -, -, hpx, hpy⟩ := hp
  obtain ⟨m', n', -, -, hqx, hqy⟩ := hq
  obtain ⟨p1, p2, p3, p4⟩ := pointInMbr_iff.mp hp1
  obtain ⟨q1, q2, q3, q4⟩ := pointInMbr_iff.mp hq2
  rw [hpx] at p1 p2
  rw [hpy] at p3 p4
  rw [hqx] at q1 q2
  rw [hqy] at q3 q4
  refine joins_eq_false_of_gap hd hpx hpy hqx hqy ?_
  unfold mbrMbrWithinDis at h
  simp only [Bool.not_eq_false', Bool.or_eq_true, decide_eq_true_eq, dcmp_neg_iff] at h
  rcases h with ((h | h) | h) | h
  · exact Or.inl (Or.inl (by linarith))
  · exact Or.inr (Or.inl (by linarith))
  · exact Or.inl (Or.inr (by linarith))
  · exact Or.inr (Or.inr (by linarith))

/-! ## The walk -/

variable {leafSize b c b1 c1 b2 c2 : Nat} {t t1 t2 : BaseNode} {P Q A B : List Point} {d : FT}
  {fr fr1 fr2 : Tree.Frame}

/-- The frame describes the records of a subtree at level `b`. -/
structure Tree.Frame.Of (fr : Tree.Frame) (b : Nat) (P : List Point) : Prop where
  level : fr.b = b
  located : Located b fr.mbr fr.xPrefix fr.yPrefix fr.xSplitter P
  integer : ∀ p ∈ P, p.IsInteger

theorem WellFormed.frame_children {l r : BaseNode} (left : WellFormed leafSize b (2 * c) l A)
    (right : WellFormed leafSize b (2 * c + 1) r B) (h : fr.Of (b + 1) (A ++ B)) :
    fr.children.1.Of b A ∧ fr.children.2.Of b B := by
  obtain ⟨mbr, xPrefix, yPrefix, level, xSplitter⟩ := fr
  obtain ⟨hb, hloc, hint⟩ := h
  cases hb
  rcases hbox : computeCurBox mbr xPrefix yPrefix (b + 1) xSplitter with
    ⟨LBox, RBox, rxPrefix, ryPrefix⟩
  obtain ⟨hl, hr⟩ := left.located_children right hloc hbox
  unfold Tree.Frame.children
  simp only [hbox]
  exact ⟨⟨rfl, hl, fun p hp => hint p (List.mem_append_left _ hp)⟩,
    ⟨rfl, hr, fun p hp => hint p (List.mem_append_right _ hp)⟩⟩

/-- Boxes that fail the test have no pair to report. -/
theorem Tree.Frame.Of.prune (hd : 0 ≤ d) (h1 : fr1.Of b1 P) (h2 : fr2.Of b2 Q)
    (h : mbrMbrWithinDis fr1.mbr fr2.mbr d = false) : joinPairs (Tree.joins d) P Q = [] :=
  joinPairs_eq_nil _ fun p hp q hq => joins_eq_false_of_not_within hd (h1.integer p hp)
    (h2.integer q hq) (h1.located.inMbr p hp) (h2.located.inMbr q hq) h

/-- The box test around a walk. -/
theorem appends_ite (hd : 0 ≤ d) (h1 : fr1.Of b1 P) (h2 : fr2.Of b2 Q)
    {f g : List (Point × Point) → List (Point × Point)}
    (hf : ∀ res, f res = if !mbrMbrWithinDis fr1.mbr fr2.mbr d then res else g res)
    (hg : Appends g (joinPairs (Tree.joins d) P Q)) : Appends f (joinPairs (Tree.joins d) P Q) := by
  cases hw : mbrMbrWithinDis fr1.mbr fr2.mbr d with
  | false =>
    rw [h1.prune hd h2 hw]
    exact Appends.none fun res => by rw [hf, hw]; rfl
  | true =>
    intro res
    rw [hf, hw]
    exact hg res

theorem appends_nullptr_right (P : List Point) {f : List (Point × Point) → List (Point × Point)}
    (hf : ∀ res, f res = res) : Appends f (joinPairs (Tree.joins d) P []) := by
  rw [joinPairs_nil_right]
  exact Appends.none hf

/-- A leaf against a tree, by induction on the tree. -/
theorem WellFormed.spatialJoinLeaf (hd : 0 ≤ d) (h1 : fr1.Of b1 P)
    (h : WellFormed leafSize b2 c2 t2 Q) : ∀ {fr2 : Tree.Frame}, fr2.Of b2 Q →
      Appends (Tree.spatialJoinLeaf d P fr1 t2 fr2) (joinPairs (Tree.joins d) P Q) := by
  induction h with
  | null b c => exact fun _ => appends_nullptr_right P fun _ => rfl
  | leaf cell fits =>
    intro fr2 h2
    refine appends_ite hd h1 h2 (fun res => by rw [Tree.spatialJoinLeaf]) fun res => ?_
    exact ⟨_, foldl_loops (Tree.joins d) P _ res, List.Perm.refl _⟩
  | @inte b c l r A B left right hl hr large ihl ihr =>
    intro fr2 h2
    obtain ⟨hL, hR⟩ := left.frame_children right h2
    refine appends_ite hd h1 h2 (fun res => by rw [Tree.spatialJoinLeaf]) ?_
    exact ((ihl hL).comp (ihr hR)).perm (joinPairs_append_right _ P A B).symm

/-- One tree against another, by induction on the first one. -/
theorem WellFormed.spatialJoin (hd : 0 ≤ d) (h1 : WellFormed leafSize b1 c1 t1 P) :
    ∀ {b2 c2 : Nat} {t2 : BaseNode} {Q : List Point} {fr1 fr2 : Tree.Frame}, fr1.Of b1 P →
      fr2.Of b2 Q → WellFormed leafSize b2 c2 t2 Q →
      Appends (Tree.spatialJoin d t1 t2 fr1 fr2) (joinPairs (Tree.joins d) P Q) := by
  induction h1 with
  | null b c =>
    intro b2 c2 t2 Q fr1 fr2 _ _ _
    exact Appends.none fun res => by rw [Tree.spatialJoin]
  | leaf cell fits =>
    intro b2 c2 t2 Q fr1 fr2 hfr1 hfr2 h2
    exact h2.spatialJoinLeaf hd hfr1 hfr2
  | @inte b c l r A B left right hl hr large ihl ihr =>
    intro b2 c2 t2 Q fr1 fr2 hfr1 hfr2 h2
    obtain ⟨hL, hR⟩ := left.frame_children right hfr1
    cases h2 with
    | null => exact appends_nullptr_right _ fun _ => rfl
    | leaf cell fits =>
      refine appends_ite hd hfr1 hfr2 (fun res => by rw [Tree.spatialJoin]) ?_
      rw [joinPairs_append_left]
      exact (ihl hL hfr2 (.leaf cell fits)).comp (ihr hR hfr2 (.leaf cell fits))
    | @inte b' c' l' r' A' B' left' right' hl' hr' large' =>
      obtain ⟨hL', hR'⟩ := left'.frame_children right' hfr2
      refine appends_ite hd hfr1 hfr2 (fun res => by rw [Tree.spatialJoin]) ?_
      rw [joinPairs_append_left]
      have hl := ((ihl hL hL' left').comp (ihl hL hR' right')).perm
        (joinPairs_append_right _ A A' B').symm
      have hr := ((ihr hR hL' left').comp (ihr hR hR' right')).perm
        (joinPairs_append_right _ B A' B').symm
      exact hl.comp hr

/-- The join of two versions appends every pair of records with different identifiers and a squared
distance of at most `pointDis * pointDis`, up to `FT_EPS`, exactly once. -/
theorem spatial_join_exact (ht1 : Version leafSize t1) (ht2 : Version leafSize t2)
    {mbr1 mbr2 : BoundingBox}
    (hmbr1 : ∀ p ∈ Tree.collectRecords t1, pointInMbr p mbr1 = true)
    (hmbr2 : ∀ p ∈ Tree.collectRecords t2, pointInMbr p mbr2 = true)
    (hint1 : ∀ p ∈ Tree.collectRecords t1, p.IsInteger)
    (hint2 : ∀ p ∈ Tree.collectRecords t2, p.IsInteger) {pointDis : FT} (hd : 0 ≤ pointDis)
    (joinRes : List (Point × Point)) :
    ∃ added, Tree.twoVersionSpatialJoin t1 t2 pointDis joinRes mbr1 mbr2 = joinRes ++ added ∧
      added.Perm ((Tree.collectRecords t1 ×ˢ Tree.collectRecords t2).filter fun pts =>
        pts.1.id ≠ pts.2.id ∧
          dcmp (pointPointSqrdis pts.1 pts.2 - pointDis * pointDis) ≤ 0) := by
  have hfr1 : Tree.Frame.Of ⟨mbr1, 0, 0, 64, true⟩ 64 (Tree.collectRecords t1) :=
    ⟨rfl, Located.root hmbr1 fun p hp => (hint1 p hp).onGrid, hint1⟩
  have hfr2 : Tree.Frame.Of ⟨mbr2, 0, 0, 64, true⟩ 64 (Tree.collectRecords t2) :=
    ⟨rfl, Located.root hmbr2 fun p hp => (hint2 p hp).onGrid, hint2⟩
  exact WellFormed.spatialJoin hd ht1.isVersion hfr1 hfr2 ht2.isVersion joinRes

/-- A tree of two leaves against one leaf: one pair is exactly at the distance, the other farther. -/
theorem spatial_join_exact_two : ∃ added,
    Tree.twoVersionSpatialJoin (Tree.build 1 [⟨5, 1, 1, 3⟩, ⟨9, 5, 6, 54⟩]) (Tree.build 1 [⟨7, 3, 1, 11⟩])
        2 [] ⟨.ofXY 0 0, .ofXY 6 6⟩ ⟨.ofXY 0 0, .ofXY 6 6⟩ = [] ++ added ∧
      added.Perm [(⟨5, 1, 1, 3⟩, ⟨7, 3, 1, 11⟩)] := by
  have hint : ∀ p ∈ ([⟨5, 1, 1, 3⟩, ⟨9, 5, 6, 54⟩, ⟨7, 3, 1, 11⟩] : List Point), p.IsInteger := by
    intro p hp
    fin_cases hp
    · exact ⟨1, 1, by norm_num, by norm_num, by norm_num, by norm_num⟩
    · exact ⟨5, 6, by norm_num, by norm_num, by norm_num, by norm_num⟩
    · exact ⟨3, 1, by norm_num, by norm_num, by norm_num, by norm_num⟩
  have hrecords1 : Tree.collectRecords (Tree.build 1 [⟨5, 1, 1, 3⟩, ⟨9, 5, 6, 54⟩]) =
      [⟨5, 1, 1, 3⟩, ⟨9, 5, 6, 54⟩] := by decide +kernel
  have hrecords2 : Tree.collectRecords (Tree.build 1 [⟨7, 3, 1, 11⟩]) = [⟨7, 3, 1, 11⟩] := by
    decide +kernel
  obtain ⟨added, heq, hperm⟩ := @spatial_join_exact 1
    (Tree.build 1 [⟨5, 1, 1, 3⟩, ⟨9, 5, 6, 54⟩]) (Tree.build 1 [⟨7, 3, 1, 11⟩])
    (.build ⟨by decide +kernel, by decide +kernel⟩) (.build ⟨by decide +kernel, by decide +kernel⟩)
    ⟨.ofXY 0 0, .ofXY 6 6⟩ ⟨.ofXY 0 0, .ofXY 6 6⟩ (by rw [hrecords1]; decide +kernel)
    (by rw [hrecords2]; decide +kernel)
    (by rw [hrecords1]; exact fun p hp => hint p (List.mem_append_left [_] hp))
    (by rw [hrecords2]; exact fun p hp => hint p (List.mem_append_right [_, _] hp)) 2 (by norm_num) []
  refine ⟨added, heq, ?_⟩
  rw [hrecords1, hrecords2] at hperm
  have hpairs : ([⟨5, 1, 1, 3⟩, ⟨9, 5, 6, 54⟩] ×ˢ [⟨7, 3, 1, 11⟩] : List (Point × Point)).filter
      (fun pts => pts.1.id ≠ pts.2.id ∧ dcmp (pointPointSqrdis pts.1 pts.2 - 2 * 2) ≤ 0) =
      [(⟨5, 1, 1, 3⟩, ⟨7, 3, 1, 11⟩)] := by decide +kernel
  rwa [hpairs] at hperm

end Silva
