import Silva.Brtree.Tree
import Silva.Geo.Proofs.BoxProofs

/-!
# The shape of a built tree

`WellFormed leafSize t P`: the tree holds the points `P`, every box contains the points below it,
every stored count is exact, and the points of an interior node are split in the middle.
-/

namespace Silva

namespace BRTree

open BRTree.BaseNode

/-- The points of a tree that `build` makes, in their order. -/
inductive WellFormed (leafSize : ℕ+) : BaseNode → List Point → Prop where
  /-- A leaf holds at most `leafSize` points, all of them in its box. -/
  | leaf {mbr : BoundingBox} {P : List Point} (fits : P.length ≤ leafSize)
      (inMbr : ∀ p ∈ P, pointInMbr p mbr = true) : WellFormed leafSize (leafNode mbr P) P
  /-- The left son has the smaller half of the points. -/
  | inte {mbr : BoundingBox} {l r : BaseNode} {A B : List Point} (left : WellFormed leafSize l A)
      (right : WellFormed leafSize r B) (large : leafSize < A.length + B.length)
      (half : A.length = (A.length + B.length) / 2)
      (inMbr : ∀ p ∈ A ++ B, pointInMbr p mbr = true) :
      WellFormed leafSize (inteNode mbr l r (A.length + B.length)) (A ++ B)

namespace WellFormed

variable {leafSize : ℕ+} {t : BaseNode} {P : List Point}

theorem isNull (h : WellFormed leafSize t P) : t.isNull = false := by
  cases h <;> rfl

theorem getNumPoints (h : WellFormed leafSize t P) : t.getNumPoints = P.length := by
  cases h with
  | leaf => rfl
  | inte => exact List.length_append.symm

theorem inMbr (h : WellFormed leafSize t P) : ∀ p ∈ P, pointInMbr p t.mbr = true := by
  cases h with
  | leaf _ inMbr => exact inMbr
  | inte _ _ _ _ inMbr => exact inMbr

/-- An interior node has points on both sides. -/
theorem left_length {A B : List Point} (large : leafSize < A.length + B.length)
    (half : A.length = (A.length + B.length) / 2) : 0 < A.length ∧ A.length ≤ B.length := by
  have := leafSize.pos
  omega

end WellFormed

/-! ## Boxes -/

theorem pointInMbr_getMbrStep {p : Point} {mbr : BoundingBox} (h : pointInMbr p mbr = true)
    (q : Point) : pointInMbr p (getMbrStep mbr q) = true := by
  obtain ⟨h1, h2, h3, h4⟩ := pointInMbr_iff.mp h
  refine pointInMbr_iff.mpr ⟨?_, ?_, ?_, ?_⟩
  · exact (min_le_left _ _).trans h1
  · exact h2.trans (le_max_left _ _)
  · exact (min_le_left _ _).trans h3
  · exact h4.trans (le_max_left _ _)

theorem pointInMbr_getMbrStep_self (mbr : BoundingBox) (p : Point) :
    pointInMbr p (getMbrStep mbr p) = true :=
  pointInMbr_iff.mpr ⟨min_le_right _ _, le_max_right _ _, min_le_right _ _, le_max_right _ _⟩

/-- Whatever box the loop starts with, it ends with one that contains the points. -/
theorem pointInMbr_foldl {p : Point} (P : List Point) : ∀ mbr : BoundingBox,
    pointInMbr p mbr = true ∨ p ∈ P → pointInMbr p (P.foldl getMbrStep mbr) = true := by
  induction P with
  | nil =>
    intro mbr h
    exact h.resolve_right List.not_mem_nil
  | cons q P ih =>
    intro mbr h
    refine ih (getMbrStep mbr q) ?_
    rcases h with h | h
    · exact .inl (pointInMbr_getMbrStep h q)
    · rcases List.mem_cons.mp h with rfl | h
      · exact .inl (pointInMbr_getMbrStep_self mbr p)
      · exact .inr h

theorem pointInMbr_getMbr {P : List Point} {p : Point} (hp : p ∈ P) :
    pointInMbr p (getMbr P) = true := pointInMbr_foldl P _ (.inr hp)

theorem pointInMbr_mergeMbr {p : Point} {a b : BoundingBox}
    (h : pointInMbr p a = true ∨ pointInMbr p b = true) : pointInMbr p (mergeMbr a b) = true := by
  rcases h with h | h
  · obtain ⟨h1, h2, h3, h4⟩ := pointInMbr_iff.mp h
    exact pointInMbr_iff.mpr ⟨(min_le_left _ _).trans h1, h2.trans (le_max_left _ _),
      (min_le_left _ _).trans h3, h4.trans (le_max_left _ _)⟩
  · obtain ⟨h1, h2, h3, h4⟩ := pointInMbr_iff.mp h
    exact pointInMbr_iff.mpr ⟨(min_le_right _ _).trans h1, h2.trans (le_max_right _ _),
      (min_le_right _ _).trans h3, h4.trans (le_max_right _ _)⟩

/-! ## Building -/

namespace Tree

variable {leafSize : ℕ+} {P : List Point}

theorem length_slice {l r : ℕ} (hr : r ≤ P.length) : (slice P l r).length = r - l := by
  unfold slice
  rw [List.length_drop, List.length_take, min_eq_left hr]

theorem slice_append {l m r : ℕ} (hlm : l ≤ m) (hmr : m ≤ r) (hr : r ≤ P.length) :
    slice P l m ++ slice P m r = slice P l r := by
  unfold slice
  have htake : P.take m = (P.take r).take m := by rw [List.take_take, min_eq_left hmr]
  have hdrop : l ≤ ((P.take r).take m).length := by
    rw [← htake, List.length_take]
    omega
  calc (P.take m).drop l ++ (P.take r).drop m
      = ((P.take r).take m ++ (P.take r).drop m).drop l := by
        rw [List.drop_append_of_le_length hdrop, ← htake]
    _ = (P.take r).drop l := by rw [List.take_append_drop]

theorem slice_full : slice P 0 P.length = P := by
  unfold slice
  rw [List.drop_zero, List.take_length]

/-- `merge_nodes` on two sons. -/
theorem createInternal_wellFormed {L R : BaseNode} {A B : List Point} (left : WellFormed leafSize L A)
    (right : WellFormed leafSize R B) (large : leafSize < A.length + B.length)
    (half : A.length = (A.length + B.length) / 2) :
    WellFormed leafSize (createInternal L R) (A ++ B) := by
  have heq : createInternal L R =
      inteNode (mergeMbr L.mbr R.mbr) L R (A.length + B.length) := by
    rw [← left.getNumPoints, ← right.getNumPoints]
    have hL := left.isNull
    have hR := right.isNull
    cases L with
    | nullptr => exact absurd hL (by decide)
    | leafNode | inteNode =>
      cases R with
      | nullptr => exact absurd hR (by decide)
      | leafNode | inteNode => rfl
  rw [heq]
  refine .inte left right large half fun p hp => pointInMbr_mergeMbr ?_
  exact (List.mem_append.mp hp).imp (left.inMbr p) (right.inMbr p)

/-- `build` on a range, by induction on its length. -/
theorem buildNode_wellFormed (leafSize : ℕ+) {l r : ℕ} (hlr : l ≤ r) (hr : r ≤ P.length) :
    WellFormed leafSize (buildNode leafSize P l r) (slice P l r) := by
  induction l, r using buildNode.induct leafSize P with
  | case1 l r hsmall =>
    rw [buildNode, dif_pos hsmall]
    refine .leaf ?_ fun p hp => pointInMbr_getMbr hp
    rwa [length_slice hr]
  | case2 l r hlarge splitter ihl ihr =>
    have hpos := leafSize.pos
    have hl : l < splitter := by omega
    have hs : splitter < r := by omega
    rw [buildNode, dif_neg hlarge, ← slice_append hl.le hs.le hr]
    simp only [if_pos hl, if_pos hs, splitter]
    refine createInternal_wellFormed (ihl hl hl.le (hs.le.trans hr)) (ihr hs hs.le hr) ?_ ?_
    · rw [length_slice (hs.le.trans hr), length_slice hr]
      omega
    · rw [length_slice (hs.le.trans hr), length_slice hr]
      omega

theorem build_wellFormed (leafSize : ℕ+) (hP : P ≠ []) : WellFormed leafSize (build leafSize P) P := by
  have h := buildNode_wellFormed leafSize (Nat.zero_le P.length) le_rfl
  unfold build
  rwa [if_neg (by simpa using hP), slice_full] at *

end Tree

end BRTree

end Silva
