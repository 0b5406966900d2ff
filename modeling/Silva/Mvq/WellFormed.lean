import Silva.Mvq.Tree
import Silva.Geo.Proofs.SplitProofs

/-!
# The representation invariant of a version

`WellFormed leafSize b c t P`: the tree `t` stores the record list `P`, sorted by key, in the region
of level `b` and prefix `c`. The shape is forced: a node is interior exactly when it is above level 0
and holds more than `leafSize` records, and a child without records is null.
-/

namespace Silva

open BaseNode

/-- What a subtree at level `b` whose codes have the prefix `c` has to look like. -/
inductive WellFormed (leafSize : Nat) : Nat → Nat → BaseNode → List Point → Prop where
  /-- An empty subtree. -/
  | null (b c : Nat) : WellFormed leafSize b c nullptr []
  /-- A leaf holds at most `leafSize` records, except at level 0, where it may overflow. -/
  | leaf {b c : Nat} {P : List Point} (cell : Cell b c P) (fits : b = 0 ∨ P.length ≤ leafSize) :
      WellFormed leafSize b c (leafNode P) P
  /-- An interior node has more than `leafSize` points, and a son without points is null. -/
  | inte {b c : Nat} {l r : BaseNode} {A B : List Point}
      (left : WellFormed leafSize b (2 * c) l A) (right : WellFormed leafSize b (2 * c + 1) r B)
      (hl : A = [] → l = nullptr) (hr : B = [] → r = nullptr)
      (large : leafSize < A.length + B.length) :
      WellFormed leafSize (b + 1) c (inteNode l r (A.length + B.length)) (A ++ B)

namespace WellFormed

variable {leafSize b c : Nat} {t : BaseNode} {P : List Point}

theorem cell (h : WellFormed leafSize b c t P) : Cell b c P := by
  induction h with
  | null b c => exact Cell.nil b c
  | leaf cell fits => exact cell
  | inte left right hl hr large ihl ihr => exact ihl.append ihr

theorem getNumPoints (h : WellFormed leafSize b c t P) : t.getNumPoints = P.length := by
  cases h with
  | null => rfl
  | leaf cell fits => rfl
  | inte left right hl hr large => simp [BaseNode.getNumPoints]

theorem collectRecords (h : WellFormed leafSize b c t P) : Tree.collectRecords t = P := by
  induction h with
  | null b c => rfl
  | leaf cell fits => rfl
  | inte left right hl hr large ihl ihr => rw [Tree.collectRecords, ihl, ihr]

theorem of_nil (h : WellFormed leafSize b c t []) : t = nullptr ∨ t = leafNode [] := by
  generalize hP : ([] : List Point) = P at h
  cases h with
  | null => exact Or.inl rfl
  | leaf cell fits => rw [← hP]; exact Or.inr rfl
  | inte left right hl hr large =>
    have := congrArg List.length hP
    rw [List.length_append, List.length_nil] at this
    omega

theorem nullptr_iff (h : WellFormed leafSize b c nullptr P) : P = [] := by
  cases h; rfl

end WellFormed

/-! ## Building establishes the invariant, and the invariant determines the tree -/

section Build

variable {leafSize b c : Nat} {t : BaseNode} {P : List Point}

theorem buildNode_zero (leafSize : Nat) (P : List Point) :
    Tree.buildNode leafSize P 0 = leafNode P := by
  cases P <;> rfl

theorem buildNode_small (h : P.length ≤ leafSize) (b : Nat) :
    Tree.buildNode leafSize P b = leafNode P := by
  cases b with
  | zero => exact buildNode_zero leafSize P
  | succ b => unfold Tree.buildNode; rw [if_pos h]

/-- The child that `build` makes of one part of a batch. -/
def buildChild (leafSize : Nat) (P : List Point) (b : Nat) : BaseNode :=
  if P = [] then nullptr else Tree.buildNode leafSize P b

/-- `build` of a batch that does not fit into a leaf builds the two halves. -/
theorem buildNode_large {A B : List Point} (hA : Cell b (2 * c) A) (hB : Cell b (2 * c + 1) B)
    (h : leafSize < A.length + B.length) :
    Tree.buildNode leafSize (A ++ B) (b + 1) =
      Tree.createInternal (buildChild leafSize A b) (buildChild leafSize B b) := by
  unfold Tree.buildNode
  rw [if_neg (by rw [List.length_append]; omega)]
  simp only [splitByBit_append hA hB, List.take_left, List.drop_left]
  congr 1
  · by_cases hA0 : A = []
    · simp [buildChild, hA0]
    · simp [buildChild, hA0, List.length_pos_iff]
  · by_cases hB0 : B = []
    · simp [buildChild, hB0]
    · simp [buildChild, hB0, List.length_pos_iff]

theorem buildNode_wellFormed : ∀ {b c : Nat} {P : List Point}, Cell b c P →
    WellFormed leafSize b c (Tree.buildNode leafSize P b) P := by
  intro b
  induction b with
  | zero =>
    intro c P h
    rw [buildNode_zero]
    exact .leaf h (Or.inl rfl)
  | succ b ih =>
    intro c P h
    by_cases hlen : P.length ≤ leafSize
    · rw [buildNode_small hlen]
      exact .leaf h (Or.inr hlen)
    · obtain ⟨A, B, rfl, -, hA, hB⟩ := h.split
      rw [List.length_append, not_le] at hlen
      have hchild : ∀ {c : Nat} {Q : List Point}, Cell b c Q →
          WellFormed leafSize b c (buildChild leafSize Q b) Q ∧
            (Q = [] → buildChild leafSize Q b = nullptr) := by
        intro c Q hQ
        unfold buildChild
        by_cases hQ0 : Q = []
        · subst hQ0; exact ⟨.null b c, fun _ => rfl⟩
        · rw [if_neg hQ0]; exact ⟨ih hQ, fun h => absurd h hQ0⟩
      obtain ⟨hl, hl0⟩ := hchild hA
      obtain ⟨hr, hr0⟩ := hchild hB
      rw [buildNode_large hA hB hlen]
      unfold Tree.createInternal
      rw [hl.getNumPoints, hr.getNumPoints]
      exact .inte hl hr hl0 hr0 hlen

/-- The invariant leaves no choice: a non-empty version is what `build` makes of its records. -/
theorem WellFormed.eq_buildNode (h : WellFormed leafSize b c t P) (hP : P ≠ []) :
    t = Tree.buildNode leafSize P b := by
  induction h with
  | null b c => exact absurd rfl hP
  | leaf cell fits =>
    rcases fits with rfl | fits
    · rw [buildNode_zero]
    · rw [buildNode_small fits]
  | @inte b c l r A B left right hl hr large ihl ihr =>
    have hchild : ∀ {t : BaseNode} {Q : List Point}, (Q = [] → t = nullptr) →
        (Q ≠ [] → t = Tree.buildNode leafSize Q b) → buildChild leafSize Q b = t := by
      intro t Q h0 h1
      unfold buildChild
      by_cases hQ : Q = []
      · rw [if_pos hQ, h0 hQ]
      · rw [if_neg hQ, h1 hQ]
    rw [buildNode_large left.cell right.cell large, hchild hl ihl, hchild hr ihr]
    unfold Tree.createInternal
    rw [left.getNumPoints, right.getNumPoints]

end Build

end Silva
