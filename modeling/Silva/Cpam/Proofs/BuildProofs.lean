import Silva.Cpam.PacTree

/-!
# Trees made of arrays

`make_compressed` makes a PaC tree of `B` to `8 * B + 2` entries, `to_tree_impl` one of less than `B`
entries. Of a block it makes a node with PaC trees below it.
-/

namespace Silva

namespace Cpam

open Node WeightBalance

variable {K V A : Type*} {ent : Entry K V A} {B : ℕ} {t a b : Node K V A}
  {left right : List (K × V) → Node K V A} {es : List (K × V)}

/-- Siblings that share a list fairly. -/
theorem Siblings.of_near (h1 : a.size ≤ b.size + 1) (h2 : b.size ≤ a.size + 1)
    (hblocks : a.size + b.size + 1 < B ∨ (B ≤ a.size ∧ B ≤ b.size)) : Siblings B a b :=
  ⟨balanced_weight_iff.mpr (by omega), hblocks⟩

/-- A split list is a PaC tree when both parts are. -/
theorem PaC.splitNode (hleft : ∀ es, (left es).entries = es) (hright : ∀ es, (right es).entries = es)
    {i : ℕ} (hi : i < es.length) (h1 : i ≤ es.length - i) (h2 : es.length - i ≤ i + 2)
    (hblocks : es.length < B ∨ (B ≤ i ∧ B + i + 1 ≤ es.length))
    (hl : ∀ es', es'.length = i → PaC ent B (left es'))
    (hr : ∀ es', es'.length = es.length - (i + 1) → PaC ent B (right es')) :
    PaC ent B (splitNode ent left right es i) := by
  have hpl := hl (es.take i) (List.length_take_of_le hi.le)
  have hpr := hr (es.drop (i + 1)) List.length_drop
  have hsl : (left (es.take i)).size = i := by
    rw [hpl.size, hleft, List.length_take_of_le hi.le]
  have hsr : (right (es.drop (i + 1))).size = es.length - (i + 1) := by
    rw [hpr.size, hright, List.length_drop]
  unfold Cpam.splitNode
  rw [List.drop_eq_getElem_cons hi]
  refine .regular hpl _ hpr (.of_near ?_ ?_ ?_) <;> rw [hsl, hsr] <;> omega

theorem PaC.single (h : 1 < B) (e : K × V) : PaC ent B (single ent e) :=
  .regular .null e .null (.of_near (by simp [Node.size]) (by simp [Node.size]) (Or.inl h))

theorem lcSize_eq (tot : ℕ) : lcSize tot = (tot - 1) / 2 := by
  unfold lcSize
  split <;> omega

theorem PaC.makeTwoNodes (h2 : 2 * B ≤ es.length) (h4 : es.length ≤ 4 * B + 1) :
    PaC ent B (makeTwoNodes ent B es) := by
  unfold Cpam.makeTwoNodes
  by_cases h : es.length = 2 * B
  · rw [if_pos h]
    exact .compressed (by omega) h.le
  · rw [if_neg h, lcSize_eq]
    exact .splitNode entries_makeSingleCompressedNode entries_makeSingleCompressedNode (by omega)
      (by omega) (by omega) (by omega) (fun _ h => .compressed (by omega) (by omega))
      (fun _ h => .compressed (by omega) (by omega))

/-- What `make_compressed` makes of enough, but not too many entries. -/
theorem PaC.makeCompressed (h1 : B ≤ es.length) (h8 : es.length ≤ kBaseCaseSize B) :
    PaC ent B (makeCompressed ent B es) := by
  unfold kBaseCaseSize at h8
  unfold Cpam.makeCompressed
  by_cases h2 : es.length ≤ 2 * B
  · rw [if_pos h2]
    exact .compressed h1 h2
  · rw [if_neg h2]
    by_cases h4 : es.length ≤ 4 * B + 1
    · rw [if_pos h4]
      exact .splitNode entries_makeSingleCompressedNode entries_makeSingleCompressedNode (by omega)
        (by omega) (by omega) (by omega) (fun _ h => .compressed (by omega) (by omega))
        (fun _ h => .compressed (by omega) (by omega))
    · rw [if_neg h4]
      unfold fourCompressedNodes
      rw [lcSize_eq]
      exact .splitNode entries_makeTwoNodes entries_makeTwoNodes (by omega) (by omega) (by omega)
        (by omega) (fun _ h => .makeTwoNodes (by omega) (by omega))
        (fun _ h => .makeTwoNodes (by omega) (by omega))

/-! ## `to_tree_impl` -/

/-- The first node of a tree of two or more entries. -/
theorem toTreeImpl_split (ent : Entry K V A) (B : ℕ) (es : List (K × V)) (depth : ℕ)
    (h1 : 2 ≤ es.length) (hB : ¬(es.length = B ∧ 0 < depth)) :
    ∃ e, es = es.take (es.length / 2) ++ e :: es.drop (es.length / 2 + 1) ∧
      toTreeImpl ent B es depth = regularNode ent (toTreeImpl ent B (es.take (es.length / 2)) (depth + 1))
        e (toTreeImpl ent B (es.drop (es.length / 2 + 1)) (depth + 1)) := by
  have hmid : es.length / 2 < es.length := by omega
  have hdrop := List.drop_eq_getElem_cons hmid
  refine ⟨es[es.length / 2], ?_, ?_⟩
  · rw [← hdrop, List.take_append_drop]
  · match es, h1 with
    | e0 :: e1 :: tail, _ =>
      rw [toTreeImpl, if_neg hB]
      simp only
      split
      · rename_i hnil
        rw [hdrop] at hnil
        cases hnil
      · rename_i e rest hcons
        rw [hdrop] at hcons
        cases hcons
        rfl

/-- The halves below the first node are about as large. -/
theorem length_halves (es : List (K × V)) (h : 1 ≤ es.length) :
    (es.take (es.length / 2)).length + (es.drop (es.length / 2 + 1)).length + 1 = es.length ∧
    (es.drop (es.length / 2 + 1)).length ≤ (es.take (es.length / 2)).length ∧
    (es.take (es.length / 2)).length ≤ (es.drop (es.length / 2 + 1)).length + 1 := by
  simp only [List.length_take, List.length_drop]
  omega

/-- Fewer than `B` entries make regular nodes only; below the root, `B` of them make a block. -/
theorem PaC.toTreeImpl (h1 : 1 < B) (es : List (K × V)) (depth : ℕ)
    (hlen : es.length < B ∨ (es.length = B ∧ 0 < depth)) : PaC ent B (toTreeImpl ent B es depth) := by
  induction hn : es.length using Nat.strong_induction_on generalizing es depth with
  | h n ih =>
    match hes : es with
    | [] => rw [Cpam.toTreeImpl]; exact .null
    | [e] => rw [Cpam.toTreeImpl]; exact .single h1 e
    | e0 :: e1 :: tail =>
      rw [← hes] at hlen hn ⊢
      have h2 : 2 ≤ es.length := by rw [hes]; simp
      by_cases hB : es.length = B ∧ 0 < depth
      · rw [hes] at hB ⊢
        rw [Cpam.toTreeImpl, if_pos hB]
        exact .compressed hB.1.ge (by omega)
      · obtain ⟨e, -, heq⟩ := toTreeImpl_split ent B es depth h2 hB
        obtain ⟨hsum, hle, hge⟩ := length_halves es (by omega)
        have hl := ih _ (by omega) (es.take (es.length / 2)) (depth + 1) (by omega) rfl
        have hr := ih _ (by omega) (es.drop (es.length / 2 + 1)) (depth + 1) (by omega) rfl
        rw [heq]
        refine .regular hl e hr (.of_near ?_ ?_ ?_) <;>
          rw [hl.size, hr.size, entries_toTreeImpl, entries_toTreeImpl] <;> omega

end Cpam

end Silva
