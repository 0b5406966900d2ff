import Silva.Cpam.AugmentedOps

/-!
# Well-formed PaC trees

`WellFormed ent B t es`: the tree `t` lists the entries `es`, in any arrangement of regular and
compressed nodes; every node stores the combined value of the entries below it, and a regular node
their number. The order of the keys is not part of it.
-/

namespace Silva

namespace Cpam

open Node

variable {K V A : Type*} {ent : Entry K V A} {B : ℕ} {t : Node K V A} {es : List (K × V)}

/-- What a node with the entries `es` has to look like. -/
inductive WellFormed (ent : Entry K V A) (B : ℕ) : Node K V A → List (K × V) → Prop where
  /-- The empty tree has no entries. -/
  | null : WellFormed ent B null []
  /-- A regular node stores its size and its augmented value. -/
  | regular {lc rc : Node K V A} {es es' : List (K × V)} (left : WellFormed ent B lc es)
      (e : K × V) (right : WellFormed ent B rc es') :
      WellFormed ent B (regular lc e rc (es.length + es'.length + 1) (encode ent (es ++ e :: es')))
        (es ++ e :: es')
  /-- A block has at most `2 * B` entries and stores their augmented value. -/
  | compressed {es : List (K × V)} (hne : es ≠ []) (hle : es.length ≤ 2 * B) :
      WellFormed ent B (compressed es (encode ent es)) es

namespace WellFormed

theorem entries (h : WellFormed ent B t es) : t.entries = es := by
  induction h with
  | null => rfl
  | regular left e right ihl ihr => rw [Node.entries, ihl, ihr]
  | compressed hne hle => rfl

theorem size (h : WellFormed ent B t es) : t.size = es.length := by
  cases h with
  | null => rfl
  | regular left e right =>
    rw [Node.size, List.length_append, List.length_cons, Nat.add_assoc]
  | compressed hne hle => rfl

theorem augVal (h : WellFormed ent B t es) : t.augVal ent = encode ent es := by
  cases h <;> rfl

theorem isNull (h : WellFormed ent B t es) : t.isNull = true ↔ es = [] := by
  cases h with
  | null => simp [Node.isNull]
  | regular left e right => simp [Node.isNull]
  | compressed hne hle => simp [Node.isNull, hne]

end WellFormed

/-! ## The entries of the nodes that are made -/

theorem entries_regularNode (lc : Node K V A) (e : K × V) (rc : Node K V A) :
    (regularNode ent lc e rc).entries = lc.entries ++ e :: rc.entries := rfl

theorem entries_splitNode {left right : List (K × V) → Node K V A}
    (hleft : ∀ es, (left es).entries = es) (hright : ∀ es, (right es).entries = es) {i : ℕ}
    (hi : es = [] ∨ i < es.length) : (splitNode ent left right es i).entries = es := by
  unfold splitNode
  rcases hi with rfl | hi
  · rw [List.drop_nil]
    rfl
  · rw [List.drop_eq_getElem_cons hi]
    simp only
    rw [entries_regularNode, hleft, hright, ← List.drop_eq_getElem_cons hi, List.take_append_drop]

theorem entries_toTreeImpl (es : List (K × V)) (depth : ℕ) :
    (toTreeImpl ent B es depth).entries = es := by
  induction es, depth using toTreeImpl.induct B with
  | case1 depth => rw [toTreeImpl]; rfl
  | case2 depth e => rw [toTreeImpl]; rfl
  | case3 depth e0 e1 tail es h => rw [toTreeImpl, if_pos h]; rfl
  | case4 depth e0 e1 tail es h mid hdrop =>
    have := congrArg List.length hdrop
    simp only [es, mid, List.length_drop, List.length_cons, List.length_nil] at this
    omega
  | case5 depth e0 e1 tail es h mid e rest hdrop ihl ihr =>
    have hes : es.take mid ++ e :: rest = es := by rw [← hdrop, List.take_append_drop]
    rw [toTreeImpl, if_neg h]
    simp only
    split
    · rename_i hnil
      rw [hdrop] at hnil
      cases hnil
    · rename_i e' rest' hcons
      rw [hdrop] at hcons
      cases hcons
      rw [entries_regularNode, ihl, ihr, hes]

theorem entries_makeSingleCompressedNode (es : List (K × V)) :
    (makeSingleCompressedNode ent es).entries = es := rfl

theorem lcSize_lt (es : List (K × V)) : es = [] ∨ lcSize es.length < es.length := by
  rw [← List.length_eq_zero_iff]
  unfold lcSize
  split <;> omega

theorem half_lt (es : List (K × V)) : es = [] ∨ es.length / 2 < es.length := by
  rw [← List.length_eq_zero_iff]
  omega

theorem entries_makeTwoNodes (es : List (K × V)) : (makeTwoNodes ent B es).entries = es := by
  unfold makeTwoNodes
  by_cases h : es.length = 2 * B
  · rw [if_pos h, entries_makeSingleCompressedNode]
  · rw [if_neg h, entries_splitNode entries_makeSingleCompressedNode
      entries_makeSingleCompressedNode (lcSize_lt es)]

theorem entries_makeCompressed (es : List (K × V)) : (makeCompressed ent B es).entries = es := by
  unfold makeCompressed
  by_cases h2 : es.length ≤ 2 * B
  · rw [if_pos h2, entries_makeSingleCompressedNode]
  · by_cases h4 : es.length ≤ 4 * B + 1
    · rw [if_neg h2, if_pos h4]
      exact entries_splitNode entries_makeSingleCompressedNode entries_makeSingleCompressedNode
        (half_lt es)
    · rw [if_neg h2, if_neg h4]
      exact entries_splitNode entries_makeTwoNodes entries_makeTwoNodes (lcSize_lt es)

end Cpam

end Silva
