import Silva.Cpam.Proofs.JoinProofs

/-!
# Proofs: what the shape of a PaC tree gives

A PaC tree passes the check of the library, its height is logarithmic in its size, and with an
associative `combine` the value that a node stores is the one of the sequence of its entries.
-/

namespace Silva

namespace Cpam

open Node WeightBalance

variable {K V A : Type*} {ent : Entry K V A} {B : ℕ} {root : Bool} {t t1 t2 : Node K V A}
  {es es' : List (K × V)} {e : K × V}

/-! ## The check -/

/-- Below a node of a large tree there are no small trees. -/
theorem PaC.checkStructure (h : PaC ent B t) {origTreeSize : Option ℕ}
    (horig : 2 * B < origTreeSize.getD t.size → B ≤ t.size) :
    Cpam.checkStructure B origTreeSize t = some true := by
  induction h generalizing origTreeSize with
  | null => rfl
  | @regular lc rc left e right siblings ihl ihr =>
    have hblocks := siblings.blocks
    obtain ⟨hl, hr⟩ := balanced_weight_iff.mp siblings.balanced
    have hsize : (regularNode ent lc e rc).size = lc.size + rc.size + 1 := rfl
    rw [hsize] at horig
    have hlc : Cpam.checkStructure B (some (origTreeSize.getD (lc.size + rc.size + 1))) lc = some true :=
      ihl (by rw [Option.getD_some]; omega)
    have hrc : Cpam.checkStructure B (some (origTreeSize.getD (lc.size + rc.size + 1))) rc = some true :=
      ihr (by rw [Option.getD_some]; omega)
    have hheavy : (isLeftHeavy lc rc || isLeftHeavy rc lc) = false := by
      rw [Bool.or_eq_false_iff, ← Bool.not_eq_true, ← Bool.not_eq_true, not_isLeftHeavy,
        not_isLeftHeavy]
      exact ⟨hr, hl⟩
    rw [regularNode, Cpam.checkStructure, if_neg (by omega), hheavy, if_neg Bool.false_ne_true]
    simp only [hlc, hrc]
    rfl
  | compressed lower upper => exact if_pos upper

theorem Valid.checkStructure (h : Valid ent B root t) : Cpam.checkStructure B none t = some true := by
  rcases h with h | ⟨-, es, -, hlt, rfl⟩
  · exact h.checkStructure fun hlt => by rw [Option.getD_none] at hlt; omega
  · exact if_pos (by omega)

/-! ## Height -/

/-- The number of nodes on the longest path. -/
def height : Node K V A → ℕ
  | null => 0
  | regular lc _ rc _ _ => max (height lc) (height rc) + 1
  | compressed _ _ => 1

/-- Every step down leaves at most `71 / 100` of the weight. -/
theorem PaC.height_le (hB : 0 < B) (h : PaC ent B t) :
    100 ^ height t ≤ 71 ^ height t * (t.size + 1) := by
  induction h with
  | null => exact le_rfl
  | @regular lc rc left e right siblings ihl ihr =>
    obtain ⟨hl, hr⟩ := balanced_weight_iff.mp siblings.balanced
    have hstep : ∀ {a b n : ℕ}, 100 ^ n ≤ 71 ^ n * (a + 1) → 29 * (a + 1) ≤ 71 * (b + 1) →
        100 ^ (n + 1) ≤ 71 ^ (n + 1) * (a + b + 1 + 1) := by
      intro a b n ih hab
      calc 100 ^ (n + 1) = 100 ^ n * 100 := pow_succ ..
        _ ≤ 71 ^ n * (a + 1) * 100 := Nat.mul_le_mul_right _ ih
        _ = 71 ^ n * (100 * (a + 1)) := by ring
        _ ≤ 71 ^ n * (71 * (a + b + 1 + 1)) := Nat.mul_le_mul_left _ (by omega)
        _ = 71 ^ (n + 1) * (a + b + 1 + 1) := by ring
    show 100 ^ (max (height lc) (height rc) + 1) ≤ 71 ^ (max (height lc) (height rc) + 1) *
      (lc.size + rc.size + 1 + 1)
    rcases le_total (height lc) (height rc) with hle | hle
    · rw [max_eq_right hle, Nat.add_comm lc.size]
      exact hstep ihr hl
    · rw [max_eq_left hle]
      exact hstep ihl hr
  | @compressed es lower upper =>
    show 100 ^ 1 ≤ 71 ^ 1 * (es.length + 1)
    omega

theorem Valid.height_le (hB : 0 < B) (h : Valid ent B root t) :
    100 ^ height t ≤ 71 ^ height t * (t.size + 1) := by
  rcases h with h | ⟨-, es, hne, -, rfl⟩
  · exact h.height_le hB
  · have := List.length_pos_iff.mpr hne
    show 100 ^ 1 ≤ 71 ^ 1 * (es.length + 1)
    omega

/-- Trees of any two sizes can be joined, and the result is not higher than any other tree of its size. -/
theorem nodeJoin_passes_check (hB : 0 < B) (h1 : PaC ent B t1) (h2 : PaC ent B t2) (k : K × V) :
    ∃ t, nodeJoin ent B t1 t2 k = some t ∧ t.entries = t1.entries ++ k :: t2.entries ∧
      Cpam.checkStructure B none t = some true ∧
      100 ^ height t ≤ 71 ^ height t * (t1.size + t2.size + 2) := by
  obtain ⟨t, ht, hp, hes⟩ := nodeJoin_yields hB h1 h2 k
  have hsize : t.size = t1.size + t2.size + 1 := by
    rw [hp.size, hes, List.length_append, List.length_cons, h1.size, h2.size]
    rfl
  refine ⟨t, ht, hes, hp.inner.checkStructure, ?_⟩
  rw [show t1.size + t2.size + 2 = t.size + 1 by omega]
  exact hp.height_le hB

theorem nodeJoin_passes_check_eight :
    ∃ t, nodeJoin sumEntry 2 fiveTens (tens [7, 8]) (6, 60) = some t ∧
      t.entries = [(1, 10), (2, 20), (3, 30), (4, 40), (5, 50), (6, 60), (7, 70), (8, 80)] ∧
      Cpam.checkStructure 2 none t = some true ∧ 100 ^ height t ≤ 71 ^ height t * 9 :=
  nodeJoin_passes_check (by decide) paC_fiveTens (paC_tens (by decide) (by decide)) (6, 60)

/-! ## Joins of regular nodes -/

/-- Where trees of about the same size are joined, the join only makes a node. -/
theorem regularNodeJoin_of_near (h1 : t1.size ≤ t2.size + 1) (h2 : t2.size ≤ t1.size + 1) :
    regularNodeJoin ent t1 t2 e = some (regularNode ent t1 e t2) := by
  rw [regularNodeJoin, if_neg (not_isLeftHeavy.mpr (by omega)), if_neg (not_isLeftHeavy.mpr (by omega))]

/-- `to_tree_impl` joins the trees of its halves. -/
theorem toTreeImpl_join {depth : ℕ} (hB : 1 < B) (h1 : 2 ≤ es.length)
    (hdepth : ¬(es.length = B ∧ 0 < depth)) (hlen : es.length ≤ 2 * B) :
    ∃ e, es = es.take (es.length / 2) ++ e :: es.drop (es.length / 2 + 1) ∧
      regularNodeJoin ent (toTreeImpl ent B (es.take (es.length / 2)) (depth + 1))
        (toTreeImpl ent B (es.drop (es.length / 2 + 1)) (depth + 1)) e =
      some (toTreeImpl ent B es depth) := by
  obtain ⟨e, hes, heq⟩ := toTreeImpl_split ent B es depth h1 hdepth
  obtain ⟨hsum, hle, hge⟩ := length_halves es (by omega)
  have hl : PaC ent B _ := .toTreeImpl hB (es.take (es.length / 2)) (depth + 1) (by omega)
  have hr : PaC ent B _ := .toTreeImpl hB (es.drop (es.length / 2 + 1)) (depth + 1) (by omega)
  refine ⟨e, hes, ?_⟩
  rw [heq]
  refine regularNodeJoin_of_near ?_ ?_ <;>
    rw [hl.size, hr.size, entries_toTreeImpl, entries_toTreeImpl] <;> omega

/-! ## Augmented values -/

section Associative

variable (hassoc : ∀ a b c, ent.combine (ent.combine a b) c = ent.combine a (ent.combine b c))

include hassoc

/-- The loop of `encode`, started from a value. -/
theorem foldl_combine_eq (a : A) (hne : es ≠ []) :
    es.foldl (fun av e => ent.combine av (ent.fromEntry e)) a = ent.combine a (encode ent es) := by
  obtain ⟨e, es, rfl⟩ := List.exists_cons_of_ne_nil hne
  rw [encode]
  clear hne
  induction es using List.reverseRecOn with
  | nil => rfl
  | append_singleton es e' ih =>
    rw [List.foldl_cons] at ih
    rw [List.foldl_cons, List.foldl_append, List.foldl_append, ih]
    exact hassoc ..

theorem encode_append (hne : es ≠ []) (hne' : es' ≠ []) :
    encode ent (es ++ es') = ent.combine (encode ent es) (encode ent es') := by
  obtain ⟨e, es, rfl⟩ := List.exists_cons_of_ne_nil hne
  rw [List.cons_append, encode, List.foldl_append]
  exact foldl_combine_eq hassoc _ hne'

/-- `update` stores the value of the sequence. -/
theorem WellFormed.regularNode (h1 : WellFormed ent B t1 es) (h2 : WellFormed ent B t2 es') :
    WellFormed ent B (regularNode ent t1 e t2) (es ++ e :: es') := by
  have hright : encode ent (e :: es') =
      if !t2.isNull then ent.combine (ent.fromEntry e) (t2.augVal ent) else ent.fromEntry e := by
    by_cases h : t2.isNull = true
    · rw [if_neg (by simp [h]), h2.isNull.mp h]
      rfl
    · rw [if_pos (by simpa using h), h2.augVal]
      exact foldl_combine_eq hassoc _ (mt h2.isNull.mpr h)
  have hencode : encode ent (es ++ e :: es') =
      if !t1.isNull then ent.combine (t1.augVal ent) (encode ent (e :: es'))
      else encode ent (e :: es') := by
    by_cases h : t1.isNull = true
    · rw [if_neg (by simp [h]), h1.isNull.mp h]
      rfl
    · rw [if_pos (by simpa using h), h1.augVal]
      exact encode_append hassoc (mt h1.isNull.mpr h) (List.cons_ne_nil _ _)
  have haug : (Cpam.regularNode ent t1 e t2).augVal ent = encode ent (es ++ e :: es') := by
    rw [hencode, hright]
    show (if _ then _ else _) = _
    cases t1.isNull <;> cases t2.isNull
    · exact hassoc ..
    · rfl
    · rfl
    · rfl
  have hnode : Cpam.regularNode ent t1 e t2 =
      .regular t1 e t2 (es.length + es'.length + 1) (encode ent (es ++ e :: es')) := by
    rw [← haug, ← h1.size, ← h2.size]
    rfl
  rw [hnode]
  exact .regular h1 e h2

theorem PaC.wellFormed (hB : 0 < B) (h : PaC ent B t) : WellFormed ent B t t.entries := by
  induction h with
  | null => exact .null
  | regular left e right siblings ihl ihr => exact ihl.regularNode hassoc ihr
  | compressed lower upper => exact .compressed (List.ne_nil_of_length_pos (hB.trans_le lower)) upper

theorem Valid.wellFormed (hB : 0 < B) (h : Valid ent B root t) : WellFormed ent B t t.entries := by
  rcases h with h | ⟨-, es, hne, hlt, rfl⟩
  · exact h.wellFormed hassoc hB
  · exact .compressed hne (by omega)

end Associative

end Cpam

end Silva
