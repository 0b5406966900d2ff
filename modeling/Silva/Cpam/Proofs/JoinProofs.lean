import Silva.Cpam.Proofs.BuildProofs

/-!
# Joins

`node_join` of two PaC trees and an entry never fails and makes a PaC tree of the entries of the first
tree, the entry and those of the second tree.
-/

namespace Silva

namespace Cpam

open Node WeightBalance

variable {K V A : Type*} {ent : Entry K V A} {B : ℕ} {t a l r t1 t2 : Node K V A} {d : Side}
  {es es' : List (K × V)} {o : Option (Node K V A)}

/-- The result is a PaC tree of the entries `es`. -/
def Yields (ent : Entry K V A) (B : ℕ) (o : Option (Node K V A)) (es : List (K × V)) : Prop :=
  ∃ t, o = some t ∧ PaC ent B t ∧ t.entries = es

theorem PaC.yields (h : PaC ent B t) (hes : t.entries = es) : Yields ent B (some t) es :=
  ⟨t, rfl, h, hes⟩

theorem Yields.bind {f : Node K V A → Option (Node K V A)} (h : Yields ent B o es)
    (hf : ∀ t, PaC ent B t → t.entries = es → Yields ent B (f t) es') :
    Yields ent B (o.bind f) es' := by
  obtain ⟨t, rfl, ht, hes⟩ := h
  exact hf t ht hes

/-! ## Making a node of two trees -/

theorem makeCompressedOf_yields (ent : Entry K V A) (hl : l.size = l.entries.length)
    (hr : r.size = r.entries.length)
    {e : Option (K × V)} (hB : B ≤ l.size + r.size + e.toList.length)
    (h7 : l.size + r.size + e.toList.length ≤ 7 * B) :
    Yields ent B (makeCompressedOf ent B l r e) (l.entries ++ e.toList ++ r.entries) := by
  have hlen : (l.entries ++ e.toList ++ r.entries).length = l.size + r.size + e.toList.length := by
    rw [List.length_append, List.length_append, hl, hr]
    omega
  unfold makeCompressedOf
  rw [if_pos ⟨hB, h7, hlen⟩]
  refine (PaC.makeCompressed ?_ ?_).yields (entries_makeCompressed _)
  · rwa [hlen]
  · unfold kBaseCaseSize
    omega

/-- The same, in the order of a side. -/
theorem makeCompressedOf_side_yields (h1 : PaC ent B t1) (h2 : PaC ent B t2) {k : K × V}
    (hB : B ≤ t1.size + t2.size + 1) (h7 : t1.size + t2.size + 1 ≤ 7 * B) :
    Yields ent B (makeCompressedOf ent B (d.fst t1 t2) (d.snd t1 t2) (some k))
      (d.order t1.entries k t2.entries) := by
  cases d with
  | left =>
    rw [Nat.add_comm t1.size] at hB h7
    have := makeCompressedOf_yields ent (e := some k) h2.size h1.size hB h7
    rwa [Option.toList_some, List.append_assoc] at this
  | right =>
    have := makeCompressedOf_yields ent (e := some k) h1.size h2.size hB h7
    rwa [Option.toList_some, List.append_assoc] at this

theorem balancedJoin_yields (hl : PaC ent B l) (hr : PaC ent B r) (k : K × V)
    (hbal : Balanced alpha l.weight r.weight) :
    Yields ent B (balancedJoin ent B l r k) (l.entries ++ k :: r.entries) := by
  obtain ⟨h1, h2⟩ := balanced_weight_iff.mp hbal
  unfold balancedJoin
  rw [if_neg]
  · by_cases h : ((l.size < B || r.size < B) && B ≤ l.size + r.size + 1) = true
    · rw [if_pos h]
      simp only [Bool.and_eq_true, Bool.or_eq_true, decide_eq_true_eq] at h
      exact makeCompressedOf_side_yields (d := .right) hl hr h.2 (by omega)
    · rw [if_neg h]
      simp only [Bool.and_eq_true, Bool.or_eq_true, decide_eq_true_eq] at h
      exact (PaC.regular hl k hr ⟨hbal, by omega⟩).yields rfl
  · rw [Bool.or_eq_true, not_or, not_isLeftHeavy, not_isLeftHeavy]
    exact ⟨h2, h1⟩

theorem balancedJoin_side_yields (h1 : PaC ent B t1) (h2 : PaC ent B t2) (k : K × V)
    (hbal : Balanced alpha t1.weight t2.weight) :
    Yields ent B (balancedJoin ent B (d.fst t1 t2) (d.snd t1 t2) k)
      (d.order t1.entries k t2.entries) := by
  cases d with
  | left => exact balancedJoin_yields h2 h1 k hbal.symm
  | right => exact balancedJoin_yields h1 h2 k hbal

/-! ## Rotations -/

theorem doubleRotate_eq {lc rc lc' rc' : Node K V A} {e e' root : K × V} {s s' : ℕ} {augVal augVal' : A}
    (hinner : d.fst lc rc = regular lc' e' rc' s' augVal') :
    doubleRotate ent d a e (regular lc root rc s augVal) =
      some (d.node ent (d.node ent a e (d.fst lc' rc')) e'
        (d.node ent (d.snd lc' rc') root (d.snd lc rc))) := by
  unfold doubleRotate
  simp only [hinner, rotate, Side.fst_fst_snd, Side.snd_fst_snd]

section Rotations

variable {lc rc : Node K V A} {root : K × V} {s : ℕ} {augVal : A} (ha : PaC ent B a)
  (ht : PaC ent B (regular lc root rc s augVal)) (e : K × V)
  (hshare : alpha * (1 - alpha) * (a.weight + (regular lc root rc s augVal).weight) ≤ a.weight)
  (hheavy : isLeftHeavy (regular lc root rc s augVal) a = true)
  (hblocks : a.size + s + 1 < B ∨ (B ≤ a.size ∧ B ≤ s))

include ha ht hshare hheavy hblocks

theorem rotate_yields (hsingle : isSingleRotation d (regular lc root rc s augVal) = true) :
    Yields ent B (rotate ent d a e (regular lc root rc s augVal))
      (d.order a.entries e (regular lc root rc s augVal).entries) := by
  obtain ⟨hin, hout, hsib, hs⟩ := ht.of_regular_side d
  have hc : (d.fst lc rc).weight + (d.snd lc rc).weight = (regular lc root rc s augVal).weight := by
    simp only [weight, size_regular, hs]
    push_cast
    ring
  obtain ⟨hbal, hbal'⟩ := alpha_admissible.single_rotation hshare (isLeftHeavy_eq.mp hheavy)
    hsib.balanced hc (of_decide_eq_true hsingle)
  have hnode : PaC ent B (d.node ent a e (d.fst lc rc)) :=
    ha.node e hin ⟨hbal, by have := hsib.blocks; omega⟩
  have hweight : (d.node ent a e (d.fst lc rc)).weight = a.weight + (d.fst lc rc).weight :=
    Side.weight_node
  rw [← hweight] at hbal'
  refine (hnode.node root hout ⟨hbal', ?_⟩).yields ?_
  · rw [Side.size_node]
    have := hsib.blocks
    omega
  · rw [Side.entries_node, Side.entries_node, Side.entries_regular (d := d), Side.order_assoc]

theorem doubleRotate_yields {lc' rc' : Node K V A} {e' : K × V} {s' : ℕ} {augVal' : A}
    (hinner : d.fst lc rc = regular lc' e' rc' s' augVal')
    (hdouble : ¬isSingleRotation d (regular lc root rc s augVal) = true) :
    Yields ent B (doubleRotate ent d a e (regular lc root rc s augVal))
      (d.order a.entries e (regular lc root rc s augVal).entries) := by
  obtain ⟨hin, hout, hsib, hs⟩ := ht.of_regular_side d
  have hc : (d.fst lc rc).weight + (d.snd lc rc).weight = (regular lc root rc s augVal).weight := by
    simp only [weight, size_regular, hs]
    push_cast
    ring
  have hrot := (not_le.mp (mt decide_eq_true hdouble)).le
  rw [hinner] at hin hsib hs hc hrot
  obtain ⟨hin1, hin2, hsib', hs'⟩ := hin.of_regular_side d
  have hab : (regular lc' e' rc' s' augVal').weight = (d.fst lc' rc').weight + (d.snd lc' rc').weight := by
    simp only [weight, Node.size, hs']
    push_cast
    ring
  rw [hab] at hc hrot
  obtain ⟨hbal1, hbal2, hbal⟩ := alpha_admissible.double_rotation hshare
    (isLeftHeavy_eq.mp hheavy) (hab ▸ hsib.balanced) hc hsib'.balanced hrot
  rw [doubleRotate_eq hinner]
  have hblocks1 := hsib.blocks
  have hblocks2 := hsib'.blocks
  have hsize : (regular lc' e' rc' s' augVal').size = s' := rfl
  have hnode1 : PaC ent B (d.node ent a e (d.fst lc' rc')) := ha.node e hin1 ⟨hbal1, by omega⟩
  have hnode2 : PaC ent B (d.node ent (d.snd lc' rc') root (d.snd lc rc)) :=
    hin2.node root hout ⟨hbal2, by omega⟩
  refine (hnode1.node e' hnode2 ⟨?_, ?_⟩).yields ?_
  · rwa [Side.weight_node, Side.weight_node]
  · rw [Side.size_node, Side.size_node]
    omega
  · rw [Side.entries_node, Side.entries_node, Side.entries_node, Side.entries_regular (d := d), hinner,
      Side.entries_regular (d := d), Side.order_assoc, Side.order_assoc]

end Rotations

theorem not_isSingleRotation {lc rc : Node K V A} {e : K × V} {s : ℕ} {augVal : A} :
    ¬isSingleRotation d (regular lc e rc s augVal) = true ↔
      42 * (s + 1) < 71 * ((d.fst lc rc).size + 1) := by
  unfold isSingleRotation beta alpha weight
  rw [decide_eq_true_iff, not_le, ← Nat.cast_lt (α := ℚ), size_regular]
  push_cast
  constructor <;> intro h <;> linarith

/-- A node is balanced again when the tree on side `d` has grown, but not too much. -/
theorem rebalance_yields (ha : PaC ent B a) (ht : PaC ent B t) (e : K × V)
    (hshare : alpha * (1 - alpha) * (a.weight + t.weight) ≤ a.weight)
    (hblocks : a.size + t.size + 1 < B ∨ (B ≤ a.size ∧ B ≤ t.size))
    (hgrown : 29 * (a.size + 1) ≤ 71 * (t.size + 1)) :
    Yields ent B (rebalance ent B d a e t) (d.order a.entries e t.entries) := by
  unfold rebalance
  by_cases hheavy : isLeftHeavy t a = true
  · rw [if_pos hheavy]
    have hlt := isLeftHeavy_iff.mp hheavy
    cases t with
    | null =>
      rw [size_null] at hlt
      omega
    | compressed es augVal =>
      obtain ⟨hlow, hup⟩ := ht.of_compressed
      rw [size_compressed] at hlt hblocks
      omega
    | regular lc root rc s augVal =>
      by_cases hsingle : isSingleRotation d (regular lc root rc s augVal) = true
      · simp only [if_pos hsingle]
        exact rotate_yields ha ht e hshare hheavy hblocks hsingle
      · simp only [if_neg hsingle]
        obtain ⟨hin, hout, hsib, hs⟩ := ht.of_regular_side d
        have hlarge := not_isSingleRotation.mp hsingle
        rw [size_regular] at hlt hblocks
        cases hinner : d.fst lc rc with
        | null =>
          rw [hinner, size_null] at hlarge hs
          omega
        | compressed es augVal' =>
          rw [hinner] at hlarge hin hs
          rw [size_compressed] at hlarge hs
          obtain ⟨hlow, hup⟩ := hin.of_compressed
          have hsize : (d.node ent a e (regular lc root rc s augVal)).size = a.size + s + 1 :=
            Side.size_node
          have hes : (d.node ent a e (regular lc root rc s augVal)).entries =
              d.order a.entries e (regular lc root rc s augVal).entries := Side.entries_node
          have := makeCompressedOf_yields ent (B := B) (e := none) (r := null)
            (l := d.node ent a e (regular lc root rc s augVal))
            (by rw [hsize, hes, Side.length_order, ← ha.size, ← ht.size, size_regular]) rfl
            (by rw [hsize, size_null, Option.toList_none, List.length_nil]; omega)
            (by rw [hsize, size_null, Option.toList_none, List.length_nil]; omega)
          rwa [Option.toList_none, List.append_nil, Node.entries, List.append_nil, hes] at this
        | regular lc' e' rc' s' augVal' =>
          exact doubleRotate_yields ha ht e hshare hheavy hblocks hinner hsingle
  · rw [if_neg hheavy]
    have hbal := balanced_weight_iff.mpr ⟨not_isLeftHeavy.mp hheavy, hgrown⟩
    exact (ha.node e ht ⟨hbal, hblocks⟩).yields Side.entries_node

/-! ## Going down one side -/

theorem joinInto_null {k : K × V} (h : ¬isLeftHeavy (null : Node K V A) t2 = true) :
    joinInto ent B d null t2 k = balancedJoin ent B (d.fst null t2) (d.snd null t2) k := by
  rw [joinInto.eq_def, if_neg (by simp [isCompressed]), if_pos (by simpa using h)]

theorem joinInto_regular {lc rc : Node K V A} {e : K × V} {s : ℕ} {augVal : A} (k : K × V) :
    joinInto ent B d (regular lc e rc s augVal) t2 k =
      if !isLeftHeavy (regular lc e rc s augVal) t2 then
        balancedJoin ent B (d.fst (regular lc e rc s augVal) t2) (d.snd (regular lc e rc s augVal) t2) k
      else if willBeCompressed B (s + t2.size + 1) then
        makeCompressedOf ent B (d.fst (regular lc e rc s augVal) t2)
          (d.snd (regular lc e rc s augVal) t2) (some k)
      else (joinInto ent B d (d.snd lc rc) t2 k).bind (rebalance ent B d (d.fst lc rc) e) := by
  cases d <;> rfl

/-- A tree is joined to a tree that is heavier, or at least not much lighter. -/
theorem joinInto_yields (hB : 0 < B) (h1 : PaC ent B t1) (h2 : PaC ent B t2) (k : K × V)
    (hw : 71 * (t2.size + 1) ≤ 100 * (t1.size + 1)) :
    Yields ent B (joinInto ent B d t1 t2 k) (d.order t1.entries k t2.entries) := by
  induction t1 with
  | null =>
    have hlight : ¬isLeftHeavy (null : Node K V A) t2 = true :=
      not_isLeftHeavy.mpr (by rw [size_null]; omega)
    rw [size_null] at hw
    rw [joinInto_null hlight]
    exact balancedJoin_side_yields h1 h2 k (balanced_weight_iff.mpr (by rw [size_null]; omega))
  | compressed es augVal =>
    obtain ⟨hlow, hup⟩ := h1.of_compressed
    have hsize : (compressed es augVal).size = es.length := rfl
    exact makeCompressedOf_side_yields h1 h2 (by omega) (by omega)
  | regular lc e rc s augVal ihl ihr =>
    rw [joinInto_regular]
    have hsize : (regular lc e rc s augVal).size = s := rfl
    by_cases hlight : isLeftHeavy (regular lc e rc s augVal) t2 = true
    · rw [if_neg (by simpa using hlight)]
      by_cases hwill : willBeCompressed B (s + t2.size + 1) = true
      · rw [if_pos hwill]
        simp only [willBeCompressed, Bool.and_eq_true, decide_eq_true_eq] at hwill
        exact makeCompressedOf_side_yields h1 h2 hwill.1 (by omega)
      · rw [if_neg hwill]
        simp only [willBeCompressed, Bool.and_eq_true, decide_eq_true_eq] at hwill
        obtain ⟨hnear, hfar, hsib, hs⟩ := h1.of_regular_side d
        have hheavy := isLeftHeavy_eq.mp hlight
        have hlt := isLeftHeavy_iff.mp hlight
        obtain ⟨hw1, hw2⟩ := balanced_weight_iff.mp hsib.balanced
        have ih : Yields ent B (joinInto ent B d (d.snd lc rc) t2 k)
            (d.order (d.snd lc rc).entries k t2.entries) := by
          cases d with
          | left => exact ihl hfar (by change 71 * _ ≤ 100 * ((Side.left.snd lc rc).size + 1); omega)
          | right => exact ihr hfar (by change 71 * _ ≤ 100 * ((Side.right.snd lc rc).size + 1); omega)
        have hsum : (d.fst lc rc).weight + (d.snd lc rc).weight =
            (regular lc e rc s augVal).weight := by
          simp only [weight, size_regular, hs]
          push_cast
          ring
        rw [← hsum] at hheavy
        rw [Side.entries_regular (d := d), Side.order_assoc]
        refine ih.bind fun t ht hes => ?_
        have hsize : t.size = (d.snd lc rc).size + t2.size + 1 := by
          rw [ht.size, hes, Side.length_order, ← hfar.size, ← h2.size]
        have hweight : t.weight = (d.snd lc rc).weight + t2.weight := by
          simp only [weight, hsize]
          push_cast
          ring
        rw [← hes]
        refine rebalance_yields hnear ht e ?_ ?_ (by omega)
        · rw [hweight]
          exact alpha_admissible.sibling_share hsib.balanced hheavy
        · have := hsib.blocks
          omega
    · rw [if_pos (by simpa using hlight)]
      have hle := not_isLeftHeavy.mp hlight
      exact balancedJoin_side_yields h1 h2 k (balanced_weight_iff.mpr (by omega))

/-! ## `node_join` -/

theorem upperThreshold_le : upperThreshold B ≤ 7 * B := by
  unfold upperThreshold ratio alpha
  rw [Nat.ceil_le]
  push_cast
  have hB : (0 : ℚ) ≤ B := Nat.cast_nonneg B
  linarith

theorem PaC.of_not_isRegular (h : PaC ent B t) (hreg : ¬t.isRegular = true) :
    B ≤ t.size ∧ t.size ≤ 2 * B := by
  cases h with
  | null => exact absurd rfl hreg
  | regular left e right siblings => exact absurd rfl hreg
  | compressed lower upper => exact ⟨lower, upper⟩

section NodeJoin

variable (hB : 0 < B) (h1 : PaC ent B t1) (h2 : PaC ent B t2) (k : K × V)

include h1 h2

theorem balanced_nodes_yields (hr : ¬isLeftHeavy t1 t2 = true) (hl : ¬isLeftHeavy t2 t1 = true) :
    Yields ent B (balancedJoin ent B t1 t2 k) (t1.entries ++ k :: t2.entries) :=
  balancedJoin_yields h1 h2 k (balanced_weight_iff.mpr ⟨not_isLeftHeavy.mp hl, not_isLeftHeavy.mp hr⟩)

include hB

theorem rightJoin_yields (h : isLeftHeavy t1 t2 = true) :
    Yields ent B (rightJoin ent B t1 t2 k) (t1.entries ++ k :: t2.entries) :=
  joinInto_yields (d := .right) hB h1 h2 k (by have := isLeftHeavy_iff.mp h; omega)

theorem leftJoin_yields (h : isLeftHeavy t2 t1 = true) :
    Yields ent B (leftJoin ent B t1 t2 k) (t1.entries ++ k :: t2.entries) :=
  joinInto_yields (d := .left) hB h2 h1 k (by have := isLeftHeavy_iff.mp h; omega)

theorem regularJoin_yields :
    Yields ent B (regularJoin ent B t1 t2 k) (t1.entries ++ k :: t2.entries) := by
  unfold regularJoin
  by_cases htot : B ≤ t1.size + t2.size + 1 ∧ t1.size + t2.size + 1 ≤ upperThreshold B
  · rw [if_pos htot]
    exact makeCompressedOf_side_yields (d := .right) h1 h2 htot.1 (htot.2.trans upperThreshold_le)
  · rw [if_neg htot]
    by_cases hr : isLeftHeavy t1 t2 = true
    · rw [if_pos hr]
      exact rightJoin_yields hB h1 h2 k hr
    · rw [if_neg hr]
      by_cases hl : isLeftHeavy t2 t1 = true
      · rw [if_pos hl]
        exact leftJoin_yields hB h1 h2 k hl
      · rw [if_neg hl]
        exact balanced_nodes_yields h1 h2 k hr hl

theorem nodeJoin_yields :
    Yields ent B (nodeJoin ent B t1 t2 k) (t1.entries ++ k :: t2.entries) := by
  unfold nodeJoin
  by_cases hreg1 : t1.isRegular = true <;> by_cases hreg2 : t2.isRegular = true
  · rw [if_pos (by rw [hreg1, hreg2]; rfl)]
    exact regularJoin_yields hB h1 h2 k
  · obtain ⟨hlow, hup⟩ := h2.of_not_isRegular hreg2
    rw [if_neg (by simp [hreg2]), if_pos hreg1]
    by_cases hr : isLeftHeavy t1 t2 = true
    · rw [if_pos hr]
      exact rightJoin_yields hB h1 h2 k hr
    · rw [if_neg hr]
      by_cases hl : isLeftHeavy t2 t1 = true
      · rw [if_pos hl]
        have := isLeftHeavy_iff.mp hl
        exact makeCompressedOf_side_yields (d := .right) h1 h2 (by omega) (by omega)
      · rw [if_neg hl]
        exact balanced_nodes_yields h1 h2 k hr hl
  · obtain ⟨hlow, hup⟩ := h1.of_not_isRegular hreg1
    rw [if_neg (by simp [hreg1]), if_neg hreg1, if_pos hreg2]
    by_cases hl : isLeftHeavy t2 t1 = true
    · rw [if_pos hl]
      exact leftJoin_yields hB h1 h2 k hl
    · rw [if_neg hl]
      by_cases hr : isLeftHeavy t1 t2 = true
      · rw [if_pos hr]
        have := isLeftHeavy_iff.mp hr
        exact makeCompressedOf_side_yields (d := .right) h1 h2 (by omega) (by omega)
      · rw [if_neg hr]
        exact balanced_nodes_yields h1 h2 k hr hl
  · -- two blocks are never out of balance
    obtain ⟨hlow1, hup1⟩ := h1.of_not_isRegular hreg1
    obtain ⟨hlow2, hup2⟩ := h2.of_not_isRegular hreg2
    have hr : ¬isLeftHeavy t1 t2 = true := not_isLeftHeavy.mpr (by omega)
    have hl : ¬isLeftHeavy t2 t1 = true := not_isLeftHeavy.mpr (by omega)
    rw [if_neg (by simp [hreg1]), if_neg hreg1, if_neg hreg2, if_pos (by simp [hr, hl])]
    exact balanced_nodes_yields h1 h2 k hr hl

end NodeJoin

end Cpam

end Silva
