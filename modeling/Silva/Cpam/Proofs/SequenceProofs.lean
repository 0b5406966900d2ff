import Silva.Cpam.SequenceOps
import Silva.Cpam.Proofs.JoinProofs

/-!
# Proofs: sequence operations on PaC trees

No operation on a PaC tree fails, and its result is a PaC tree again whose entries are those of the same
operation on lists.
-/

namespace Silva

namespace Cpam

open Node WeightBalance

variable {K V A T : Type*} {ent : Entry K V A} {B : ℕ} {root : Bool} {t t1 t2 : Node K V A}
  {es : List (K × V)} {o : Option (Node K V A)}

/-- The same for an operation that may return the root of a map as it is. -/
def YieldsMap (ent : Entry K V A) (B : ℕ) (root : Bool) (o : Option (Node K V A))
    (es : List (K × V)) : Prop :=
  ∃ t, o = some t ∧ Valid ent B root t ∧ t.entries = es

theorem Yields.map (h : Yields ent B o es) : YieldsMap ent B root o es := by
  obtain ⟨t, rfl, ht, hes⟩ := h
  exact ⟨t, rfl, ht.valid, hes⟩

theorem YieldsMap.yields (h : YieldsMap ent B false o es) : Yields ent B o es := by
  obtain ⟨t, rfl, ht, hes⟩ := h
  exact ⟨t, rfl, ht.resolve_right fun hfalse => Bool.false_ne_true hfalse.1, hes⟩

theorem YieldsMap.congr {es' : List (K × V)} (h : YieldsMap ent B root o es) (heq : es = es') :
    YieldsMap ent B root o es' := heq ▸ h

theorem Valid.yields (h : Valid ent B root t) (hes : t.entries = es) :
    YieldsMap ent B root (some t) es :=
  ⟨t, rfl, h, hes⟩

/-! ## Taking trees apart -/

/-- A tree is taken apart into PaC trees. -/
structure Exposes (ent : Entry K V A) (B : ℕ) (t lc : Node K V A) (e : K × V) (rc : Node K V A) :
    Prop where
  expose : expose ent B t = some (lc, e, rc)
  left : PaC ent B lc
  right : PaC ent B rc
  entries : t.entries = lc.entries ++ e :: rc.entries

theorem expose_block (hB : 1 < B) {augVal : A} (hne : es ≠ []) (hle : es.length ≤ 2 * B) :
    ∃ lc e rc, Exposes ent B (compressed es augVal) lc e rc := by
  have hpos := List.length_pos_of_ne_nil hne
  have htree : toTree ent B es = some (toTreeImpl ent B es 0) := if_pos ⟨hpos, hle⟩
  by_cases hone : es.length = 1
  · obtain ⟨e, rfl⟩ := List.length_eq_one_iff.mp hone
    refine ⟨null, e, null, ?_, .null, .null, rfl⟩
    rw [Cpam.expose, htree, toTreeImpl]
    rfl
  · obtain ⟨e, hes, heq⟩ := toTreeImpl_split ent B es 0
      (by omega) (by omega)
    obtain ⟨hsum, hle', hge⟩ := length_halves es hpos
    refine ⟨_, e, _, ?_, .toTreeImpl hB (es.take (es.length / 2)) 1 (by omega),
      .toTreeImpl hB (es.drop (es.length / 2 + 1)) 1 (by omega), ?_⟩
    · rw [Cpam.expose, htree, heq]
      rfl
    · rw [entries_toTreeImpl, entries_toTreeImpl]
      exact hes

theorem Valid.expose (hB : 1 < B) (h : Valid ent B root t) (hne : t.isNull = false) :
    ∃ lc e rc, Exposes ent B t lc e rc := by
  rcases h with h | ⟨-, es, hes, hlt, rfl⟩
  · cases h with
    | null => cases hne
    | regular left e right siblings => exact ⟨_, e, _, rfl, left, right, rfl⟩
    | compressed lower upper =>
      exact expose_block hB (List.ne_nil_of_length_pos (by omega)) upper
  · exact expose_block hB hes (by omega)

theorem Valid.exposes (hB : 1 < B) (h : Valid ent B root t) {lc rc : Node K V A} {e : K × V}
    (hexp : Cpam.expose ent B t = some (lc, e, rc)) : Exposes ent B t lc e rc := by
  have hne : t.isNull = false := by
    cases t with
    | null => cases hexp
    | regular lc' e' rc' s augVal => rfl
    | compressed es augVal => rfl
  obtain ⟨lc', e', rc', hx⟩ := h.expose hB hne
  have heq := hx.expose
  rw [hexp] at heq
  cases heq
  exact hx

theorem Valid.expose_ne_none (hB : 1 < B) (h : Valid ent B root t) (hne : ¬t.isNull = true) :
    Cpam.expose ent B t ≠ none := by
  obtain ⟨lc, e, rc, hx⟩ := h.expose hB (Bool.eq_false_iff.mpr hne)
  rw [hx.expose]
  exact Option.some_ne_none _

/-! ## Putting trees together -/

theorem buildTree_yields (hB : 1 < B) (h : es.length ≤ kBaseCaseSize B) :
    Yields ent B (buildTree ent B es) es := by
  unfold buildTree
  by_cases hlt : es.length < B
  · rw [if_pos hlt]
    exact (PaC.toTreeImpl hB es 0 (Or.inl hlt)).yields (entries_toTreeImpl es 0)
  · rw [if_neg hlt, if_pos h]
    exact (PaC.makeCompressed (not_lt.mp hlt) h).yields (entries_makeCompressed es)

/-- Two trees that become one node: the larger one is a block, or one block takes all. -/
theorem join2_compressed (h1 : PaC ent B t1) (h2 : PaC ent B t2)
    (hbase : (t.isCompressed || willBeCompressed B (t1.size + t2.size)) = true)
    (ht : PaC ent B t) (hle : t.size ≤ t1.size + t2.size) (hlarge : t1.size + t2.size ≤ 2 * t.size) :
    Yields ent B (makeCompressedOf ent B t1 t2 none) (t1.entries ++ t2.entries) := by
  have hbounds : B ≤ t1.size + t2.size ∧ t1.size + t2.size ≤ 7 * B := by
    rcases Bool.or_eq_true_iff.mp hbase with hc | hc
    · obtain ⟨hlow, hup⟩ := ht.of_not_isRegular (by simp [isRegular, hc])
      omega
    · simp only [willBeCompressed, Bool.and_eq_true, decide_eq_true_eq] at hc
      omega
  have := makeCompressedOf_yields ent (e := none) h1.size h2.size hbounds.1 hbounds.2
  rwa [Option.toList_none, List.append_nil] at this

theorem join2_yields (hB : 1 < B) (h1 : PaC ent B t1) (h2 : PaC ent B t2) :
    Yields ent B (join2 ent B t1 t2) (t1.entries ++ t2.entries) := by
  fun_induction join2 ent B t1 t2 with
  | case1 b1 b2 hnull =>
    rw [eq_null hnull]
    exact h2.yields rfl
  | case2 b1 b2 hne hnull =>
    rw [eq_null hnull]
    exact h1.yields (List.append_nil _).symm
  | case3 b1 b2 hne1 hne2 hgt hbase =>
    exact join2_compressed h1 h2 hbase h1 (by omega) (by omega)
  | case4 b1 b2 hne1 hne2 hgt hbase lc e rc hexp ih =>
    have hx := h1.inner.exposes hB hexp
    rw [hx.entries, List.append_assoc, List.cons_append]
    refine (ih hx.right h2).bind fun r hr hes => ?_
    rw [← hes]
    exact nodeJoin_yields (by omega) hx.left hr e
  | case5 b1 b2 hne1 hne2 hgt hbase hexp => exact absurd hexp (h1.inner.expose_ne_none hB hne1)
  | case6 b1 b2 hne1 hne2 hgt hbase =>
    exact join2_compressed h1 h2 hbase h2 (by omega) (by omega)
  | case7 b1 b2 hne1 hne2 hgt hbase lc e rc hexp ih =>
    have hx := h2.inner.exposes hB hexp
    rw [hx.entries, ← List.append_assoc]
    refine (ih h1 hx.left).bind fun l hl hes => ?_
    rw [← hes]
    exact nodeJoin_yields (by omega) hl hx.right e
  | case8 b1 b2 hne1 hne2 hgt hbase hexp => exact absurd hexp (h2.inner.expose_ne_none hB hne2)

theorem fromArray_yields (hB : 1 < B) (es : List (K × V)) : Yields ent B (fromArray ent B es) es := by
  induction es using fromArray.induct B with
  | case1 =>
    rw [fromArray]
    exact PaC.null.yields rfl
  | case2 e =>
    rw [fromArray]
    exact (PaC.single hB e).yields rfl
  | case3 e0 e1 tail es h =>
    rw [fromArray, if_pos h]
    exact (PaC.makeCompressed h.1 (by unfold kBaseCaseSize; omega)).yields (entries_makeCompressed _)
  | case4 e0 e1 tail es h mid hdrop =>
    have := congrArg List.length hdrop
    simp only [es, mid, List.length_drop, List.length_cons, List.length_nil] at this
    omega
  | case5 e0 e1 tail es h mid m rest hdrop ihl ihr =>
    have hes : es.take mid ++ m :: rest = es := by rw [← hdrop, List.take_append_drop]
    rw [fromArray, if_neg h]
    simp only
    split
    · rename_i hnil
      rw [hdrop] at hnil
      cases hnil
    · rename_i m' rest' hcons
      rw [hdrop] at hcons
      cases hcons
      refine ihl.bind fun l hl hel => ihr.bind fun r hr her => ?_
      have := nodeJoin_yields (by omega) hl hr m
      rwa [hel, her, hes] at this

/-- A map is a PaC tree or one small block. -/
theorem Valid.of_regular {lc rc : Node K V A} {e : K × V} {s : ℕ} {augVal : A}
    (h : Valid ent B root (regular lc e rc s augVal)) : PaC ent B (regular lc e rc s augVal) :=
  h.resolve_right fun ⟨_, _, _, _, heq⟩ => by cases heq

theorem Valid.of_compressed {augVal : A} (h : Valid ent B root (compressed es augVal)) :
    es.length ≤ 2 * B := by
  rcases h with h | ⟨-, es', -, hlt, heq⟩
  · exact h.of_compressed.2
  · cases heq
    omega

theorem filter_yields (hB : 1 < B) (f : K × V → Bool) (h : Valid ent B root t) :
    Yields ent B (filter ent B f t) (t.entries.filter f) := by
  induction t generalizing root with
  | null => exact PaC.null.yields rfl
  | compressed es augVal =>
    have hle := h.of_compressed
    refine buildTree_yields hB ((List.length_filter_le f es).trans ?_)
    unfold kBaseCaseSize
    omega
  | regular lc e rc s augVal ihl ihr =>
    obtain ⟨hl, hr, -, -⟩ := h.of_regular.of_regular
    rw [Node.entries, List.filter_append]
    refine (ihl hl.inner).bind fun l hl hel => ?_
    refine (ihr hr.inner).bind fun r hr her => ?_
    by_cases hf : f e = true
    · rw [if_pos hf, List.filter_cons_of_pos hf, ← hel, ← her]
      exact nodeJoin_yields (by omega) hl hr e
    · rw [if_neg hf, List.filter_cons_of_neg hf, ← hel, ← her]
      exact join2_yields hB hl hr

/-! ## Looking at entries -/

/-- `select` finds the entry of a rank. -/
theorem select_eq (h : Valid ent B root t) (rank : ℕ) : select t rank = t.entries[rank]? := by
  induction t generalizing root rank with
  | null => rfl
  | compressed es augVal => rfl
  | regular lc e rc s augVal ihl ihr =>
    obtain ⟨hl, hr, -, -⟩ := h.of_regular.of_regular
    have hsize := hl.size
    rw [select, Node.entries]
    by_cases hgt : rank > lc.size
    · rw [if_pos hgt, ihr hr.inner, List.getElem?_append_right (by omega), ← hsize,
        show rank - lc.size = rank - lc.size - 1 + 1 by omega, List.getElem?_cons_succ]
      rfl
    · rw [if_neg hgt]
      by_cases hlt : rank < lc.size
      · rw [if_pos hlt, ihl hl.inner, List.getElem?_append_left (by omega)]
      · rw [if_neg hlt, List.getElem?_append_right (by omega),
          show rank - lc.entries.length = 0 by omega, List.getElem?_cons_zero]

/-- `foreach_index` calls its function once for every entry, with the index of the entry. -/
theorem foreachIndex_perm (h : Valid ent B root t) (start : ℕ) :
    (foreachIndex t start).Perm (t.entries.zipIdx start) := by
  induction t generalizing root start with
  | null => exact .nil
  | compressed es augVal => exact .refl _
  | regular lc e rc s augVal ihl ihr =>
    obtain ⟨hl, hr, -, -⟩ := h.of_regular.of_regular
    rw [foreachIndex, Node.entries, List.zipIdx_append, List.zipIdx_cons, ← hl.size]
    refine .trans (.cons _ ?_) List.perm_middle.symm
    exact ((ihl hl.inner start).append
      (ihr hr.inner _))

/-- `map_reduce` with a monoid is the sum over the entries. -/
theorem mapReduce_eq [AddMonoid T] (f : K × V → T) (t : Node K V A) :
    mapReduce 0 (· + ·) f t = (t.entries.map f).sum := by
  induction t with
  | null => rfl
  | compressed es augVal => rw [mapReduce, Node.entries, List.sum_eq_foldl, List.foldl_map]
  | regular lc e rc s augVal ihl ihr =>
    rw [mapReduce, ihl, ihr, Node.entries, List.map_append, List.sum_append, List.map_cons,
      List.sum_cons]

end Cpam

end Silva
