import Silva.Cpam.Proofs.MapOpsProofs

/-!
# Proofs: single keys and ranges

Searches find what a list search finds, `rank` counts the smaller keys, and a range is a filter. `insert`
is not the insertion of a finite map: a new key that lands inside a block replaces the next entry.
-/

namespace Silva

namespace Cpam

open Node KeyedList SortedMerge

variable {K V A : Type*} [LinearOrder K] {ent : Entry K V A} {B : ℕ} {root : Bool}
  {t : Node K V A} {es : List (K × V)} {k : K}

/-! ## Searches -/

theorem lookup_eq_none (h : ∀ e ∈ es, e.1 ≠ k) : lookup Prod.fst es k = none :=
  List.find?_eq_none.mpr fun e he hk => h e he (of_decide_eq_true hk)

theorem lookup_cons (e : K × V) (es : List (K × V)) (k : K) :
    lookup Prod.fst (e :: es) k = if e.1 = k then some e else lookup Prod.fst es k := by
  unfold lookup
  rw [List.find?_cons]
  by_cases h : e.1 = k <;> simp [h]

theorem lookup_append (as cs : List (K × V)) (k : K) :
    lookup Prod.fst (as ++ cs) k = (lookup Prod.fst as k).or (lookup Prod.fst cs k) :=
  List.find?_append

/-- The list search in a list that is cut at the key of one of its entries. -/
theorem lookup_append_cons {as cs : List (K × V)} {e : K × V} (hs : Sorted (as ++ e :: cs)) (k : K) :
    lookup Prod.fst (as ++ e :: cs) k =
      if k < e.1 then lookup Prod.fst as k else if e.1 < k then lookup Prod.fst cs k else some e := by
  obtain ⟨-, -, hlow, hup⟩ := sorted_append_cons hs
  rw [lookup_append, lookup_cons]
  rcases lt_trichotomy k e.1 with hk | hk | hk
  · rw [if_pos hk, if_neg hk.ne', lookup_eq_none fun x hx => (hk.trans (hup x hx)).ne', Option.or_none]
  · rw [if_neg hk.not_lt, if_neg hk.not_gt, if_pos hk.symm,
      lookup_eq_none fun x hx => ((hlow x hx).trans_eq hk.symm).ne, Option.none_or]
  · rw [if_neg hk.not_gt, if_pos hk, if_neg hk.ne, lookup_eq_none fun x hx => ((hlow x hx).trans hk).ne,
      Option.none_or]

/-- `find_compressed` keeps the last match, and there is at most one. -/
theorem foldl_find (hs : Sorted es) (k : K) (ret : Option (K × V)) :
    es.foldl (fun ret et => if !(k < et.1 || et.1 < k) then some et else ret) ret =
      (lookup Prod.fst es k).or ret := by
  induction es generalizing ret with
  | nil => rfl
  | cons e es ih =>
    obtain ⟨hrest, hes⟩ := List.pairwise_cons.mp hs
    rw [List.foldl_cons, ih hes, lookup_cons]
    rcases lt_trichotomy k e.1 with hk | hk | hk
    · rw [if_neg hk.ne']
      simp [hk]
    · rw [if_pos hk.symm, lookup_eq_none fun x hx => (hk.trans_lt (hrest x hx)).ne']
      simp [hk]
    · rw [if_neg hk.ne]
      simp [hk]

theorem find_eq (hs : Sorted t.entries) (k : K) : find t k = lookup Prod.fst t.entries k := by
  induction t with
  | null => rfl
  | compressed es augVal => exact (foldl_find hs k none).trans Option.or_none
  | regular lc e rc s augVal ihl ihr =>
    obtain ⟨hl, hr, -, -⟩ := sorted_append_cons hs
    rw [find, Node.entries, lookup_append_cons hs, ihl hl, ihr hr]

/-- The bisection of a block ends at the entry with the key, if there is one. -/
theorem getElem?_pamBinarySearch (hs : Sorted es) (k : K) :
    es[pamBinarySearch es fun et => et.1 < k]?.filter (fun et => !(et.1 < k || k < et.1)) =
      lookup Prod.fst es k := by
  have hcut := Search.filter_append_filter (f := fun a : K × V => decide (a.1 < k)) (l := es)
    (hs.imp fun hlt h => decide_eq_true (hlt.trans (of_decide_eq_true h)))
  have hlow : ∀ a ∈ es.filter fun a => decide (a.1 < k), a.1 < k :=
    fun a ha => of_decide_eq_true (List.mem_filter.mp ha).2
  have hhigh : ∀ b ∈ es.filter fun a => !decide (a.1 < k), ¬b.1 < k :=
    fun b hb => by simpa using (List.mem_filter.mp hb).2
  have hsort := hs.filter fun a => !decide (a.1 < k)
  generalize es.filter (fun a => decide (a.1 < k)) = low at *
  generalize es.filter (fun a => !decide (a.1 < k)) = high at *
  rw [← hcut, pamBinarySearch_append (fun a ha => decide_eq_true (hlow a ha))
    (fun b hb => decide_eq_false (hhigh b hb)), List.getElem?_append_right le_rfl, Nat.sub_self,
    lookup_append, lookup_eq_none fun x hx => (hlow x hx).ne, Option.none_or]
  cases high with
  | nil => rfl
  | cons b rest =>
    have hb := hhigh b List.mem_cons_self
    rw [List.getElem?_cons_zero, lookup_cons]
    by_cases hk : b.1 = k
    · simp [Option.filter, hk]
    · have hlt : k < b.1 := lt_of_le_of_ne (not_lt.mp hb) (Ne.symm hk)
      rw [if_neg hk, lookup_eq_none fun x hx =>
        (hlt.trans ((List.pairwise_cons.mp hsort).1 x hx)).ne']
      simp [Option.filter, hlt]

theorem find2_eq (hs : Sorted t.entries) (k : K) : find2 t k = lookup Prod.fst t.entries k := by
  induction t with
  | null => rfl
  | compressed es augVal => exact getElem?_pamBinarySearch hs k
  | regular lc e rc s augVal ihl ihr =>
    obtain ⟨hl, hr, -, -⟩ := sorted_append_cons hs
    rw [find2, Node.entries, lookup_append_cons hs, ihl hl, ihr hr]

/-! ## Ranks -/

theorem foldl_rank (k : K) (es : List (K × V)) (sum : ℕ) :
    es.foldl (fun sum et => if et.1 < k then sum + 1 else sum) sum =
      sum + (es.filter fun e => e.1 < k).length := by
  induction es generalizing sum with
  | nil => rfl
  | cons e es ih =>
    rw [List.foldl_cons, ih, List.filter_cons]
    by_cases h : e.1 < k
    · simp only [h, if_true, decide_true, List.length_cons]
      omega
    · simp [h]

theorem filter_lt_all (h : ∀ e ∈ es, e.1 < k) : (es.filter fun e => e.1 < k) = es :=
  List.filter_eq_self.mpr fun e he => decide_eq_true (h e he)

theorem filter_lt_none (h : ∀ e ∈ es, ¬e.1 < k) : (es.filter fun e => e.1 < k) = [] :=
  List.filter_eq_nil_iff.mpr fun e he hk => h e he (of_decide_eq_true hk)

theorem filter_gt_all (h : ∀ e ∈ es, k < e.1) : (es.filter fun e => k < e.1) = es :=
  List.filter_eq_self.mpr fun e he => decide_eq_true (h e he)

theorem filter_gt_none (h : ∀ e ∈ es, ¬k < e.1) : (es.filter fun e => k < e.1) = [] :=
  List.filter_eq_nil_iff.mpr fun e he hk => h e he (of_decide_eq_true hk)

theorem rank_eq (h : Valid ent B root t) (hs : Sorted t.entries) (k : K) (sum : ℕ) :
    rank t k sum = sum + (t.entries.filter fun e => e.1 < k).length := by
  induction t generalizing root sum with
  | null => rfl
  | compressed es augVal => exact foldl_rank k es sum
  | regular lc e rc s augVal ihl ihr =>
    obtain ⟨hl, hr, -, -⟩ := h.of_regular.of_regular
    obtain ⟨hsl, hsr, hlow, hup⟩ := sorted_append_cons hs
    rw [rank, Node.entries, List.filter_append, List.filter_cons, hl.size]
    rcases lt_trichotomy e.1 k with hk | hk | hk
    · rw [if_pos hk, ihr hr.inner hsr, filter_lt_all fun x hx => (hlow x hx).trans hk,
        if_pos (decide_eq_true hk), List.length_append, List.length_cons]
      omega
    · rw [if_neg hk.not_lt, if_pos (by simp [hk]), filter_lt_all fun x hx => (hlow x hx).trans_eq hk,
        if_neg (by simp [hk]), filter_lt_none fun x hx => (hk.symm.trans_lt (hup x hx)).not_gt,
        List.append_nil]
    · rw [if_neg hk.not_gt, if_neg (by simpa using hk), ihl hl.inner hsl,
        if_neg (by simpa using hk.le), filter_lt_none fun x hx => (hk.trans (hup x hx)).not_gt,
        List.append_nil]

theorem lookup_eq_getElem? (hs : Sorted es) (k : K) :
    es[(es.filter fun e => e.1 < k).length]?.filter (fun e => e.1 = k) = lookup Prod.fst es k := by
  induction es with
  | nil => rfl
  | cons e es ih =>
    obtain ⟨he, hs'⟩ := List.pairwise_cons.mp hs
    rw [List.filter_cons, lookup_cons]
    rcases lt_trichotomy e.1 k with hk | hk | hk
    · rw [if_pos (decide_eq_true hk), if_neg hk.ne, List.length_cons, List.getElem?_cons_succ]
      exact ih hs'
    · rw [if_neg (by simp [hk]), if_pos hk, filter_lt_none fun x hx => (hk ▸ he x hx).not_gt]
      simp [hk]
    · have hnone := lookup_eq_none fun x hx => (hk.trans (he x hx)).ne'
      rw [if_neg (by simpa using hk.le), if_neg hk.ne', hnone,
        filter_lt_none fun x hx => (hk.trans (he x hx)).not_gt]
      simp [hk.ne']

theorem left2_yields (hB : 1 < B) (h : Valid ent B root t) (hs : Sorted t.entries) (k : K) :
    Yields ent B (left2 ent B t k) (t.entries.filter fun e => e.1 ≤ k) := by
  induction t generalizing root with
  | null => exact PaC.null.yields rfl
  | compressed es augVal =>
    refine buildTree_yields hB ((List.length_filter_le _ es).trans ?_)
    have := h.of_compressed
    unfold kBaseCaseSize
    omega
  | regular lc e rc s augVal ihl ihr =>
    obtain ⟨hl, hr, -, -⟩ := h.of_regular.of_regular
    obtain ⟨hsl, hsr, hlow, hup⟩ := sorted_append_cons hs
    rw [left2, Node.entries, List.filter_append, List.filter_cons]
    by_cases hk : k < e.1
    · have hnone : (rc.entries.filter fun e => e.1 ≤ k) = [] :=
        List.filter_eq_nil_iff.mpr fun x hx h =>
          (hk.trans (hup x hx)).not_ge (of_decide_eq_true h)
      rw [if_pos hk, if_neg (by simpa using hk), hnone, List.append_nil]
      exact ihl hl.inner hsl
    · have hle := not_lt.mp hk
      have hall : (lc.entries.filter fun e => e.1 ≤ k) = lc.entries :=
        List.filter_eq_self.mpr fun x hx => decide_eq_true ((hlow x hx).le.trans hle)
      rw [if_neg hk, if_pos (decide_eq_true hle), hall]
      refine (ihr hr.inner hsr).bind fun r hpr her => ?_
      rw [← her]
      exact nodeJoin_yields (by omega) hl hpr e

theorem right2_yields (hB : 1 < B) (h : Valid ent B root t) (hs : Sorted t.entries) (k : K) :
    Yields ent B (right2 ent B t k) (t.entries.filter fun e => k ≤ e.1) := by
  induction t generalizing root with
  | null => exact PaC.null.yields rfl
  | compressed es augVal =>
    refine buildTree_yields hB ((List.length_filter_le _ es).trans ?_)
    have := h.of_compressed
    unfold kBaseCaseSize
    omega
  | regular lc e rc s augVal ihl ihr =>
    obtain ⟨hl, hr, -, -⟩ := h.of_regular.of_regular
    obtain ⟨hsl, hsr, hlow, hup⟩ := sorted_append_cons hs
    rw [right2, Node.entries, List.filter_append, List.filter_cons]
    by_cases hk : e.1 < k
    · have hnone : (lc.entries.filter fun e => k ≤ e.1) = [] :=
        List.filter_eq_nil_iff.mpr fun x hx h =>
          ((hlow x hx).trans hk).not_ge (of_decide_eq_true h)
      rw [if_pos hk, if_neg (by simpa using hk), hnone, List.nil_append]
      exact ihr hr.inner hsr
    · have hle := not_lt.mp hk
      have hall : (rc.entries.filter fun e => k ≤ e.1) = rc.entries :=
        List.filter_eq_self.mpr fun x hx => decide_eq_true (hle.trans (hup x hx).le)
      rw [if_neg hk, if_pos (decide_eq_true hle), hall]
      refine (ihl hl.inner hsl).bind fun l hpl hel => ?_
      rw [← hel]
      exact nodeJoin_yields (by omega) hpl hr e

/-- What `range_root_2` leaves out is outside the range, and a node that it finds is inside. -/
theorem rangeRoot2_spec (h : Valid ent B root t) (hs : Sorted t.entries) (low high : K) :
    Valid ent B root (rangeRoot2 t low high) ∧ Sorted (rangeRoot2 t low high).entries ∧
      (rangeRoot2 t low high).entries.filter (fun e => low ≤ e.1 && e.1 ≤ high) =
        t.entries.filter (fun e => low ≤ e.1 && e.1 ≤ high) ∧
      ∀ lc e rc s augVal, rangeRoot2 t low high = regular lc e rc s augVal →
        low ≤ e.1 ∧ e.1 ≤ high := by
  induction t generalizing root with
  | null => exact ⟨h, hs, rfl, fun _ _ _ _ _ h => by cases h⟩
  | compressed es augVal => exact ⟨h, hs, rfl, fun _ _ _ _ _ h => by cases h⟩
  | regular lc e rc s augVal ihl ihr =>
    obtain ⟨hl, hr, -, -⟩ := h.of_regular.of_regular
    obtain ⟨hsl, hsr, hlow, hup⟩ := sorted_append_cons hs
    rw [rangeRoot2]
    by_cases hh : high < e.1
    · obtain ⟨h1, h2, h3, h4⟩ := ihl (hl.valid : Valid ent B root lc) hsl
      have hnone : rc.entries.filter (fun e => low ≤ e.1 && e.1 ≤ high) = [] :=
        List.filter_eq_nil_iff.mpr fun x hx h => by
          simp only [Bool.and_eq_true, decide_eq_true_eq] at h
          exact (hh.trans (hup x hx)).not_ge h.2
      rw [if_pos hh]
      refine ⟨h1, h2, ?_, h4⟩
      rw [h3, Node.entries, List.filter_append, List.filter_cons, hnone,
        if_neg (by simp [hh]), List.append_nil]
    · rw [if_neg hh]
      by_cases hlo : e.1 < low
      · obtain ⟨h1, h2, h3, h4⟩ := ihr (hr.valid : Valid ent B root rc) hsr
        have hnone : lc.entries.filter (fun e => low ≤ e.1 && e.1 ≤ high) = [] :=
          List.filter_eq_nil_iff.mpr fun x hx h => by
            simp only [Bool.and_eq_true, decide_eq_true_eq] at h
            exact ((hlow x hx).trans hlo).not_ge h.1
        rw [if_pos hlo]
        refine ⟨h1, h2, ?_, h4⟩
        rw [h3, Node.entries, List.filter_append, List.filter_cons, hnone,
          if_neg (by simp [hlo]), List.nil_append]
      · rw [if_neg hlo]
        refine ⟨h, hs, rfl, fun _ _ _ _ _ heq => ?_⟩
        cases heq
        exact ⟨not_lt.mp hlo, not_lt.mp hh⟩

theorem range2_yields (hB : 1 < B) (h : Valid ent B root t) (hs : Sorted t.entries) (low high : K) :
    Yields ent B (range2 ent B t low high)
      (t.entries.filter fun e => low ≤ e.1 && e.1 ≤ high) := by
  obtain ⟨hv, hsort, hfilter, hin⟩ := rangeRoot2_spec h hs low high
  unfold range2
  rw [← hfilter]
  generalize rangeRoot2 t low high = b at *
  cases b with
  | null => exact PaC.null.yields rfl
  | compressed es augVal =>
    refine buildTree_yields hB ((List.length_filter_le _ es).trans ?_)
    have := hv.of_compressed
    unfold kBaseCaseSize
    omega
  | regular lc e rc s augVal =>
    obtain ⟨hl, hr, -, -⟩ := hv.of_regular.of_regular
    obtain ⟨hsl, hsr, hlow, hup⟩ := sorted_append_cons hsort
    obtain ⟨hle, hge⟩ := hin lc e rc s augVal rfl
    have hlc : lc.entries.filter (fun e => low ≤ e.1 && e.1 ≤ high) =
        lc.entries.filter fun e => low ≤ e.1 :=
      List.filter_congr fun x hx => by simp [(hlow x hx).le.trans hge]
    have hrc : rc.entries.filter (fun e => low ≤ e.1 && e.1 ≤ high) =
        rc.entries.filter fun e => e.1 ≤ high :=
      List.filter_congr fun x hx => by simp [hle.trans (hup x hx).le]
    rw [Node.entries, List.filter_append, List.filter_cons, hlc, hrc, if_pos (by simp [hle, hge])]
    refine (right2_yields hB hl.inner hsl low).bind fun l hpl hel => ?_
    refine (left2_yields hB hr.inner hsr high).bind fun r hpr her => ?_
    rw [← hel, ← her]
    exact nodeJoin_yields (by omega) hpl hpr e

/-! ## Deletion -/

/-- Dropping a key from a list that is cut at the key of one of its entries. -/
theorem filter_ne_append_cons {as cs : List (K × V)} {e : K × V} (hs : Sorted (as ++ e :: cs)) (k : K) :
    (as ++ e :: cs).filter (fun x => x.1 ≠ k) =
      if e.1 < k then as ++ e :: cs.filter (fun x => x.1 ≠ k)
      else if k < e.1 then as.filter (fun x => x.1 ≠ k) ++ e :: cs
      else as ++ cs := by
  obtain ⟨-, -, hlow, hup⟩ := sorted_append_cons hs
  have hall : ∀ {es : List (K × V)}, (∀ x ∈ es, x.1 ≠ k) → es.filter (fun x => x.1 ≠ k) = es :=
    fun h => List.filter_eq_self.mpr fun x hx => decide_eq_true (h x hx)
  rw [List.filter_append, List.filter_cons]
  rcases lt_trichotomy e.1 k with hk | hk | hk
  · rw [if_pos hk, hall fun x hx => ((hlow x hx).trans hk).ne, if_pos (decide_eq_true hk.ne)]
  · rw [if_neg hk.not_lt, if_neg hk.not_gt, if_neg (by simp [hk]),
      hall fun x hx => ((hlow x hx).trans_eq hk).ne, hall fun x hx => (hk.symm.trans_lt (hup x hx)).ne']
  · rw [if_neg hk.not_gt, if_pos hk, if_pos (decide_eq_true hk.ne'),
      hall fun x hx => (hk.trans (hup x hx)).ne']

theorem myRemove_yields (hB : 1 < B) (h : Valid ent B root t) (hs : Sorted t.entries) (k : K) :
    Yields ent B (myRemove ent B t k) (t.entries.filter fun e => e.1 ≠ k) := by
  fun_induction myRemove ent B t k generalizing root with
  | case1 b hnull =>
    rw [eq_null hnull]
    exact PaC.null.yields rfl
  | case2 b hne hexp => exact absurd hexp (h.expose_ne_none hB hne)
  | case3 b hne lc e rc hexp hlt ih =>
    have hx := h.exposes hB hexp
    obtain ⟨hsl, hsr, -, -⟩ := hx.sorted hs
    rw [hx.entries, filter_ne_append_cons (hx.entries ▸ hs), if_pos hlt]
    refine (ih hx.right.inner hsr).bind fun r hpr her => ?_
    rw [← her]
    exact nodeJoin_yields (by omega) hx.left hpr e
  | case4 b hne lc e rc hexp hnlt hgt ih =>
    have hx := h.exposes hB hexp
    obtain ⟨hsl, hsr, -, -⟩ := hx.sorted hs
    rw [hx.entries, filter_ne_append_cons (hx.entries ▸ hs), if_neg hnlt, if_pos hgt]
    refine (ih hx.left.inner hsl).bind fun l hpl hel => ?_
    rw [← hel]
    exact nodeJoin_yields (by omega) hpl hx.right e
  | case5 b hne lc e rc hexp hnlt hngt =>
    have hx := h.exposes hB hexp
    rw [hx.entries, filter_ne_append_cons (hx.entries ▸ hs), if_neg hnlt, if_neg hngt]
    exact join2_yields hB hx.left hx.right

theorem deletet_yields (hB : 1 < B) (h : Valid ent B root t) (hs : Sorted t.entries) (k : K) :
    Yields ent B (deletet ent B t k) (t.entries.filter fun e => e.1 ≠ k) := by
  cases t with
  | null => exact PaC.null.yields rfl
  | compressed es augVal =>
    have hfilter : es.filter (fun et => et.1 < k || k < et.1) = es.filter fun et => et.1 ≠ k :=
      List.filter_congr fun x _ => by rw [Bool.eq_iff_iff]; simp [lt_or_lt_iff_ne]
    rw [deletet, hfilter]
    refine buildTree_yields hB ((List.length_filter_le _ es).trans ?_)
    have := h.of_compressed
    unfold kBaseCaseSize
    omega
  | regular lc e rc s augVal =>
    obtain ⟨hl, hr, -, -⟩ := h.of_regular.of_regular
    obtain ⟨hsl, hsr, -, -⟩ := sorted_append_cons hs
    rw [deletet, Node.entries, filter_ne_append_cons hs]
    by_cases hlt : e.1 < k
    · rw [if_pos hlt, if_pos hlt]
      refine (myRemove_yields hB hr.inner hsr k).bind fun r hpr her => ?_
      rw [← her]
      exact nodeJoin_yields (by omega) hl hpr e
    · rw [if_neg hlt, if_neg hlt]
      by_cases hgt : k < e.1
      · rw [if_pos hgt, if_pos hgt]
        refine (myRemove_yields hB hl.inner hsl k).bind fun l hpl hel => ?_
        rw [← hel]
        exact nodeJoin_yields (by omega) hpl hr e
      · rw [if_neg hgt, if_neg hgt]
        exact join2_yields hB hl hr

/-! ## Insertion -/

/-- The block in which the search for a key ends; none if it ends at a node or at a missing child. -/
def landing : Node K V A → K → List (K × V)
  | null, _ => []
  | compressed es _, _ => es
  | regular lc e rc _ _, k =>
    if e.1 < k then landing rc k else if k < e.1 then landing lc k else []

/-- The entries after an insertion. In a block, the operation gets the values of a common key in the
reverse order, and a new entry is written over the next one of the block. -/
def insertResult (t : Node K V A) (e : K × V) (f : V → V → V) : List (K × V) :=
  let lower := t.entries.filter fun x => x.1 < e.1
  let upper := t.entries.filter fun x => e.1 < x.1
  match lookup Prod.fst t.entries e.1 with
  | some x =>
    lower ++ (e.1, if (landing t e.1).any (·.1 = e.1) then f e.2 x.2 else f x.2 e.2) :: upper
  | none => lower ++ e :: (if (landing t e.1).any (e.1 < ·.1) then upper.tail else upper)

theorem foldl_insertStep_placed (e : K × V) (f : V → V → V) (es merged : List (K × V)) :
    es.foldl (insertStep e f) (merged, true) = (merged ++ es, true) := by
  induction es generalizing merged with
  | nil => rw [List.foldl_nil, List.append_nil]
  | cons x es ih =>
    rw [List.foldl_cons, show insertStep e f (merged, true) x = (merged ++ [x], true) from rfl, ih,
      List.append_assoc, List.singleton_append]

/-- The buffer after a sorted block has been gone through. -/
theorem foldl_insertStep (hs : Sorted es) (e : K × V) (f : V → V → V) (merged : List (K × V)) :
    es.foldl (insertStep e f) (merged, false) =
      match lookup Prod.fst es e.1 with
      | some x => (merged ++ es.filter (fun x => x.1 < e.1) ++
          (x.1, f e.2 x.2) :: es.filter (fun x => e.1 < x.1), true)
      | none => if es.any (e.1 < ·.1) then (merged ++ es.filter (fun x => x.1 < e.1) ++
          e :: (es.filter fun x => e.1 < x.1).tail, true) else (merged ++ es, false) := by
  induction es generalizing merged with
  | nil => rw [List.foldl_nil, List.append_nil]; rfl
  | cons x es ih =>
    obtain ⟨hrest, hes⟩ := List.pairwise_cons.mp hs
    rw [List.foldl_cons, lookup_cons, List.any_cons]
    rcases lt_trichotomy x.1 e.1 with hk | hk | hk
    · have hstep : insertStep e f (merged, false) x = (merged ++ [x], false) := by
        simp [insertStep, hk]
      have hlow : (x :: es).filter (fun y => y.1 < e.1) = x :: es.filter (fun y => y.1 < e.1) :=
        List.filter_cons_of_pos (decide_eq_true hk)
      have hup : (x :: es).filter (fun y => e.1 < y.1) = es.filter fun y => e.1 < y.1 :=
        List.filter_cons_of_neg (by simpa using hk.le)
      rw [hstep, ih hes, if_neg hk.ne, hlow, hup, decide_eq_false hk.not_gt, Bool.false_or]
      simp only [List.append_assoc, List.cons_append, List.nil_append]
    · have hstep : insertStep e f (merged, false) x = (merged ++ [(x.1, f e.2 x.2)], true) := by
        simp [insertStep, hk]
      have hlow : (x :: es).filter (fun y => y.1 < e.1) = [] :=
        filter_lt_none (List.forall_mem_cons.mpr
          ⟨hk.not_lt, fun y hy => (hk.symm.trans_lt (hrest y hy)).not_gt⟩)
      have hup : (x :: es).filter (fun y => e.1 < y.1) = es := by
        rw [List.filter_cons_of_neg (by simp [hk]),
          filter_gt_all fun y hy => hk.symm.trans_lt (hrest y hy)]
      rw [hstep, foldl_insertStep_placed, if_pos hk, hlow, hup]
      simp only [List.append_nil, List.append_assoc, List.singleton_append]
    · have hstep : insertStep e f (merged, false) x = (merged ++ [e], true) := by
        simp [insertStep, hk, hk.not_gt]
      have hlow : (x :: es).filter (fun y => y.1 < e.1) = [] :=
        filter_lt_none (List.forall_mem_cons.mpr
          ⟨hk.not_gt, fun y hy => (hk.trans (hrest y hy)).not_gt⟩)
      have hup : (x :: es).filter (fun y => e.1 < y.1) = x :: es :=
        filter_gt_all (List.forall_mem_cons.mpr ⟨hk, fun y hy => hk.trans (hrest y hy)⟩)
      rw [hstep, foldl_insertStep_placed, if_neg hk.ne',
        lookup_eq_none fun y hy => (hk.trans (hrest y hy)).ne', decide_eq_true hk, Bool.true_or, hlow, hup]
      simp only [List.append_nil, List.append_assoc, List.singleton_append, List.tail_cons, if_true]

theorem insertBuffer_eq (hs : Sorted es) (e : K × V) (f : V → V → V) (augVal : A) :
    insertBuffer es e f = insertResult (compressed es augVal) e f := by
  unfold insertBuffer insertResult
  rw [foldl_insertStep hs, Node.entries, landing]
  cases hx : lookup Prod.fst es e.1 with
  | some x =>
    have hmem := List.mem_of_find?_eq_some hx
    have hkey : x.1 = e.1 := by simpa using List.find?_some hx
    have hany : es.any (·.1 = e.1) = true := List.any_eq_true.mpr ⟨x, hmem, by simpa using hkey⟩
    simp [hany, hkey]
  | none =>
    by_cases hany : es.any (e.1 < ·.1) = true
    · simp [hany]
    · have hall : es.filter (fun x => x.1 < e.1) = es := by
        refine filter_lt_all fun y hy => ?_
        have hne : y.1 ≠ e.1 := fun h => by
          have := List.find?_eq_none.mp hx y hy
          exact this (decide_eq_true h)
        refine lt_of_le_of_ne (not_lt.mp fun hlt => hany ?_) hne
        exact List.any_eq_true.mpr ⟨y, hy, decide_eq_true hlt⟩
      have hnone : es.filter (fun x => e.1 < x.1) = [] :=
        List.filter_eq_nil_iff.mpr fun y hy hlt => hany (List.any_eq_true.mpr ⟨y, hy, hlt⟩)
      simp [hany, hall, hnone]

theorem length_foldl_insertStep (e : K × V) (f : V → V → V) (es : List (K × V)) :
    ∀ state, (es.foldl (insertStep e f) state).1.length = state.1.length + es.length := by
  induction es with
  | nil => exact fun _ => rfl
  | cons x es ih =>
    intro state
    have hstep : (insertStep e f state x).1.length = state.1.length + 1 := by
      obtain ⟨merged, placed⟩ := state
      cases placed <;> simp only [insertStep, Bool.not_false, Bool.not_true] <;> split_ifs <;> simp
    rw [List.foldl_cons, ih, hstep, List.length_cons]
    omega

theorem length_insertBuffer (es : List (K × V)) (e : K × V) (f : V → V → V) :
    es.length ≤ (insertBuffer es e f).length ∧ (insertBuffer es e f).length ≤ es.length + 1 := by
  have hlen := length_foldl_insertStep e f es ([], false)
  rw [List.length_nil, Nat.zero_add] at hlen
  unfold insertBuffer
  rcases hfold : es.foldl (insertStep e f) ([], false) with ⟨merged, placed⟩
  rw [hfold] at hlen
  cases placed <;> simp [hlen]

/-- The block of a landing is a part of the tree. -/
theorem mem_of_mem_landing {x : K × V} (hx : x ∈ landing t k) : x ∈ t.entries := by
  induction t with
  | null => cases hx
  | compressed es augVal => exact hx
  | regular lc e rc s augVal ihl ihr =>
    rw [landing] at hx
    rw [Node.entries, List.mem_append, List.mem_cons]
    split_ifs at hx
    · exact Or.inr (Or.inr (ihr hx))
    · exact Or.inl (ihl hx)
    · cases hx

theorem insertResult_right {lc rc : Node K V A} {be e : K × V} {s : ℕ} {augVal : A}
    (hs : Sorted (regular lc be rc s augVal).entries) (hlt : be.1 < e.1) (f : V → V → V) :
    insertResult (regular lc be rc s augVal) e f = lc.entries ++ be :: insertResult rc e f := by
  obtain ⟨-, -, hlow, hup⟩ := sorted_append_cons hs
  have hl : (regular lc be rc s augVal).entries.filter (fun x => x.1 < e.1) =
      lc.entries ++ be :: rc.entries.filter fun x => x.1 < e.1 := by
    rw [Node.entries, List.filter_append, filter_lt_all fun x hx => (hlow x hx).trans hlt,
      List.filter_cons, if_pos (decide_eq_true hlt)]
  have hu : (regular lc be rc s augVal).entries.filter (fun x => e.1 < x.1) =
      rc.entries.filter fun x => e.1 < x.1 := by
    rw [Node.entries, List.filter_append, filter_gt_none fun x hx => ((hlow x hx).trans hlt).not_gt,
      List.filter_cons_of_neg (by simpa using hlt.le), List.nil_append]
  unfold insertResult
  rw [hl, hu, landing, if_pos hlt, Node.entries, lookup_append_cons hs, if_neg hlt.not_gt, if_pos hlt]
  cases lookup Prod.fst rc.entries e.1 <;> simp

theorem insertResult_left {lc rc : Node K V A} {be e : K × V} {s : ℕ} {augVal : A}
    (hs : Sorted (regular lc be rc s augVal).entries) (hgt : e.1 < be.1) (f : V → V → V) :
    insertResult (regular lc be rc s augVal) e f = insertResult lc e f ++ be :: rc.entries := by
  obtain ⟨-, -, hlow, hup⟩ := sorted_append_cons hs
  have hl : (regular lc be rc s augVal).entries.filter (fun x => x.1 < e.1) =
      lc.entries.filter fun x => x.1 < e.1 := by
    rw [Node.entries, List.filter_append, List.filter_cons_of_neg (by simpa using hgt.le),
      filter_lt_none fun x hx => (hgt.trans (hup x hx)).not_gt, List.append_nil]
  have hu : (regular lc be rc s augVal).entries.filter (fun x => e.1 < x.1) =
      lc.entries.filter (fun x => e.1 < x.1) ++ be :: rc.entries := by
    rw [Node.entries, List.filter_append, List.filter_cons, if_pos (decide_eq_true hgt),
      filter_gt_all fun x hx => hgt.trans (hup x hx)]
  unfold insertResult
  rw [hl, hu, landing, if_neg hgt.not_gt, if_pos hgt, Node.entries, lookup_append_cons hs, if_pos hgt]
  cases lookup Prod.fst lc.entries e.1 with
  | some x => simp
  | none =>
    by_cases hany : (landing lc e.1).any (e.1 < ·.1) = true
    · -- the entry that is lost is one of the left subtree
      obtain ⟨x, hx, hlt⟩ := List.any_eq_true.mp hany
      have hne : lc.entries.filter (fun x => e.1 < x.1) ≠ [] :=
        List.ne_nil_of_mem (List.mem_filter.mpr ⟨mem_of_mem_landing hx, hlt⟩)
      simp [hany, List.tail_append_of_ne_nil hne]
    · simp [hany]

theorem insertResult_at {lc rc : Node K V A} {be e : K × V} {s : ℕ} {augVal : A}
    (hs : Sorted (regular lc be rc s augVal).entries) (heq : be.1 = e.1) (f : V → V → V) :
    insertResult (regular lc be rc s augVal) e f = lc.entries ++ (e.1, f be.2 e.2) :: rc.entries := by
  obtain ⟨-, -, hlow, hup⟩ := sorted_append_cons hs
  unfold insertResult
  rw [landing, if_neg heq.not_lt, if_neg heq.not_gt, Node.entries, lookup_append_cons hs,
    if_neg heq.not_gt, if_neg heq.not_lt, List.filter_append, List.filter_append,
    filter_lt_all fun x hx => (hlow x hx).trans_eq heq, List.filter_cons_of_neg (by simp [heq]),
    List.filter_cons_of_neg (by simp [heq]),
    filter_lt_none fun x hx => (heq.symm.trans_lt (hup x hx)).not_gt,
    filter_gt_none fun x hx => ((hlow x hx).trans_eq heq).not_gt,
    filter_gt_all fun x hx => heq.symm.trans_lt (hup x hx), List.append_nil, List.nil_append]
  rfl

/-- A block that is not at the root stays large enough. -/
theorem PaC.le_insertResult (h : PaC ent B t) (hs : Sorted t.entries) (e : K × V) (f : V → V → V)
    (hcompressed : t.isCompressed = true) : B ≤ (insertResult t e f).length := by
  cases t with
  | null => cases hcompressed
  | regular lc be rc s augVal => cases hcompressed
  | compressed es augVal =>
    have hes : Sorted es := hs
    rw [← insertBuffer_eq hes e f augVal]
    exact h.of_compressed.1.trans (length_insertBuffer es e f).1

theorem insert_yields (hB : 1 < B) (h : Valid ent B root t) (hs : Sorted t.entries) (e : K × V)
    (f : V → V → V) (hlarge : t.isCompressed = true → B ≤ (insertResult t e f).length) :
    Yields ent B (insert ent B e f t) (insertResult t e f) := by
  induction t generalizing root with
  | null => exact (PaC.single hB e).yields rfl
  | compressed es augVal =>
    have hup := h.of_compressed
    obtain ⟨hle, hge⟩ := length_insertBuffer es e f
    have hes : Sorted es := hs
    have hmerged := hlarge rfl
    rw [← insertBuffer_eq hes e f augVal] at hmerged
    rw [insert, insertCompressed2, if_pos hmerged, ← insertBuffer_eq hes e f augVal]
    exact (PaC.makeCompressed hmerged (by unfold kBaseCaseSize; omega)).yields
      (entries_makeCompressed _)
  | regular lc be rc s augVal ihl ihr =>
    obtain ⟨hl, hr, -, -⟩ := h.of_regular.of_regular
    obtain ⟨hsl, hsr, -, -⟩ := sorted_append_cons hs
    rw [insert]
    by_cases hlt : be.1 < e.1
    · rw [if_pos hlt, insertResult_right hs hlt]
      refine (ihr hr.inner hsr (hr.le_insertResult hsr e f)).bind fun r hpr her => ?_
      rw [← her]
      exact nodeJoin_yields (by omega) hl hpr be
    · rw [if_neg hlt]
      by_cases hgt : e.1 < be.1
      · rw [if_pos hgt, insertResult_left hs hgt]
        refine (ihl hl.inner hsl (hl.le_insertResult hsl e f)).bind fun l hpl hel => ?_
        rw [← hel]
        exact nodeJoin_yields (by omega) hpl hr be
      · rw [if_neg hgt, insertResult_at hs (le_antisymm (not_lt.mp hgt) (not_lt.mp hlt))]
        exact nodeJoin_yields (by omega) hl hr _

end Cpam

end Silva
