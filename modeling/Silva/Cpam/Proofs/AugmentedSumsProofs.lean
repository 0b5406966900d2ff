import Silva.Cpam.AugmentedSums
import Silva.Cpam.Proofs.LookupProofs
import Silva.Cpam.Proofs.ShapeProofs

/-!
# Proofs: sums over ranges of keys

`aug_sum_right` adds up what it says. `aug_sum_left` does so except for the entry at the key itself,
which it leaves out when it lies in a block, and `aug_sum_range` inherits this at its upper end and, when
the whole range lies in one block, at its lower end, too.
-/

namespace Silva

namespace Cpam

open Node

variable {K V A : Type*} [LinearOrder K] {ent : Entry K V A} {B : ℕ} {root : Bool}
  {t : Node K V A} {es : List (K × V)} {k : K}

/-! ## Augmented values of a commutative monoid -/

/-- The values are added up. -/
structure Additive [AddCommMonoid A] (ent : Entry K V A) : Prop where
  getEmpty : ent.getEmpty = 0
  combine : ∀ a b, ent.combine a b = a + b

/-- The sum of the values of entries. -/
def entriesSum [AddCommMonoid A] (ent : Entry K V A) (es : List (K × V)) : A :=
  (es.map ent.fromEntry).sum

section Additive

variable [AddCommMonoid A] (hadd : Additive ent)

omit [LinearOrder K] in
theorem entriesSum_append (es es' : List (K × V)) :
    entriesSum ent (es ++ es') = entriesSum ent es + entriesSum ent es' := by
  rw [entriesSum, List.map_append, List.sum_append]
  rfl

omit [LinearOrder K] in
theorem entriesSum_cons (e : K × V) (es : List (K × V)) :
    entriesSum ent (e :: es) = ent.fromEntry e + entriesSum ent es := List.sum_cons

include hadd

omit [LinearOrder K] in
theorem foldl_addEntry (es : List (K × V)) (a : A) :
    es.foldl (addEntry ent) a = a + entriesSum ent es := by
  induction es generalizing a with
  | nil => exact (add_zero a).symm
  | cons e es ih => rw [List.foldl_cons, ih, addEntry, hadd.combine, entriesSum_cons, add_assoc]

omit [LinearOrder K] in
theorem encode_eq_sum (es : List (K × V)) : encode ent es = entriesSum ent es := by
  cases es with
  | nil => exact hadd.getEmpty
  | cons e es => rw [entriesSum_cons]; exact foldl_addEntry hadd es (ent.fromEntry e)

omit [LinearOrder K] in
/-- The value that a node stores is the sum over its entries. -/
theorem Valid.augVal_eq (hB : 0 < B) (h : Valid ent B root t) :
    t.augVal ent = entriesSum ent t.entries := by
  have hassoc : ∀ a b c, ent.combine (ent.combine a b) c = ent.combine a (ent.combine b c) :=
    fun a b c => by simp only [hadd.combine, add_assoc]
  rw [(h.wellFormed hassoc hB).augVal, encode_eq_sum hadd]

omit [LinearOrder K] in
theorem add_augVal (hB : 0 < B) (h : Valid ent B root t) (a : A) :
    (if !t.isNull then addAugVal ent a (t.augVal ent) else a) = a + entriesSum ent t.entries := by
  by_cases hnull : t.isNull = true
  · rw [if_neg (by simp [hnull]), eq_null hnull]
    exact (add_zero a).symm
  · rw [if_pos (by simpa using hnull), addAugVal, hadd.combine, h.augVal_eq hadd hB]

/-! ## One end -/

omit hadd [AddCommMonoid A] [LinearOrder K] in
theorem mem_regularEntries {e : K × V} (he : e ∈ regularEntries t) : e ∈ t.entries := by
  induction t with
  | null => cases he
  | compressed es augVal => cases he
  | regular lc e' rc s augVal ihl ihr =>
    rw [regularEntries, List.mem_append, List.mem_cons] at he
    rw [Node.entries, List.mem_append, List.mem_cons]
    exact he.imp ihl (Or.imp_right ihr)

omit hadd [AddCommMonoid A] in
theorem filter_eq_none (h : ∀ e ∈ es, e.1 ≠ k) : (es.filter fun e => e.1 = k) = [] :=
  List.filter_eq_nil_iff.mpr fun e he hk => h e he (of_decide_eq_true hk)

omit hadd [AddCommMonoid A] in
/-- In a block the smaller keys are the ones before the first key that is not smaller. -/
theorem takeWhile_lt (hs : Sorted es) (k : K) :
    (es.takeWhile fun e => e.1 < k) = es.filter fun e => e.1 < k := by
  induction es with
  | nil => rfl
  | cons e es ih =>
    obtain ⟨hrest, hes⟩ := List.pairwise_cons.mp hs
    by_cases hk : e.1 < k
    · rw [List.takeWhile_cons, List.filter_cons, if_pos (decide_eq_true hk),
        if_pos (decide_eq_true hk), ih hes]
    · rw [List.takeWhile_cons, List.filter_cons, if_neg (by simpa using hk), if_neg (by simpa using hk),
        filter_lt_none fun x hx hlt => hk ((hrest x hx).trans hlt)]

/-- The sum to the left: the entry at the key counts when it is the one of a node. -/
theorem augSumLeft_eq (hB : 0 < B) (h : Valid ent B root t) (hs : Sorted t.entries) (key : K) (a : A) :
    augSumLeft ent key t a = a + entriesSum ent (t.entries.filter fun e => e.1 < key) +
      entriesSum ent ((regularEntries t).filter fun e => e.1 = key) := by
  induction t generalizing root a with
  | null => simp [augSumLeft, entriesSum, Node.entries, regularEntries]
  | compressed es augVal =>
    have hes : Sorted es := hs
    rw [augSumLeft, takeWhile_lt hes, foldl_addEntry hadd]
    exact (add_zero _).symm
  | regular lc e rc s augVal ihl ihr =>
    obtain ⟨hl, hr, -, -⟩ := h.of_regular.of_regular
    obtain ⟨hsl, hsr, hlow, hup⟩ := sorted_append_cons hs
    rw [augSumLeft, Node.entries, regularEntries, List.filter_append, List.filter_append]
    by_cases hk : key < e.1
    · have hne : ∀ x ∈ regularEntries rc, x.1 ≠ key :=
        fun x hx => (hk.trans (hup x (mem_regularEntries hx))).ne'
      rw [if_neg (by simpa using hk), ihl hl.inner hsl, List.filter_cons_of_neg (by simpa using hk.le),
        filter_lt_none fun x hx => (hk.trans (hup x hx)).not_gt,
        List.filter_cons_of_neg (by simpa using hk.ne'), filter_eq_none hne, List.append_nil,
        List.append_nil]
    · have hle := not_lt.mp hk
      have hne : ∀ x ∈ regularEntries lc, x.1 ≠ key :=
        fun x hx => ((hlow x (mem_regularEntries hx)).trans_le hle).ne
      rw [if_pos (by simpa using hk)]
      simp only [add_augVal hadd hB hl.inner]
      rw [ihr hr.inner hsr, filter_lt_all fun x hx => (hlow x hx).trans_le hle, filter_eq_none hne,
        List.nil_append, addEntry, hadd.combine, entriesSum_append]
      rcases hle.lt_or_eq with hlt | heq
      · rw [List.filter_cons, if_pos (decide_eq_true hlt), List.filter_cons,
          if_neg (by simpa using hlt.ne), entriesSum_cons]
        abel
      · rw [List.filter_cons, if_neg (by simp [heq]), List.filter_cons, if_pos (decide_eq_true heq),
          entriesSum_cons]
        abel

/-- The sum to the right. -/
theorem augSumRight_eq (hB : 0 < B) (h : Valid ent B root t) (hs : Sorted t.entries) (key : K) (a : A) :
    augSumRight ent key t a = a + entriesSum ent (t.entries.filter fun e => key ≤ e.1) := by
  induction t generalizing root a with
  | null => simp [augSumRight, entriesSum, Node.entries]
  | compressed es augVal =>
    rw [augSumRight, foldl_addEntry hadd]
    simp only [← decide_not, not_lt]
    rfl
  | regular lc e rc s augVal ihl ihr =>
    obtain ⟨hl, hr, -, -⟩ := h.of_regular.of_regular
    obtain ⟨hsl, hsr, hlow, hup⟩ := sorted_append_cons hs
    rw [augSumRight, Node.entries, List.filter_append]
    by_cases hk : e.1 < key
    · have hnone : (lc.entries.filter fun x => key ≤ x.1) = [] :=
        List.filter_eq_nil_iff.mpr fun x hx hle =>
          ((hlow x hx).trans hk).not_ge (of_decide_eq_true hle)
      rw [if_neg (by simpa using hk), ihr hr.inner hsr, hnone, List.nil_append,
        List.filter_cons_of_neg (by simpa using hk)]
    · have hle := not_lt.mp hk
      have hall : (rc.entries.filter fun x => key ≤ x.1) = rc.entries :=
        List.filter_eq_self.mpr fun x hx => decide_eq_true (hle.trans (hup x hx).le)
      rw [if_pos (by simpa using hk)]
      simp only [add_augVal hadd hB hr.inner]
      rw [ihl hl.inner hsl, List.filter_cons, if_pos (decide_eq_true hle), hall, addEntry, hadd.combine,
        entriesSum_append, entriesSum_cons]
      abel

/-! ## Both ends -/

omit hadd [AddCommMonoid A] in
/-- The entries at the two ends of a range that are added up. -/
def endsSummed (t : Node K V A) (keyLeft keyRight : K) : List (K × V) :=
  match rangeRoot2 t keyLeft keyRight with
  | compressed _ _ => []
  | r => (r.entries.filter fun e => e.1 = keyLeft && keyLeft < keyRight) ++
    (regularEntries r).filter fun e => e.1 = keyRight

omit hadd [AddCommMonoid A] in
/-- The entries strictly inside a range are all below the root of the range. -/
theorem filter_inside (h : Valid ent B root t) (hs : Sorted t.entries) (low high : K) :
    (t.entries.filter fun e => low < e.1 && e.1 < high) =
      (rangeRoot2 t low high).entries.filter fun e => low < e.1 && e.1 < high := by
  have hfilter := congrArg (List.filter fun e => decide (low < e.1) && decide (e.1 < high))
    (rangeRoot2_spec h hs low high).2.2.1
  simp only [List.filter_filter] at hfilter
  have hboth : ∀ e : K × V, (decide (low < e.1) && decide (e.1 < high) &&
      (decide (low ≤ e.1) && decide (e.1 ≤ high))) = (decide (low < e.1) && decide (e.1 < high)) := by
    intro e
    rw [Bool.eq_iff_iff]
    simp only [Bool.and_eq_true, decide_eq_true_eq]
    exact ⟨fun h => h.1, fun h => ⟨h, h.1.le, h.2.le⟩⟩
  simp only [hboth] at hfilter
  exact hfilter.symm

omit hadd in
/-- The entries from the lower end on are those inside the range and the one at the end. -/
theorem sum_from_lower {low high : K} (hs : ∀ e ∈ es, e.1 < high) :
    entriesSum ent (es.filter fun e => low ≤ e.1) =
      entriesSum ent (es.filter fun e => low < e.1 && e.1 < high) +
        entriesSum ent (es.filter fun e => e.1 = low && low < high) := by
  rw [← entriesSum_append]
  refine (((List.filter_append_perm (fun x => decide (low < x.1)) _).symm.trans ?_).map _).sum_eq
  rw [List.filter_filter, List.filter_filter]
  refine List.Perm.of_eq (congrArg₂ (· ++ ·) (List.filter_congr fun x hx => ?_)
    (List.filter_congr fun x hx => ?_))
  · have hlt := hs x hx
    rw [Bool.eq_iff_iff]
    simp only [Bool.and_eq_true, decide_eq_true_eq]
    exact ⟨fun hx => ⟨hx.1, hlt⟩, fun hx => ⟨hx.1, hx.1.le⟩⟩
  · have hlt := hs x hx
    rw [Bool.eq_iff_iff]
    simp only [Bool.and_eq_true, decide_eq_true_eq, Bool.not_eq_true', decide_eq_false_iff_not, not_lt]
    exact ⟨fun hx => ⟨le_antisymm hx.1 hx.2, hx.2.trans_lt hlt⟩, fun hx => ⟨hx.1.le, hx.1.ge⟩⟩

omit hadd in
/-- An entry in the range is inside it or at one of its ends. -/
theorem sum_cons_range (ent : Entry K V A) {e : K × V} (qs : List (K × V)) {low high : K} (hlo : low ≤ e.1)
    (hhi : e.1 ≤ high) (hs : ∀ x ∈ es, e.1 < x.1) :
    entriesSum ent ((e :: es).filter fun x => low < x.1 && x.1 < high) +
      entriesSum ent ((e :: es).filter fun x => x.1 = low && low < high) +
        entriesSum ent ((e :: qs).filter fun x => x.1 = high) =
      ent.fromEntry e + entriesSum ent (es.filter fun x => x.1 < high) +
        entriesSum ent (qs.filter fun x => x.1 = high) := by
  have hlow : (es.filter fun x => decide (x.1 = low) && decide (low < high)) = [] :=
    List.filter_eq_nil_iff.mpr fun x hx hxk => by
      simp only [Bool.and_eq_true, decide_eq_true_eq] at hxk
      exact (hlo.trans_lt (hs x hx)).ne' hxk.1
  have hin : (es.filter fun x => decide (low < x.1) && decide (x.1 < high)) =
      es.filter fun x => x.1 < high :=
    List.filter_congr fun x hx => by simp [hlo.trans_lt (hs x hx)]
  simp only [List.filter_cons, hlow, hin]
  rcases hhi.lt_or_eq with hlt | rfl
  · rcases hlo.lt_or_eq with hlt' | rfl
    · simp [hlt, hlt', hlt.ne, hlt'.ne', entriesSum, add_assoc]
    · simp [hlt, hlt.ne, entriesSum]
      abel
  · have hnot : (decide (e.1 = low) && decide (low < e.1)) = false := by
      rw [Bool.and_eq_false_iff, decide_eq_false_iff_not, decide_eq_false_iff_not]
      exact (eq_or_ne e.1 low).symm.imp id fun heq => by rw [heq]; exact lt_irrefl _
    simp [hnot, entriesSum]
    abel

/-- The parts of the sum below a node that is inside the range. -/
theorem augSumRange_node (hB : 0 < B) {lc rc : Node K V A} {e : K × V} {s : ℕ} {augVal : A}
    (h : Valid ent B root (regular lc e rc s augVal)) (hs : Sorted (regular lc e rc s augVal).entries)
    {low high : K} (hlo : low ≤ e.1) (hhi : e.1 ≤ high) (a : A) :
    augSumLeft ent high rc (addEntry ent (augSumRight ent low lc a) e) =
      a + entriesSum ent ((regular lc e rc s augVal).entries.filter fun e => low < e.1 && e.1 < high) +
        entriesSum ent (((regular lc e rc s augVal).entries.filter fun e => e.1 = low && low < high) ++
          (regularEntries (regular lc e rc s augVal)).filter fun e => e.1 = high) := by
  obtain ⟨hl, hr, -, -⟩ := h.of_regular.of_regular
  obtain ⟨hsl, hsr, hlow, hup⟩ := sorted_append_cons hs
  have hne : ∀ x ∈ regularEntries lc, x.1 ≠ high :=
    fun x hx => ((hlow x (mem_regularEntries hx)).trans_le hhi).ne
  have hlower : entriesSum ent (lc.entries.filter fun x => low ≤ x.1) = _ :=
    sum_from_lower fun x hx => (hlow x hx).trans_le hhi
  have hnode := sum_cons_range ent (regularEntries rc) hlo hhi hup
  rw [augSumLeft_eq hadd hB hr.inner hsr, augSumRight_eq hadd hB hl.inner hsl, addEntry, hadd.combine,
    Node.entries, regularEntries, List.filter_append, List.filter_append, List.filter_append,
    filter_eq_none hne, List.nil_append, hlower, entriesSum_append, entriesSum_append, entriesSum_append]
  calc _ = a + entriesSum ent (lc.entries.filter fun x => low < x.1 && x.1 < high) +
        entriesSum ent (lc.entries.filter fun x => x.1 = low && low < high) +
        (ent.fromEntry e + entriesSum ent (rc.entries.filter fun x => x.1 < high) +
          entriesSum ent ((regularEntries rc).filter fun x => x.1 = high)) := by abel
    _ = _ := by
      rw [← hnode]
      abel

/-- The sum of a range: all entries strictly inside it, and the ends that the code takes in. -/
theorem augSumRange_eq (hB : 0 < B) (h : Valid ent B root t) (hs : Sorted t.entries) (low high : K)
    (a : A) : augSumRange ent t low high a =
      a + entriesSum ent (t.entries.filter fun e => low < e.1 && e.1 < high) +
        entriesSum ent (endsSummed t low high) := by
  obtain ⟨hv, hsort, -, hin⟩ := rangeRoot2_spec h hs low high
  rw [filter_inside h hs, augSumRange, endsSummed]
  generalize rangeRoot2 t low high = r at *
  cases r with
  | null => simp [Node.entries, regularEntries, entriesSum]
  | compressed es augVal =>
    exact (foldl_addEntry hadd _ a).trans (add_zero _).symm
  | regular lc e rc s augVal =>
    obtain ⟨hlo, hhi⟩ := hin lc e rc s augVal rfl
    exact augSumRange_node hadd hB hv hsort hlo hhi a

omit hadd [AddCommMonoid A] [LinearOrder K] in
theorem additive_sumEntry : Additive sumEntry := ⟨rfl, fun _ _ => rfl⟩

omit hadd [AddCommMonoid A] [LinearOrder K] in
/-- The lower end is in the root, and the upper end is in a block. -/
theorem augSumRange_eq_five : augSumRange sumEntry fiveTens 3 5 0 =
    0 + entriesSum sumEntry [(4, 40)] + entriesSum sumEntry [(3, 30)] :=
  augSumRange_eq additive_sumEntry (by decide) paC_fiveTens.inner (by decide) 3 5 0

/-! ## Searching with augmented values -/

end Additive

end Cpam

end Silva
