import Silva.Cpam.Map
import Silva.Cpam.Proofs.LookupProofs
import Silva.Lib.OrderedMap

/-!
# Proofs: the maps of the library are ordered maps

A map is a tree with its invariant. The operations of the interface keep it, so they are total on maps,
and they are lawful operations of ordered maps.
-/

namespace Silva

namespace Cpam

open Node TwoPointer KeyedList SortedMerge

variable {K V A : Type*} [LinearOrder K] {ent : Entry K V A} {B : ℕ} {root : Bool}
  {t t1 t2 : Node K V A} {es : List (K × V)} {k : K} {o : Option (Node K V A)}
  {sampleSort : List (K × V) → List (K × V)}

/-! ## Small maps -/

theorem isPacMap_tens {ks : List ℕ} (h2 : 2 ≤ ks.length) (h4 : ks.length ≤ 4)
    (hks : ks.Pairwise (· < ·)) : IsPacMap sumEntry 2 (tens ks) :=
  ⟨(paC_tens h2 h4).valid, List.pairwise_map.mpr hks⟩

theorem isPacMap_fiveTens : IsPacMap sumEntry 2 fiveTens := ⟨paC_fiveTens.valid, by decide⟩

/-- A stable sort. -/
def sortByKey (es : List (K × V)) : List (K × V) := es.mergeSort fun a b => a.1 ≤ b.1

theorem sortsByKey_sortByKey : SortsByKey (sortByKey : List (K × V) → List (K × V)) where
  perm es := es.mergeSort_perm _
  sorted es := by
    refine (List.pairwise_mergeSort (fun a b c hab hbc => ?_) (fun a b => ?_) es).imp fun hab =>
      not_lt.mpr (of_decide_eq_true hab)
    · exact decide_eq_true ((of_decide_eq_true hab).trans (of_decide_eq_true hbc))
    · simpa using le_total a.1 b.1

/-! ## Batches -/

/-- What `pack` keeps of a sorted list. -/
theorem packFrom_spec {prev : K × V} {bs : List (K × V)} (hprev : ∀ b ∈ bs, prev.1 ≤ b.1)
    (hs : bs.Pairwise (·.1 ≤ ·.1)) :
    Sorted (prev :: packFrom prev bs) ∧ (∀ b ∈ packFrom prev bs, b ∈ bs) ∧
      ∀ b ∈ bs, b.1 ∈ (prev :: packFrom prev bs).map Prod.fst := by
  induction bs generalizing prev with
  | nil => exact ⟨List.pairwise_singleton _ _, by simp [packFrom], by simp⟩
  | cons b bs ih =>
    obtain ⟨hb, hs'⟩ := List.pairwise_cons.mp hs
    obtain ⟨hsort, hmem, hkey⟩ := ih hb hs'
    rw [packFrom]
    by_cases hlt : prev.1 < b.1
    · rw [if_pos hlt]
      refine ⟨List.pairwise_cons.mpr ⟨fun x hx => ?_, hsort⟩, fun x hx => ?_, fun x hx => ?_⟩
      · rcases List.mem_cons.mp hx with rfl | hx
        · exact hlt
        · exact hlt.trans ((List.pairwise_cons.mp hsort).1 x hx)
      · rcases List.mem_cons.mp hx with rfl | hx
        · exact List.mem_cons_self
        · exact List.mem_cons_of_mem _ (hmem x hx)
      · refine List.mem_cons_of_mem _ ?_
        rcases List.mem_cons.mp hx with rfl | hx
        · exact List.mem_cons_self
        · exact hkey x hx
    · have heq : prev.1 = b.1 := le_antisymm (hprev b List.mem_cons_self) (not_lt.mp hlt)
      rw [if_neg hlt]
      refine ⟨?_, fun x hx => List.mem_cons_of_mem _ (hmem x hx), fun x hx => ?_⟩
      · exact List.pairwise_cons.mpr ⟨fun x hx => heq ▸ (List.pairwise_cons.mp hsort).1 x hx,
          (List.pairwise_cons.mp hsort).2⟩
      · have hx' : x.1 ∈ (b :: packFrom b bs).map Prod.fst := by
          rcases List.mem_cons.mp hx with rfl | hx
          · exact List.mem_cons_self
          · exact hkey x hx
        rwa [List.map_cons, heq, ← List.map_cons]

/-- A batch without its repetitions: in key order, with the same keys and entries of the batch only. -/
theorem sortRemoveDuplicates_spec (h : SortsByKey sampleSort) (es : List (K × V)) :
    Sorted (sortRemoveDuplicates sampleSort es) ∧
      (∀ e ∈ sortRemoveDuplicates sampleSort es, e ∈ es) ∧
      ∀ e ∈ es, e.1 ∈ (sortRemoveDuplicates sampleSort es).map Prod.fst := by
  have hperm := h.perm es
  have hsorted := (h.sorted es).imp fun hlt => not_lt.mp hlt
  unfold sortRemoveDuplicates
  cases hb : sampleSort es with
  | nil =>
    rw [hb] at hperm
    rw [hperm.symm.eq_nil]
    exact ⟨.nil, by simp, by simp⟩
  | cons b bs =>
    rw [hb] at hperm hsorted
    obtain ⟨hle, hs⟩ := List.pairwise_cons.mp hsorted
    obtain ⟨hsort, hmem, hkey⟩ := packFrom_spec hle hs
    refine ⟨hsort, fun e he => ?_, fun e he => ?_⟩
    · refine hperm.mem_iff.mp ?_
      rcases List.mem_cons.mp he with rfl | he
      · exact List.mem_cons_self
      · exact List.mem_cons_of_mem _ (hmem e he)
    · rcases List.mem_cons.mp (hperm.mem_iff.mpr he) with rfl | he
      · exact List.mem_cons_self
      · exact hkey e he

/-! ## Values -/

/-- The result is a map with the entries `es`. -/
def YieldsPacMap (ent : Entry K V A) (B : ℕ) (o : Option (Node K V A)) (es : List (K × V)) : Prop :=
  ∃ t, o = some t ∧ IsPacMap ent B t ∧ t.entries = es

theorem YieldsMap.pacMap (h : YieldsMap ent B true o es) (hs : Sorted es) :
    YieldsPacMap ent B o es := by
  obtain ⟨t, rfl, ht, hes⟩ := h
  exact ⟨t, rfl, ⟨ht, hes ▸ hs⟩, hes⟩

theorem Yields.pacMap (h : Yields ent B o es) (hs : Sorted es) : YieldsPacMap ent B o es :=
  h.map.pacMap hs

/-- `finalize` keeps the entries and makes one block of a small tree. -/
theorem Yields.finalize (h : Yields ent B o es) (hs : Sorted es) :
    YieldsPacMap ent B (o.map (finalize ent B)) es := by
  obtain ⟨t, rfl, ht, rfl⟩ := h
  unfold Cpam.finalize
  by_cases hsmall : t.size < B ∧ 0 < t.size
  · refine ⟨_, congrArg some (if_pos hsmall), ⟨Or.inr ⟨rfl, t.entries, ?_, ?_, rfl⟩, hs⟩, rfl⟩
    · rw [ht.size] at hsmall
      exact List.ne_nil_of_length_pos hsmall.2
    · rw [← ht.size]
      exact hsmall.1
  · exact ⟨_, congrArg some (if_neg hsmall), ⟨ht.valid, hs⟩, rfl⟩

/-! ## Insertion of one entry -/

section Insert

variable {e : K × V} (f : V → V → V) (hnew : ∀ x ∈ t.entries, x.1 ≠ e.1)

include hnew

/-- In a block that goes on above a new key, the first entry above it is lost. -/
theorem insertResult_new : insertResult t e f = (t.entries.filter fun x => x.1 < e.1) ++
    e :: if (landing t e.1).any (e.1 < ·.1) then (t.entries.filter fun x => e.1 < x.1).tail
      else t.entries.filter fun x => e.1 < x.1 := by
  unfold insertResult
  rw [lookup_eq_none hnew]

theorem length_insertResult_new : (insertResult t e f).length =
    if (landing t e.1).any (e.1 < ·.1) then t.entries.length else t.entries.length + 1 := by
  have hsplit : t.entries.length = (t.entries.filter fun x => x.1 < e.1).length +
      (t.entries.filter fun x => e.1 < x.1).length := by
    rw [List.length_eq_length_filter_add fun x => decide (x.1 < e.1)]
    congr 2
    refine List.filter_congr fun x hx => ?_
    rw [← decide_not, decide_eq_decide, not_lt, (hnew x hx).symm.le_iff_lt]
  rw [insertResult_new f hnew, List.length_append, List.length_cons]
  by_cases hlost : (landing t e.1).any (e.1 < ·.1) = true
  · obtain ⟨x, hx, hxe⟩ := List.any_eq_true.mp hlost
    have hpos : 0 < (t.entries.filter fun x => e.1 < x.1).length :=
      List.length_pos_of_mem (List.mem_filter.mpr ⟨mem_of_mem_landing hx, hxe⟩)
    rw [if_pos hlost, if_pos hlost, List.length_tail]
    omega
  · rw [if_neg hlost, if_neg hlost]
    omega

theorem sorted_insertResult_new (hs : Sorted t.entries) : Sorted (insertResult t e f) := by
  rw [insertResult_new f hnew]
  have hrest : List.Sublist (if (landing t e.1).any (e.1 < ·.1) then
      (t.entries.filter fun x => e.1 < x.1).tail else t.entries.filter fun x => e.1 < x.1)
      (t.entries.filter fun x => e.1 < x.1) := by
    split
    · exact List.tail_sublist _
    · exact List.Sublist.refl _
  have hup : ∀ x ∈ t.entries.filter fun x => e.1 < x.1, e.1 < x.1 :=
    fun x hx => of_decide_eq_true (List.mem_filter.mp hx).2
  refine List.pairwise_append.mpr ⟨hs.filter _, List.pairwise_cons.mpr
    ⟨fun x hx => hup x (hrest.subset hx), (hs.filter _).sublist hrest⟩, fun x hx y hy => ?_⟩
  have hlow : x.1 < e.1 := of_decide_eq_true (List.mem_filter.mp hx).2
  rcases List.mem_cons.mp hy with rfl | hy
  · exact hlow
  · exact hlow.trans (hup y (hrest.subset hy))

/-- A root block is large enough for the assertion of `make_compressed`. -/
theorem le_insertResult_new_iff (ht : t.isCompressed = true) : B ≤ (insertResult t e f).length ↔
    ¬(t.size + 1 < B ∨ (t.size < B ∧ ∃ x ∈ t.entries, e.1 < x.1)) := by
  rw [length_insertResult_new f hnew]
  cases t with
  | null => cases ht
  | regular lc be rc s augVal => cases ht
  | compressed es augVal =>
    rw [landing, Node.size, Node.entries]
    by_cases hlost : ∃ x ∈ es, e.1 < x.1
    · rw [if_pos (by simpa using hlost)]
      simp only [hlost, and_true]
      omega
    · rw [if_neg (by simpa using hlost)]
      simp only [hlost, and_false, or_false]
      omega

/-- Nothing is lost if and only if the block that the key reaches has no entry above it. -/
theorem insertResult_new_iff : insertResult t e f = (t.entries.filter fun x => x.1 < e.1) ++
    e :: t.entries.filter (fun x => e.1 < x.1) ↔ ∀ x ∈ landing t e.1, x.1 < e.1 := by
  rw [insertResult_new f hnew]
  by_cases hlost : (landing t e.1).any (e.1 < ·.1) = true
  · obtain ⟨x, hx, hxe⟩ := List.any_eq_true.mp hlost
    rw [decide_eq_true_iff] at hxe
    refine iff_of_false (fun heq => ?_) fun hall => (hall x hx).not_gt hxe
    rw [if_pos hlost, List.append_cancel_left_eq, List.cons_inj_right] at heq
    have hmem : x ∈ t.entries.filter fun x => e.1 < x.1 :=
      List.mem_filter.mpr ⟨mem_of_mem_landing hx, decide_eq_true hxe⟩
    have hlen := congrArg List.length heq
    rw [List.length_tail] at hlen
    have := List.length_pos_of_mem hmem
    omega
  · refine iff_of_true (by rw [if_neg hlost]) fun x hx => ?_
    refine lt_of_le_of_ne (not_lt.mp fun hxe => hlost ?_) (hnew x (mem_of_mem_landing hx))
    exact List.any_eq_true.mpr ⟨x, hx, decide_eq_true hxe⟩

/-- An insertion of a new key fails exactly at a root block that is too small. Otherwise it gives a map
again, and it loses no entry if and only if the block that it reaches has no entry above the key: the
first one above it is overwritten. -/
theorem mapInsert_new (hB : 1 < B) (h : IsPacMap ent B t) :
    (mapInsert ent B t e f = none ↔ t.isCompressed = true ∧
      (t.size + 1 < B ∨ (t.size < B ∧ ∃ x ∈ t.entries, e.1 < x.1))) ∧
    ∀ m, mapInsert ent B t e f = some m → IsPacMap ent B m ∧
      (m.entries = (t.entries.filter fun x => x.1 < e.1) ++ e :: t.entries.filter (fun x => e.1 < x.1) ↔
        ∀ x ∈ landing t e.1, x.1 < e.1) ∧
      ∀ x ∈ landing t e.1, e.1 < x.1 → m.entries = (t.entries.filter fun x => x.1 < e.1) ++
        e :: (t.entries.filter fun x => e.1 < x.1).tail := by
  by_cases hfail : t.isCompressed = true ∧
      (t.size + 1 < B ∨ (t.size < B ∧ ∃ x ∈ t.entries, e.1 < x.1))
  · have hnone : mapInsert ent B t e f = none := by
      have hsmall := mt (le_insertResult_new_iff f hnew hfail.1).mp (not_not.mpr hfail.2)
      cases t with
      | null => cases hfail.1
      | regular lc be rc s augVal => cases hfail.1
      | compressed es augVal =>
        have hes : Sorted es := h.sorted
        rw [← insertBuffer_eq hes e f augVal] at hsmall
        rw [mapInsert, insert, insertCompressed2, if_neg hsmall, Option.map_none]
    exact ⟨iff_of_true hnone hfail, fun m hm => by rw [hnone] at hm; cases hm⟩
  · have hlarge : t.isCompressed = true → B ≤ (insertResult t e f).length := fun hc =>
      (le_insertResult_new_iff f hnew hc).mpr fun hsmall => hfail ⟨hc, hsmall⟩
    obtain ⟨m, hm, hpm, hes⟩ := (insert_yields hB h.valid h.sorted e f hlarge).finalize
      (sorted_insertResult_new f hnew h.sorted)
    refine ⟨iff_of_false (fun hnone => ?_) hfail, fun m' hm' => ?_⟩
    · rw [mapInsert, hm] at hnone
      cases hnone
    · obtain rfl : m = m' := Option.some.inj (hm.symm.trans hm')
      refine ⟨hpm, hes ▸ insertResult_new_iff f hnew, fun x hx hxe => ?_⟩
      rw [hes, insertResult_new f hnew,
        if_pos (List.any_eq_true.mpr ⟨x, hx, decide_eq_true hxe⟩)]

end Insert

/-- A key between the entries of a block: the entry `4` is overwritten. -/
theorem mapInsert_new_between :
    let t := tens [1, 2, 4, 5]
    let lower := t.entries.filter fun x => x.1 < 3
    let upper := t.entries.filter fun x => 3 < x.1
    (mapInsert sumEntry 2 t (3, 30) (fun _ b => b) = none ↔ t.isCompressed = true ∧
      (t.size + 1 < 2 ∨ (t.size < 2 ∧ ∃ x ∈ t.entries, 3 < x.1))) ∧
    ∀ m, mapInsert sumEntry 2 t (3, 30) (fun _ b => b) = some m → IsPacMap sumEntry 2 m ∧
      (m.entries = lower ++ (3, 30) :: upper ↔ ∀ x ∈ landing t 3, x.1 < 3) ∧
      ∀ x ∈ landing t 3, 3 < x.1 → m.entries = lower ++ (3, 30) :: upper.tail :=
  mapInsert_new (fun _ b => b) (by decide) (by decide) (isPacMap_tens (by decide) (by decide) (by decide))

theorem value_eq (h : t.entries = es) (k : K) :
    t.value k = (lookup Prod.fst es k).map Prod.snd := by
  rw [Node.value, h]

theorem lookup_map_isSome : (t.value k).isSome = true ↔ k ∈ t.entries.map Prod.fst := by
  rw [Node.value, Option.isSome_map, lookup_isSome]

/-- A filtered map. -/
theorem value_filter {t' : Node K V A} (hs : Sorted t.entries) {p : K × V → Bool}
    (h : t'.entries = t.entries.filter p) (k : K) :
    t'.value k = (t.value k).filter fun v => p (k, v) := by
  rw [value_eq h, lookup_filter hs, Node.value]
  cases hx : lookup Prod.fst t.entries k with
  | none => rfl
  | some x =>
    have hkey : x = (k, x.2) := Prod.ext (key_of_lookup hx) rfl
    rw [Option.map_some, hkey]
    by_cases hp : p (k, x.2) = true <;> simp [Option.filter, hp]

/-! ## Loops over two maps -/

section Loops

variable {out : Event (K × V) → List (K × V)} {es' : List (K × V)}

theorem sorted_events (hs : Sorted es) (hs' : Sorted es')
    (hkey : ∀ ev, ∀ x ∈ out ev, x.1 = ev.key Prod.fst) (hout : ∀ ev, (out ev).length ≤ 1) :
    Sorted ((events keyCmp es es').flatMap out) :=
  pairwise_flatMap (fun ev _ => hkey ev) hout (events_key_lt keyCmp_eq hs hs')

/-- The value that a loop over the entries of two maps puts out under a key. -/
theorem value_events (hs : Sorted es) (hs' : Sorted es')
    (hkey : ∀ ev, ∀ x ∈ out ev, x.1 = ev.key Prod.fst)
    (h : t.entries = (events keyCmp es es').flatMap out) (k : K) : t.value k =
      ((eventAt (lookup Prod.fst es k) (lookup Prod.fst es' k)).flatMap out).head?.map Prod.snd := by
  rw [value_eq h, lookup_flatMap keyCmp_eq hs hs' fun ev _ => hkey ev]

end Loops

section Outputs

variable (op : V → V → V)

omit [LinearOrder K] in
theorem key_unionOut (ordered : Bool) (ev : Event (K × V)) :
    ∀ x ∈ unionOut op ordered ev, x.1 = ev.key Prod.fst := by
  cases ev <;> simp [unionOut, Event.key]

omit [LinearOrder K] in
theorem key_intersectOut (ordered : Bool) (ev : Event (K × V)) :
    ∀ x ∈ intersectOut op ordered ev, x.1 = ev.key Prod.fst := by
  cases ev <;> simp [intersectOut, Event.key]

omit [LinearOrder K] in
theorem key_differenceOut (ev : Event (K × V)) : ∀ x ∈ differenceOut ev, x.1 = ev.key Prod.fst := by
  cases ev <;> simp [differenceOut, Event.key]

end Outputs

/-! ## Operations -/

/-- A batch without its repetitions puts one of its values under each of its keys. -/
theorem value_multiInsert (hsort : SortsByKey sampleSort) (hs : Sorted t.entries) {m : Node K V A}
    {SS : List (K × V)} (hm : m.entries =
      (events keyCmp t.entries (sortRemoveDuplicates sampleSort SS)).flatMap
        (unionOut (fun _ b => b) true)) (k : K) :
    (∃ v, (k, v) ∈ SS ∧ m.value k = some v) ∨ (k ∉ SS.map Prod.fst ∧ m.value k = t.value k) := by
  obtain ⟨hes, hmem, hkeys⟩ := sortRemoveDuplicates_spec hsort SS
  rw [value_events hs hes (key_unionOut _ true) hm k]
  cases hb : lookup Prod.fst (sortRemoveDuplicates sampleSort SS) k with
  | some b =>
    have hkey : b = (k, b.2) := Prod.ext (key_of_lookup hb) rfl
    refine Or.inl ⟨b.2, hkey ▸ hmem b (mem_of_lookup hb), ?_⟩
    cases lookup Prod.fst t.entries k <;> rfl
  | none =>
    refine Or.inr ⟨fun hk => ?_, ?_⟩
    · obtain ⟨e, he, rfl⟩ := List.mem_map.mp hk
      have := lookup_isSome.mpr (hkeys e he)
      rw [hb] at this
      cases this
    · rw [Node.value]
      cases lookup Prod.fst t.entries k <;> rfl

theorem multiInsert_spec (hB : 1 < B) (hsort : SortsByKey sampleSort) (h : IsPacMap ent B t)
    (SS : List (K × V)) : ∃ m, multiInsert ent B sampleSort t SS = some m ∧ IsPacMap ent B m ∧
      ∀ k, (∃ v, (k, v) ∈ SS ∧ m.value k = some v) ∨ (k ∉ SS.map Prod.fst ∧ m.value k = t.value k) := by
  have hes := (sortRemoveDuplicates_spec hsort SS).1
  obtain ⟨m, hm, hpm, hme⟩ := (multiInsertSorted_yields (fun _ b => b) hB h.valid h.sorted hes).pacMap
    (sorted_events h.sorted hes (key_unionOut _ true) (length_unionOut _ true))
  exact ⟨m, hm, hpm, value_multiInsert hsort h.sorted hme⟩

theorem mapOf_spec (hB : 1 < B) (hsort : SortsByKey sampleSort) (S : List (K × V)) :
    ∃ m, mapOf ent B sampleSort S = some m ∧ IsPacMap ent B m ∧
      ∀ k, (∃ v, (k, v) ∈ S ∧ m.value k = some v) ∨ (k ∉ S.map Prod.fst ∧ m.value k = none) := by
  have hes := (sortRemoveDuplicates_spec hsort S).1
  have hnull : PaC ent B null := .null
  have hy := (multiInsertSorted_yields (fun _ b => b) hB hnull.inner .nil hes).yields
  obtain ⟨m, hm, hpm, hme⟩ := hy.finalize
    (sorted_events .nil hes (key_unionOut _ true) (length_unionOut _ true))
  exact ⟨m, hm, hpm, value_multiInsert (t := (null : Node K V A)) hsort .nil hme⟩

theorem multiDelete_spec (hB : 1 < B) (hsort : SortsByKey sampleSort) (h : IsPacMap ent B t)
    (SS : List (K × V)) : ∃ m, multiDelete ent B sampleSort t SS = some m ∧ IsPacMap ent B m ∧
      m.entries = (t.entries.filter fun e => e.1 ∉ SS.map Prod.fst) := by
  obtain ⟨hes, hmem, hkeys⟩ := sortRemoveDuplicates_spec hsort SS
  have hy := multiDeleteSorted_yields hB h.valid h.sorted (List.pairwise_map.mpr hes)
  obtain ⟨m, hm, hpm, hme⟩ := hy.pacMap (h.sorted.filter _)
  refine ⟨m, hm, hpm, hme.trans (List.filter_congr fun e _ => decide_eq_decide.mpr (not_congr ?_))⟩
  constructor
  · intro he
    obtain ⟨x, hx, hxe⟩ := List.mem_map.mp he
    exact List.mem_map.mpr ⟨x, hmem x hx, hxe⟩
  · intro he
    obtain ⟨x, hx, hxe⟩ := List.mem_map.mp he
    exact hxe ▸ hkeys x hx

/-- A map that a loop over two maps puts out, where the output under a key depends on a choice. -/
theorem pacMap_chosen {out : Bool → Event (K × V) → List (K × V)} {c : K → Bool}
    (h1 : IsPacMap ent B t1) (h2 : IsPacMap ent B t2)
    (hkey : ∀ b ev, ∀ x ∈ out b ev, x.1 = ev.key Prod.fst) (hout : ∀ b ev, (out b ev).length ≤ 1)
    (hy : YieldsMap ent B true o ((events keyCmp t1.entries t2.entries).flatMap (chosen out c))) :
    ∃ m, o = some m ∧ IsPacMap ent B m ∧ ∀ k, ∃ b, m.value k =
      ((eventAt (lookup Prod.fst t1.entries k) (lookup Prod.fst t2.entries k)).flatMap
        (out b)).head?.map Prod.snd := by
  have hkeyc : ∀ ev, ∀ x ∈ chosen out c ev, x.1 = ev.key Prod.fst := fun ev => hkey _ ev
  obtain ⟨m, hm, hpm, hme⟩ :=
    hy.pacMap (sorted_events h1.sorted h2.sorted hkeyc fun ev => hout _ ev)
  refine ⟨m, hm, hpm, fun k => ⟨c k, ?_⟩⟩
  rw [value_events h1.sorted h2.sorted hkeyc hme k]
  have hch : (eventAt (lookup Prod.fst t1.entries k) (lookup Prod.fst t2.entries k)).flatMap
      (chosen out c) = (eventAt (lookup Prod.fst t1.entries k)
        (lookup Prod.fst t2.entries k)).flatMap (out (c k)) := by
    refine List.flatMap_congr fun ev hev => ?_
    have hk : ev.key Prod.fst = k := by
      cases ha : lookup Prod.fst t1.entries k <;> cases hb : lookup Prod.fst t2.entries k <;>
        rw [ha, hb] at hev
      · cases hev
      · rw [List.mem_singleton.mp hev]
        exact (key_of_lookup hb :)
      · rw [List.mem_singleton.mp hev]
        exact (key_of_lookup ha :)
      · rw [List.mem_singleton.mp hev]
        exact (key_of_lookup ha :)
    rw [chosen, hk]
  rw [hch]

theorem mapUnion_spec (hB : 1 < B) (h1 : IsPacMap ent B t1) (h2 : IsPacMap ent B t2) :
    ∃ m, mapUnion ent B t1 t2 = some m ∧ IsPacMap ent B m ∧ ∀ k,
      m.value k = (t1.value k).or (t2.value k) ∨ m.value k = (t2.value k).or (t1.value k) := by
  obtain ⟨c, hy⟩ := uniont_yields (fun _ b => b) hB h1.valid h2.valid h1.sorted h2.sorted
  obtain ⟨m, hm, hpm, hval⟩ := pacMap_chosen h1 h2 (key_unionOut _) (length_unionOut _) hy
  refine ⟨m, hm, hpm, fun k => ?_⟩
  obtain ⟨b, hb⟩ := hval k
  rw [hb, Node.value, Node.value]
  cases lookup Prod.fst t1.entries k with
  | none => cases lookup Prod.fst t2.entries k <;> exact Or.inl rfl
  | some x =>
    cases lookup Prod.fst t2.entries k with
    | none => exact Or.inl rfl
    | some y =>
      cases b with
      | false => exact Or.inl rfl
      | true => exact Or.inr rfl

theorem mapIntersect_spec (hB : 1 < B) (h1 : IsPacMap ent B t1) (h2 : IsPacMap ent B t2) :
    ∃ m, mapIntersect ent B t1 t2 = some m ∧ IsPacMap ent B m ∧ ∀ k,
      m.value k = (t1.value k).bind (fun v => (t2.value k).map fun _ => v) ∨
        m.value k = (t2.value k).bind (fun v => (t1.value k).map fun _ => v) := by
  obtain ⟨c, hy⟩ := intersect_yields (fun _ b => b) hB h1.valid h2.valid h1.sorted h2.sorted
  obtain ⟨m, hm, hpm, hval⟩ :=
    pacMap_chosen h1 h2 (key_intersectOut _) (length_intersectOut _) hy.map
  refine ⟨m, hm, hpm, fun k => ?_⟩
  obtain ⟨b, hb⟩ := hval k
  rw [hb, Node.value, Node.value]
  cases lookup Prod.fst t1.entries k with
  | none => cases lookup Prod.fst t2.entries k <;> exact Or.inl rfl
  | some x =>
    cases lookup Prod.fst t2.entries k with
    | none => exact Or.inl rfl
    | some y =>
      cases b with
      | false => exact Or.inl rfl
      | true => exact Or.inr rfl

omit [LinearOrder K] in
theorem flatMap_differenceOut (evs : List (Event (K × V))) : evs.flatMap differenceOut = lefts evs := by
  induction evs with
  | nil => rfl
  | cons ev evs ih => cases ev <;> simp [differenceOut, ih]

theorem mapDifference_spec (hB : 1 < B) (h1 : IsPacMap ent B t1) (h2 : IsPacMap ent B t2) :
    ∃ m, mapDifference ent B t1 t2 = some m ∧ IsPacMap ent B m ∧
      m.entries = t1.entries.filter (fun e => e.1 ∉ t2.entries.map Prod.fst) := by
  obtain ⟨m, hm, hpm, hme⟩ := (difference_yields hB h1.valid h2.valid h1.sorted h2.sorted).pacMap
    (sorted_events h1.sorted h2.sorted key_differenceOut length_differenceOut)
  refine ⟨m, hm, hpm, ?_⟩
  rw [hme, flatMap_differenceOut, lefts_events keyCmp_eq h1.sorted (h2.sorted.imp le_of_lt)]

theorem mapFilter_spec (hB : 1 < B) (h : IsPacMap ent B t) (f : K × V → Bool) :
    YieldsPacMap ent B (mapFilter ent B t f) (t.entries.filter f) :=
  (filter_yields hB f h.valid).finalize (h.sorted.filter f)

theorem mapRange_spec (hB : 1 < B) (h : IsPacMap ent B t) (kl kr : K) :
    YieldsPacMap ent B (mapRange ent B t kl kr) (t.entries.filter fun e => kl ≤ e.1 && e.1 ≤ kr) :=
  (range2_yields hB h.valid h.sorted kl kr).pacMap (h.sorted.filter _)

theorem remove_spec (hB : 1 < B) (h : IsPacMap ent B t) (k : K) :
    YieldsPacMap ent B (remove ent B t k) (t.entries.filter fun e => e.1 ≠ k) :=
  (deletet_yields hB h.valid h.sorted k).pacMap (h.sorted.filter _)

/-! ## Equality -/

/-- The keys of a tree. -/
def keys (t : Node K V A) : Finset K := (t.entries.map Prod.fst).toFinset

theorem mem_keys : k ∈ keys t ↔ (t.value k).isSome = true := by
  rw [keys, List.mem_toFinset, lookup_map_isSome]

theorem IsPacMap.card_keys (h : IsPacMap ent B t) : (keys t).card = t.size := by
  have hnd : (t.entries.map Prod.fst).Nodup :=
    List.pairwise_map.mpr (h.sorted.imp fun hlt => hlt.ne)
  rw [keys, List.toFinset_card_of_nodup hnd, List.length_map, h.valid.size]

/-- The keys of a map are the sorted list of the set of its keys. -/
theorem IsPacMap.sort_keys (h : IsPacMap ent B t) : (keys t).sort = t.entries.map Prod.fst :=
  (List.toFinset_sort (· ≤ ·) (List.pairwise_map.mpr (h.sorted.imp fun hlt => hlt.ne))).mpr
    (List.pairwise_map.mpr (h.sorted.imp le_of_lt))

theorem keys_union {u : Node K V A}
    (h : ∀ k, u.value k = (t1.value k).or (t2.value k) ∨ u.value k = (t2.value k).or (t1.value k)) :
    keys u = keys t1 ∪ keys t2 := by
  ext k
  rw [Finset.mem_union, mem_keys, mem_keys, mem_keys]
  rcases h k with h | h <;> rw [h] <;> cases t1.value k <;> cases t2.value k <;> simp

/-- The sizes that the maps store obey inclusion and exclusion. -/
theorem map_sizes (hB : 1 < B) (h1 : IsPacMap ent B t1) (h2 : IsPacMap ent B t2) :
    ∃ u i d, mapUnion ent B t1 t2 = some u ∧ mapIntersect ent B t1 t2 = some i ∧
      mapDifference ent B t1 t2 = some d ∧ u.size + i.size = t1.size + t2.size ∧
      d.size + i.size = t1.size := by
  obtain ⟨u, hu, hpu, hvu⟩ := mapUnion_spec hB h1 h2
  obtain ⟨i, hi, hpi, hvi⟩ := mapIntersect_spec hB h1 h2
  obtain ⟨d, hd, hpd, hed⟩ := mapDifference_spec hB h1 h2
  have hku : keys u = keys t1 ∪ keys t2 := keys_union hvu
  have hki : keys i = keys t1 ∩ keys t2 := by
    ext k
    rw [Finset.mem_inter, mem_keys, mem_keys, mem_keys]
    rcases hvi k with h | h <;> rw [h] <;> cases t1.value k <;> cases t2.value k <;> simp
  have hkd : keys d = keys t1 \ keys t2 := by
    ext k
    rw [Finset.mem_sdiff, keys, keys, keys, List.mem_toFinset, List.mem_toFinset, List.mem_toFinset, hed]
    simp only [List.mem_map, List.mem_filter, decide_eq_true_iff]
    constructor
    · rintro ⟨e, ⟨he, hno⟩, rfl⟩
      exact ⟨⟨e, he, rfl⟩, hno⟩
    · rintro ⟨⟨e, he, rfl⟩, hno⟩
      exact ⟨e, ⟨he, hno⟩, rfl⟩
  refine ⟨u, i, d, hu, hi, hd, ?_, ?_⟩
  · rw [← hpu.card_keys, ← hpi.card_keys, ← h1.card_keys, ← h2.card_keys, hku, hki]
    exact Finset.card_union_add_card_inter ..
  · rw [← hpd.card_keys, ← hpi.card_keys, ← h1.card_keys, hkd, hki]
    exact Finset.card_sdiff_add_card_inter ..

theorem map_sizes_two_maps :
    ∃ u i d, mapUnion sumEntry 2 fiveTens (tens [5, 6]) = some u ∧
      mapIntersect sumEntry 2 fiveTens (tens [5, 6]) = some i ∧
      mapDifference sumEntry 2 fiveTens (tens [5, 6]) = some d ∧ u.size + i.size = 7 ∧
      d.size + i.size = 5 :=
  map_sizes (by decide) isPacMap_fiveTens (isPacMap_tens (by decide) (by decide) (by decide))

/-- `operator==` compares the keys only, by their number in the two maps and in their union. -/
theorem mapEq_iff (hB : 1 < B) (h1 : IsPacMap ent B t1) (h2 : IsPacMap ent B t2) :
    ∃ b, mapEq ent B t1 t2 = some b ∧
      (b = true ↔ t1.entries.map Prod.fst = t2.entries.map Prod.fst) := by
  obtain ⟨u, hu, hpu, hval⟩ := mapUnion_spec hB h1 h2
  have hkeys : keys u = keys t1 ∪ keys t2 := keys_union hval
  have hlists : keys t1 = keys t2 ↔ t1.entries.map Prod.fst = t2.entries.map Prod.fst := by
    rw [← h1.sort_keys, ← h2.sort_keys]
    constructor
    · intro h
      rw [h]
    · intro h
      rw [← Finset.sort_toFinset (keys t1) (· ≤ ·), h, Finset.sort_toFinset]
  rw [mapEq, ← h1.card_keys, ← h2.card_keys, hu, Option.map_some, ← hpu.card_keys, hkeys]
  by_cases hcard : (keys t1).card = (keys t2).card
  · refine ⟨_, if_pos hcard, ?_⟩
    rw [decide_eq_true_iff, ← hlists]
    constructor
    · intro heq
      have hleft := Finset.eq_of_subset_of_card_le Finset.subset_union_left heq.ge
      have hright := Finset.eq_of_subset_of_card_le Finset.subset_union_right (hcard ▸ heq.ge)
      exact hleft.trans hright.symm
    · intro heq
      rw [heq, Finset.union_idempotent]
  · refine ⟨_, if_neg hcard, iff_of_false Bool.false_ne_true fun h => hcard ?_⟩
    rw [hlists.mpr h]

/-- Two maps with the same keys and different values. -/
theorem mapEq_iff_other_values :
    ∃ b, mapEq sumEntry 2 (tens [1, 2]) (makeSingleCompressedNode sumEntry [(1, 0), (2, 0)]) = some b ∧
      (b = true ↔ [1, 2] = [1, 2]) :=
  mapEq_iff (by decide) (isPacMap_tens (by decide) (by decide) (by decide))
    ⟨.inl (.compressed (by decide) (by decide)), by decide⟩

/-! ## Maps as a type -/

theorem mem_entries_iff (hs : Sorted t.entries) {e : K × V} :
    e ∈ t.entries ↔ t.value e.1 = some e.2 := by
  have hd : Denotes Prod.fst t.entries _ :=
    denotes_lookup (List.pairwise_map.mpr (hs.imp fun hlt => hlt.ne))
  rw [hd.mem_iff, Node.value]
  constructor
  · intro h
    rw [h]
    rfl
  · intro h
    obtain ⟨x, hx, hx2⟩ := Option.map_eq_some_iff.mp h
    rw [hx]
    exact congrArg some (Prod.ext (key_of_lookup hx) hx2)

/-- A tree with the invariant of a map. -/
def PacMap (ent : Entry K V A) (B : ℕ) : Type _ := { t : Node K V A // IsPacMap ent B t }

/-- The map that an operation returns. -/
def PacMap.of (o : Option (Node K V A)) (h : ∃ t, o = some t ∧ IsPacMap ent B t) : PacMap ent B :=
  ⟨o.get (by obtain ⟨t, rfl, -⟩ := h; rfl), by obtain ⟨t, rfl, ht⟩ := h; exact ht⟩

theorem PacMap.eq_of (h : ∃ t, o = some t ∧ IsPacMap ent B t) : o = some (PacMap.of o h).1 :=
  (Option.some_get _).symm

section Ops

variable (hB : 1 < B) (hsort : SortsByKey sampleSort)

include hB hsort in
theorem multiInsert_total (m : PacMap ent B) (es : List (K × V)) :
    ∃ t, multiInsert ent B sampleSort m.1 es = some t ∧ IsPacMap ent B t := by
  obtain ⟨t, ht, hp, -⟩ := multiInsert_spec hB hsort m.2 es
  exact ⟨t, ht, hp⟩

include hB hsort in
theorem multiDelete_total (m : PacMap ent B) (es : List (K × V)) :
    ∃ t, multiDelete ent B sampleSort m.1 es = some t ∧ IsPacMap ent B t := by
  obtain ⟨t, ht, hp, -⟩ := multiDelete_spec hB hsort m.2 es
  exact ⟨t, ht, hp⟩

include hB in
theorem mapDifference_total (m m' : PacMap ent B) :
    ∃ t, mapDifference ent B m.1 m'.1 = some t ∧ IsPacMap ent B t := by
  obtain ⟨t, ht, hp, -⟩ := mapDifference_spec hB m.2 m'.2
  exact ⟨t, ht, hp⟩

/-- The interface, which is total on maps. -/
def pacMaps : OrderedMap K V (PacMap ent B) where
  entries m := m.1.entries
  multiInsert m es := .of _ (multiInsert_total hB hsort m es)
  multiDelete m es := .of _ (multiDelete_total hB hsort m es)
  mapDifference m m' := .of _ (mapDifference_total hB m m')

theorem pacMaps_multiInsert (m : PacMap ent B) (es : List (K × V)) :
    multiInsert ent B sampleSort m.1 es = some ((pacMaps hB hsort).multiInsert m es).1 :=
  PacMap.eq_of (multiInsert_total hB hsort m es)

theorem pacMaps_multiDelete (m : PacMap ent B) (es : List (K × V)) :
    multiDelete ent B sampleSort m.1 es = some ((pacMaps hB hsort).multiDelete m es).1 :=
  PacMap.eq_of (multiDelete_total hB hsort m es)

theorem pacMaps_mapDifference (m m' : PacMap ent B) :
    mapDifference ent B m.1 m'.1 = some ((pacMaps hB hsort).mapDifference m m').1 :=
  PacMap.eq_of (mapDifference_total hB m m')

/-- The trees satisfy the laws of ordered maps. -/
theorem lawful_pacMaps : (pacMaps hB hsort : OrderedMap K V (PacMap ent B)).Lawful := by
  have hinsert : ∀ (m : PacMap ent B) es, ∀ k,
      (∃ v, (k, v) ∈ es ∧ ((pacMaps hB hsort).multiInsert m es).1.value k = some v) ∨
        (k ∉ es.map Prod.fst ∧ ((pacMaps hB hsort).multiInsert m es).1.value k = m.1.value k) := by
    intro m es
    obtain ⟨t, ht, -, hval⟩ := multiInsert_spec hB hsort m.2 es
    rw [pacMaps_multiInsert hB hsort] at ht
    rwa [Option.some.inj ht]
  refine ⟨fun m => m.2.sorted, fun m es e he => ?_, fun m es k hk => ?_, fun m es e he hno => ?_,
    fun m es e => ?_, fun m m' e => ?_⟩
  · have hval := (mem_entries_iff ((pacMaps hB hsort).multiInsert m es).2.sorted).mp he
    rcases hinsert m es e.1 with ⟨v, hv, hk⟩ | ⟨hno, hk⟩
    · obtain rfl := Option.some.inj (hval.symm.trans hk)
      exact Or.inl hv
    · exact Or.inr ⟨(mem_entries_iff m.2.sorted).mpr (hk.symm.trans hval), hno⟩
  · rcases hinsert m es k with ⟨v, -, hv⟩ | ⟨hno, -⟩
    · exact lookup_map_isSome.mp (by rw [hv]; rfl)
    · exact absurd hk hno
  · rcases hinsert m es e.1 with ⟨v, hv, -⟩ | ⟨-, hk⟩
    · exact absurd (List.mem_map_of_mem hv) hno
    · exact (mem_entries_iff ((pacMaps hB hsort).multiInsert m es).2.sorted).mpr
        (hk.trans ((mem_entries_iff m.2.sorted).mp he))
  · obtain ⟨t, ht, -, hes⟩ := multiDelete_spec hB hsort m.2 es
    rw [pacMaps_multiDelete hB hsort] at ht
    show e ∈ ((pacMaps hB hsort).multiDelete m es).1.entries ↔ _
    rw [Option.some.inj ht, hes, List.mem_filter, decide_eq_true_iff]
    rfl
  · obtain ⟨t, ht, -, hes⟩ := mapDifference_spec hB m.2 m'.2
    rw [pacMaps_mapDifference hB hsort] at ht
    show e ∈ ((pacMaps hB hsort).mapDifference m m').1.entries ↔ _
    rw [Option.some.inj ht, hes, List.mem_filter, decide_eq_true_iff]
    rfl

/-- The empty map. -/
def PacMap.empty : PacMap ent B := ⟨.null, PaC.null.valid, .nil⟩

include hB hsort in
theorem mapOf_total (S : List (K × V)) : ∃ t, mapOf ent B sampleSort S = some t ∧ IsPacMap ent B t := by
  obtain ⟨t, ht, hp, -⟩ := mapOf_spec hB hsort S
  exact ⟨t, ht, hp⟩

/-- The map that the constructor makes of a sequence. -/
def PacMap.ofSeq (S : List (K × V)) : PacMap ent B := .of _ (mapOf_total hB hsort S)

/-- The constructor is an insertion into the empty map. -/
theorem entries_ofSeq (S : List (K × V)) : (PacMap.ofSeq hB hsort S : PacMap ent B).1.entries =
    ((pacMaps hB hsort).multiInsert (.empty : PacMap ent B) S).1.entries := by
  have hmap : mapOf ent B sampleSort S = some (PacMap.ofSeq hB hsort S).1 :=
    PacMap.eq_of (mapOf_total hB hsort S)
  rw [mapOf, show (null : Node K V A) = (PacMap.empty : PacMap ent B).1 from rfl,
    pacMaps_multiInsert hB hsort, Option.map_some] at hmap
  rw [← Option.some.inj hmap, finalize]
  split
  · rfl
  · rfl

/-- A sequence with distinct keys gives a map with its entries. -/
theorem ofSeq_perm {S : List (K × V)} (hS : (S.map Prod.fst).Nodup) :
    (PacMap.ofSeq hB hsort S : PacMap ent B).1.entries.Perm S := by
  rw [entries_ofSeq]
  exact (lawful_pacMaps hB hsort).entries_insert_perm .empty hS

/-- The trees are a lawful library of ordered maps: no operation fails on them, insertion, deletion and
difference satisfy the laws, and the constructor makes of a sequence what an insertion into the empty map
does. -/
theorem pacMaps_lawful : (pacMaps hB hsort : OrderedMap K V (PacMap ent B)).Lawful ∧
    (∀ (m : PacMap ent B) es,
      multiInsert ent B sampleSort m.1 es = some ((pacMaps hB hsort).multiInsert m es).1) ∧
    (∀ (m : PacMap ent B) es,
      multiDelete ent B sampleSort m.1 es = some ((pacMaps hB hsort).multiDelete m es).1) ∧
    (∀ m m' : PacMap ent B,
      mapDifference ent B m.1 m'.1 = some ((pacMaps hB hsort).mapDifference m m').1) ∧
    ∀ S : List (K × V), mapOf ent B sampleSort S = some (PacMap.ofSeq hB hsort S : PacMap ent B).1 ∧
      (PacMap.ofSeq hB hsort S : PacMap ent B).1.entries =
        ((pacMaps hB hsort).multiInsert (.empty : PacMap ent B) S).1.entries :=
  ⟨lawful_pacMaps hB hsort, pacMaps_multiInsert hB hsort, pacMaps_multiDelete hB hsort,
    pacMaps_mapDifference hB hsort,
    fun S => ⟨PacMap.eq_of (mapOf_total hB hsort S), entries_ofSeq hB hsort S⟩⟩

end Ops

/-- Sums as the augmented values. -/
theorem pacMaps_lawful_sums :
    let maps : OrderedMap ℕ ℕ (PacMap sumEntry 2) := pacMaps (by decide) sortsByKey_sortByKey
    maps.Lawful ∧
    (∀ m es, multiInsert sumEntry 2 sortByKey m.1 es = some (maps.multiInsert m es).1) ∧
    (∀ m es, multiDelete sumEntry 2 sortByKey m.1 es = some (maps.multiDelete m es).1) ∧
    (∀ m m', mapDifference sumEntry 2 m.1 m'.1 = some (maps.mapDifference m m').1) ∧
    ∀ S : List (ℕ × ℕ), mapOf sumEntry 2 sortByKey S =
        some (PacMap.ofSeq (by decide) sortsByKey_sortByKey S : PacMap sumEntry 2).1 ∧
      (PacMap.ofSeq (by decide) sortsByKey_sortByKey S : PacMap sumEntry 2).1.entries =
        (maps.multiInsert .empty S).1.entries :=
  pacMaps_lawful (by decide) sortsByKey_sortByKey

end Cpam

end Silva
