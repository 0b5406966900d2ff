import Silva.Cpam.MapOps
import Silva.Cpam.Proofs.SequenceProofs
import Silva.Lib.SortedMerge

/-!
# Proofs: map operations on PaC trees in key order

Each operation never fails on PaC trees whose entries are in key order, and its result is a PaC tree of
what one two-pointer loop over all the entries would output: the recursion on trees and the base cases
agree with it.
-/

namespace Silva

namespace Cpam

open Node TwoPointer KeyedList SortedMerge

variable {K V A : Type*} [LinearOrder K] {ent : Entry K V A} {B : ℕ} {root root' : Bool}
  {t t1 t2 : Node K V A} {es : List (K × V)} {o : Option (Node K V A)} {k : K}

/-- Entries in key order. -/
abbrev Sorted (es : List (K × V)) : Prop := es.Pairwise (·.1 < ·.1)

theorem sorted_append_cons {as bs : List (K × V)} {e : K × V} (h : Sorted (as ++ e :: bs)) :
    Sorted as ∧ Sorted bs ∧ (∀ a ∈ as, a.1 < e.1) ∧ ∀ b ∈ bs, e.1 < b.1 := by
  obtain ⟨ha, hcons, hcross⟩ := List.pairwise_append.mp h
  obtain ⟨heb, hb⟩ := List.pairwise_cons.mp hcons
  exact ⟨ha, hb, fun a ha => hcross a ha e List.mem_cons_self, heb⟩

theorem Exposes.sorted {lc rc : Node K V A} {e : K × V} (hx : Exposes ent B t lc e rc)
    (hs : Sorted t.entries) : Sorted lc.entries ∧ Sorted rc.entries ∧
      (∀ a ∈ lc.entries, a.1 < e.1) ∧ ∀ b ∈ rc.entries, e.1 < b.1 :=
  sorted_append_cons (hx.entries ▸ hs)

/-! ## Splitting -/

/-- The parts of a tree that is split at a key. -/
structure Parts (ent : Entry K V A) (B : ℕ) (t : Node K V A) (k : K) (sp : SplitInfo K V A) : Prop where
  left : PaC ent B sp.l
  right : PaC ent B sp.r
  entries : t.entries = sp.l.entries ++ sp.mid.toList ++ sp.r.entries
  around : Around Prod.fst k sp.l.entries sp.mid sp.r.entries

theorem split_spec (hB : 1 < B) (h : Valid ent B root t) (hs : Sorted t.entries) (k : K) :
    ∃ sp, split ent B t k = some sp ∧ Parts ent B t k sp := by
  fun_induction split ent B t k generalizing root with
  | case1 a hnull =>
    refine ⟨_, rfl, .null, .null, by rw [eq_null hnull]; rfl, ?_⟩
    exact ⟨by simp [Node.entries], by simp, by simp [Node.entries]⟩
  | case2 a hne hexp => exact absurd hexp (h.expose_ne_none hB hne)
  | case3 a hne lc e rc hexp hlt ih =>
    have hx := h.exposes hB hexp
    obtain ⟨hsl, hsr, hle, hre⟩ := hx.sorted hs
    obtain ⟨bstpair, heq, hp⟩ := ih hx.right.inner hsr
    obtain ⟨l, hl, hpl, hle'⟩ := nodeJoin_yields (by omega) hx.left hp.left e
    rw [heq, Option.bind_some, hl]
    refine ⟨_, rfl, hpl, hp.right, ?_, ?_⟩
    · rw [hx.entries, hp.entries, hle']
      simp
    · rw [hle']
      exact hp.around.cons_lower hlt hle
  | case4 a hne lc e rc hexp hnlt hgt ih =>
    have hx := h.exposes hB hexp
    obtain ⟨hsl, hsr, hle, hre⟩ := hx.sorted hs
    obtain ⟨bstpair, heq, hp⟩ := ih hx.left.inner hsl
    obtain ⟨r, hr, hpr, hre'⟩ := nodeJoin_yields (by omega) hp.right hx.right e
    rw [heq, Option.bind_some, hr]
    refine ⟨_, rfl, hp.left, hpr, ?_, ?_⟩
    · rw [hx.entries, hp.entries, hre']
      simp
    · rw [hre']
      exact hp.around.cons_upper hgt hre
  | case5 a hne lc e rc hexp hnlt hngt =>
    have hx := h.exposes hB hexp
    have hk : e.1 = k := le_antisymm (not_lt.mp hngt) (not_lt.mp hnlt)
    refine ⟨_, rfl, hx.left, hx.right, ?_, ?_⟩
    · rw [hx.entries]
      simp
    · rw [← hk]
      exact .of_sorted (hx.entries ▸ hs)

theorem Parts.sorted {sp : SplitInfo K V A} (hp : Parts ent B t k sp) (hs : Sorted t.entries) :
    Sorted sp.l.entries ∧ Sorted sp.r.entries := by
  rw [hp.entries, List.append_assoc] at hs
  exact ⟨(List.pairwise_append.mp hs).1, (List.pairwise_append.mp (List.pairwise_append.mp hs).2.1).2.1⟩

/-- The parts of a tree, joined again. -/
def rejoin (ent : Entry K V A) (B : ℕ) (sp : SplitInfo K V A) : Option (Node K V A) :=
  match sp.mid with
  | some e => nodeJoin ent B sp.l sp.r e
  | none => join2 ent B sp.l sp.r

/-- A split succeeds at every key, and its parts can be joined again. -/
theorem split_join (hB : 1 < B) (h : Valid ent B root t) (hs : Sorted t.entries) (k : K) :
    ∃ sp, split ent B t k = some sp ∧ PaC ent B sp.l ∧ PaC ent B sp.r ∧
      Around Prod.fst k sp.l.entries sp.mid sp.r.entries ∧
      Yields ent B (rejoin ent B sp) t.entries := by
  obtain ⟨sp, hsp, hp⟩ := split_spec hB h hs k
  refine ⟨sp, hsp, hp.left, hp.right, hp.around, ?_⟩
  rw [hp.entries, rejoin]
  cases sp.mid with
  | some e =>
    rw [Option.toList_some, List.append_assoc]
    exact nodeJoin_yields (by omega) hp.left hp.right e
  | none =>
    rw [Option.toList_none, List.append_nil]
    exact join2_yields hB hp.left hp.right

theorem split_join_five :
    ∃ sp, split sumEntry 2 fiveTens 4 = some sp ∧ PaC sumEntry 2 sp.l ∧ PaC sumEntry 2 sp.r ∧
      Around Prod.fst 4 sp.l.entries sp.mid sp.r.entries ∧
      Yields sumEntry 2 (rejoin sumEntry 2 sp) [(1, 10), (2, 20), (3, 30), (4, 40), (5, 50)] :=
  split_join (by decide) paC_fiveTens.inner (by decide) 4

/-! ## Base cases -/

theorem keyCmp_eq (a b : K × V) : keyCmp a b = compare (Prod.fst a) (Prod.fst b) := rfl

/-- A base case is the loop over the entries of both trees. -/
theorem base_yields (hB : 1 < B) {out : Event (K × V) → List (K × V)} {es es' : List (K × V)}
    (hout : ∀ ev, (out ev).length ≤ 1) (hle : es.length + es'.length ≤ kBaseCaseSize B) :
    Yields ent B (buildTree ent B ((events keyCmp es es').flatMap out))
      ((events keyCmp es es').flatMap out) :=
  buildTree_yields hB
    ((length_flatMap_le hout _).trans ((length_events_le es es').trans hle))

/-- The loop over two trees of which one is taken apart and the other one is split at its key. -/
theorem events_parts {l r : List (K × V)} {e : K × V} {sp : SplitInfo K V A} (hp : Parts ent B t e.1 sp)
    (hs : Sorted (l ++ e :: r)) :
    events keyCmp t.entries (l ++ e :: r) = events keyCmp sp.l.entries l ++
      eventAt sp.mid (some e) ++ events keyCmp sp.r.entries r ∧
    events keyCmp (l ++ e :: r) t.entries = events keyCmp l sp.l.entries ++
      eventAt (some e) sp.mid ++ events keyCmp r sp.r.entries := by
  have haround := Around.of_sorted hs
  rw [hp.entries, List.append_cons]
  exact ⟨hp.around.events_eq keyCmp_eq haround, haround.events_eq keyCmp_eq hp.around⟩

/-! ## Union and intersection -/

section Values

variable (out : Bool → Event (K × V) → List (K × V))

/-- An output that may depend on the order in which an operation gets the two values of a key. -/
def chosen (c : K → Bool) (ev : Event (K × V)) : List (K × V) := out (c (ev.key Prod.fst)) ev

/-- Two choices that agree on the keys of a loop. -/
theorem flatMap_chosen_congr {c c' : K → Bool} {es es' : List (K × V)}
    (h : ∀ e ∈ es, c e.1 = c' e.1) (h' : ∀ e ∈ es', c e.1 = c' e.1) :
    (events keyCmp es es').flatMap (chosen out c) = (events keyCmp es es').flatMap (chosen out c') := by
  refine List.flatMap_congr fun ev hev => ?_
  have hc : c (ev.key Prod.fst) = c' (ev.key Prod.fst) := by
    rcases key_of_mem_events Prod.fst hev with hkey | hkey
    · obtain ⟨x, hx, hxk⟩ := List.mem_map.mp hkey
      rw [← hxk, h x hx]
    · obtain ⟨x, hx, hxk⟩ := List.mem_map.mp hkey
      rw [← hxk, h' x hx]
  rw [chosen, chosen, hc]

/-- The choices below and above a key, and the values in order at the key itself. -/
theorem exists_choice {l r : List (K × V)} {e : K × V} {sp : SplitInfo K V A}
    (hp : Parts ent B t e.1 sp) (hs : Sorted (l ++ e :: r)) (cl cr : K → Bool) :
    ∃ c, (events keyCmp t.entries (l ++ e :: r)).flatMap (chosen out c) =
      (events keyCmp sp.l.entries l).flatMap (chosen out cl) ++
      (eventAt sp.mid (some e)).flatMap (out true) ++
      (events keyCmp sp.r.entries r).flatMap (chosen out cr) := by
  obtain ⟨-, -, hl, hr⟩ := sorted_append_cons hs
  let c := fun k => if k < e.1 then cl k else if e.1 < k then cr k else true
  have hlow : ∀ a : K × V, a.1 < e.1 → c a.1 = cl a.1 := fun a ha => if_pos ha
  have hup : ∀ a : K × V, e.1 < a.1 → c a.1 = cr a.1 := fun a ha => by
    rw [show c a.1 = _ from if_neg ha.not_gt, if_pos ha]
  have hat : c e.1 = true := (if_neg (lt_irrefl _)).trans (if_neg (lt_irrefl _))
  have hmid : (eventAt sp.mid (some e)).flatMap (chosen out c) =
      (eventAt sp.mid (some e)).flatMap (out true) := by
    cases hm : sp.mid with
    | none => rw [eventAt, List.flatMap_singleton, List.flatMap_singleton, chosen, Event.key, hat]
    | some a =>
      rw [eventAt, List.flatMap_singleton, List.flatMap_singleton, chosen, Event.key,
        hp.around.mid a hm, hat]
  refine ⟨c, ?_⟩
  rw [(events_parts hp hs).1, List.flatMap_append, List.flatMap_append, hmid,
    flatMap_chosen_congr out (fun a ha => hlow a (hp.around.lower a ha)) (fun a ha => hlow a (hl a ha)),
    flatMap_chosen_congr out (fun a ha => hup a (hp.around.upper a ha)) (fun a ha => hup a (hr a ha))]

end Values

section Union

variable (op : V → V → V)

/-- The output of the union. -/
def unionOut (ordered : Bool) : Event (K × V) → List (K × V)
  | .left a => [a]
  | .right b => [b]
  | .both a b => [(a.1, if ordered then op a.2 b.2 else op b.2 a.2)]

/-- The output of the intersection. -/
def intersectOut (ordered : Bool) : Event (K × V) → List (K × V)
  | .both a b => [(a.1, if ordered then op a.2 b.2 else op b.2 a.2)]
  | _ => []

omit [LinearOrder K] in
theorem length_unionOut (ordered : Bool) (ev : Event (K × V)) :
    (unionOut op ordered ev).length ≤ 1 := by
  cases ev <;> exact le_rfl

omit [LinearOrder K] in
theorem length_intersectOut (ordered : Bool) (ev : Event (K × V)) :
    (intersectOut op ordered ev).length ≤ 1 := by
  cases ev <;> simp [intersectOut]

theorem unionBc_yields (hB : 1 < B) (h1 : Valid ent B root t1) (h2 : Valid ent B root' t2)
    (hle : t1.size + t2.size ≤ kBaseCaseSize B) : Yields ent B (unionBc ent B op t1 t2)
      ((events keyCmp t1.entries t2.entries).flatMap (unionOut op false)) := by
  rw [h1.size, h2.size] at hle
  have hout : unionBc ent B op t1 t2 = buildTree ent B
      ((events keyCmp t1.entries t2.entries).flatMap (unionOut op false)) := by
    unfold unionBc
    congr 2
  rw [hout]
  exact base_yields hB (length_unionOut op _) hle

theorem uniont_yields (hB : 1 < B) (h1 : Valid ent B root t1) (h2 : Valid ent B root' t2)
    (hs1 : Sorted t1.entries) (hs2 : Sorted t2.entries) :
    ∃ c : K → Bool, YieldsMap ent B (root || root') (uniont ent B op t1 t2)
      ((events keyCmp t1.entries t2.entries).flatMap (chosen (unionOut op) c)) := by
  fun_induction uniont ent B op t1 t2 generalizing root root' with
  | case1 b1 b2 hnull =>
    refine ⟨fun _ => true, (h2.mono fun h => by rw [h, Bool.or_true]).yields ?_⟩
    rw [eq_null hnull, Node.entries, events_nil_left, List.flatMap_map]
    exact (List.flatMap_singleton' _).symm
  | case2 b1 b2 hne hnull =>
    refine ⟨fun _ => true, (h1.mono fun h => by rw [h, Bool.true_or]).yields ?_⟩
    rw [eq_null hnull, Node.entries, events_nil_right, List.flatMap_map]
    exact (List.flatMap_singleton' _).symm
  | case3 b1 b2 hne1 hne2 hle => exact ⟨fun _ => false, (unionBc_yields op hB h1 h2 hle).map⟩
  | case4 b1 b2 hne1 hne2 hgt hexp => exact absurd hexp (h2.expose_ne_none hB hne2)
  | case5 b1 b2 hne1 hne2 hgt l2 e r2 hexp ihl ihr =>
    have hx := h2.exposes hB hexp
    obtain ⟨hsl2, hsr2, -, -⟩ := hx.sorted hs2
    obtain ⟨sp, hsp, hp⟩ := split_spec hB h1 hs1 e.1
    obtain ⟨hsl, hsr⟩ := hp.sorted hs1
    obtain ⟨cl, hcl⟩ := ihl sp hp.left.inner hx.left.inner hsl hsl2
    obtain ⟨cr, hcr⟩ := ihr sp hp.right.inner hx.right.inner hsr hsr2
    obtain ⟨l, hl, hpl, hel⟩ := hcl.yields
    obtain ⟨r, hr, hpr, her⟩ := hcr.yields
    obtain ⟨c, hc⟩ := exists_choice (unionOut op) hp (hx.entries ▸ hs2) cl cr
    refine ⟨c, ?_⟩
    rw [hsp, Option.bind_some, hl, Option.bind_some, hr, Option.bind_some, hx.entries, hc, ← hel, ← her,
      List.append_assoc]
    cases hmid : sp.mid with
    | none => exact (nodeJoin_yields (by omega) hpl hpr e).map
    | some e1 =>
      have hout : unionOut op true (.both e1 e) = [(e.1, op e1.2 e.2)] := by
        rw [unionOut, if_pos rfl, hp.around.mid e1 hmid]
      rw [eventAt, List.flatMap_singleton, hout]
      exact (nodeJoin_yields (by omega) hpl hpr _).map

theorem intersectBc_yields (hB : 1 < B) (h1 : Valid ent B root t1) (h2 : Valid ent B root' t2)
    (hle : t1.size + t2.size ≤ kBaseCaseSize B) : Yields ent B (intersectBc ent B op t1 t2)
      ((events keyCmp t1.entries t2.entries).flatMap (intersectOut op false)) := by
  rw [h1.size, h2.size] at hle
  have hout : intersectBc ent B op t1 t2 = buildTree ent B
      ((events keyCmp t1.entries t2.entries).flatMap (intersectOut op false)) := by
    unfold intersectBc
    congr 2
  rw [hout]
  exact base_yields hB (length_intersectOut op _) hle

theorem intersect_yields (hB : 1 < B) (h1 : Valid ent B root t1) (h2 : Valid ent B root' t2)
    (hs1 : Sorted t1.entries) (hs2 : Sorted t2.entries) :
    ∃ c : K → Bool, Yields ent B (intersect ent B op t1 t2)
      ((events keyCmp t1.entries t2.entries).flatMap (chosen (intersectOut op) c)) := by
  fun_induction intersect ent B op t1 t2 generalizing root root' with
  | case1 b1 b2 hnull =>
    refine ⟨fun _ => true, PaC.null.yields ?_⟩
    rw [eq_null hnull, Node.entries, events_nil_left, List.flatMap_map]
    exact (List.flatMap_eq_nil_iff.mpr fun _ _ => rfl).symm
  | case2 b1 b2 hne hnull =>
    refine ⟨fun _ => true, PaC.null.yields ?_⟩
    rw [eq_null hnull, Node.entries, events_nil_right, List.flatMap_map]
    exact (List.flatMap_eq_nil_iff.mpr fun _ _ => rfl).symm
  | case3 b1 b2 hne1 hne2 hle => exact ⟨fun _ => false, intersectBc_yields op hB h1 h2 hle⟩
  | case4 b1 b2 hne1 hne2 hgt hexp => exact absurd hexp (h2.expose_ne_none hB hne2)
  | case5 b1 b2 hne1 hne2 hgt l2 e r2 hexp ihl ihr =>
    have hx := h2.exposes hB hexp
    obtain ⟨hsl2, hsr2, -, -⟩ := hx.sorted hs2
    obtain ⟨sp, hsp, hp⟩ := split_spec hB h1 hs1 e.1
    obtain ⟨hsl, hsr⟩ := hp.sorted hs1
    obtain ⟨cl, l, hl, hpl, hel⟩ := ihl sp hp.left.inner
      hx.left.inner hsl hsl2
    obtain ⟨cr, r, hr, hpr, her⟩ := ihr sp hp.right.inner
      hx.right.inner hsr hsr2
    obtain ⟨c, hc⟩ := exists_choice (intersectOut op) hp (hx.entries ▸ hs2) cl cr
    refine ⟨c, ?_⟩
    rw [hsp, Option.bind_some, hl, Option.bind_some, hr, Option.bind_some, hx.entries, hc, ← hel, ← her]
    cases hmid : sp.mid with
    | none =>
      rw [eventAt, List.flatMap_singleton, intersectOut, List.append_nil]
      · exact join2_yields hB hpl hpr
      · exact fun _ _ h => by cases h
    | some e1 =>
      have hout : intersectOut op true (.both e1 e) = [(e.1, op e1.2 e.2)] := by
        rw [intersectOut, if_pos rfl, hp.around.mid e1 hmid]
      rw [eventAt, List.flatMap_singleton, hout, List.append_assoc]
      exact nodeJoin_yields (by omega) hpl hpr _

end Union

/-! ## Difference -/

/-- The output of the difference. -/
def differenceOut : Event (K × V) → List (K × V)
  | .left a => [a]
  | _ => []

omit [LinearOrder K] in
theorem length_differenceOut (ev : Event (K × V)) : (differenceOut ev).length ≤ 1 := by
  cases ev <;> simp [differenceOut]

theorem differenceBc_yields (hB : 1 < B) (h1 : Valid ent B root t1) (h2 : Valid ent B root' t2)
    (hle : t1.size + t2.size ≤ kBaseCaseSize B) : Yields ent B (differenceBc ent B t1 t2)
      ((events keyCmp t1.entries t2.entries).flatMap differenceOut) := by
  rw [h1.size, h2.size] at hle
  have hout : differenceBc ent B t1 t2 = buildTree ent B
      ((events keyCmp t1.entries t2.entries).flatMap differenceOut) := by
    unfold differenceBc
    congr 2
  rw [hout]
  exact base_yields hB length_differenceOut hle

theorem difference_yields (hB : 1 < B) (h1 : Valid ent B root t1) (h2 : Valid ent B root' t2)
    (hs1 : Sorted t1.entries) (hs2 : Sorted t2.entries) :
    YieldsMap ent B root (difference ent B t1 t2)
      ((events keyCmp t1.entries t2.entries).flatMap differenceOut) := by
  fun_induction difference ent B t1 t2 generalizing root root' with
  | case1 b1 b2 hnull =>
    refine PaC.null.valid.yields ?_
    rw [eq_null hnull, Node.entries, events_nil_left, List.flatMap_map]
    exact (List.flatMap_eq_nil_iff.mpr fun _ _ => rfl).symm
  | case2 b1 b2 hne hnull =>
    refine h1.yields ?_
    rw [eq_null hnull, Node.entries, events_nil_right, List.flatMap_map]
    exact (List.flatMap_singleton' _).symm
  | case3 b1 b2 hne1 hne2 hle => exact (differenceBc_yields hB h1 h2 hle).map
  | case4 b1 b2 hne1 hne2 hgt hexp => exact absurd hexp (h1.expose_ne_none hB hne1)
  | case5 b1 b2 hne1 hne2 hgt l1 e r1 hexp ihl ihr =>
    have hx := h1.exposes hB hexp
    obtain ⟨hsl1, hsr1, -, -⟩ := hx.sorted hs1
    obtain ⟨sp, hsp, hp⟩ := split_spec hB h2 hs2 e.1
    obtain ⟨hsl, hsr⟩ := hp.sorted hs2
    obtain ⟨l, hl, hpl, hel⟩ := (ihl sp hx.left.inner
      hp.left.inner hsl1 hsl).yields
    obtain ⟨r, hr, hpr, her⟩ := (ihr sp hx.right.inner
      hp.right.inner hsr1 hsr).yields
    rw [hsp, Option.bind_some, hl, Option.bind_some, hr, Option.bind_some, hx.entries,
      (events_parts hp (hx.entries ▸ hs1)).2, List.flatMap_append, List.flatMap_append, ← hel, ← her]
    cases hmid : sp.mid with
    | none =>
      rw [eventAt, List.flatMap_singleton, differenceOut, List.append_assoc]
      exact (nodeJoin_yields (by omega) hpl hpr e).map
    | some e2 =>
      rw [eventAt, List.flatMap_singleton, differenceOut, List.append_nil]
      · exact (join2_yields hB hpl hpr).map
      · exact fun _ h => by cases h

/-! ## Batches -/

theorem pamBinarySearch_append {α : Type*} {less : α → Bool} {as bs : List α}
    (has : ∀ a ∈ as, less a = true) (hbs : ∀ b ∈ bs, less b = false) :
    pamBinarySearch (as ++ bs) less = as.length := by
  refine Search.Splits.partitionPoint_eq ⟨Nat.zero_le _, by simp, fun i _ hi => ?_⟩
  rw [List.getElem?_eq_getElem hi, Option.any_some]
  by_cases h : i < as.length
  · rw [List.getElem_append_left h]
    exact iff_of_true (has _ (List.getElem_mem h)) h
  · rw [List.getElem_append_right (by omega)]
    exact iff_of_false (by rw [hbs _ (List.getElem_mem _)]; simp) h

/-- Where a batch is cut: `high` starts at the position that the search returns. -/
theorem cut_append {α : Type*} {key : α → K} {bk : K} {low high : List α} (hlow : ∀ a ∈ low, key a < bk)
    (hhigh : ∀ b ∈ high, ¬key b < bk) :
    cut key (low ++ high) bk =
      let dup := high.head?.filter fun a => !(bk < key a)
      ⟨low, dup, high.drop dup.toList.length⟩ := by
  have hmid : pamBinarySearch (low ++ high) (fun a => decide (key a < bk)) = low.length :=
    pamBinarySearch_append (fun a ha => decide_eq_true (hlow a ha))
      (fun b hb => decide_eq_false (hhigh b hb))
  simp only [cut, hmid, List.take_left, List.getElem?_append_right le_rfl, Nat.sub_self,
    List.head?_eq_getElem?, List.drop_length_add_append]

/-- A sorted batch is cut at the key of a node. -/
theorem cut_spec {α : Type*} {key : α → K} {as : List α} (hs : as.Pairwise (key · < key ·)) (bk : K) :
    as = (cut key as bk).lower ++ (cut key as bk).dup.toList ++ (cut key as bk).upper ∧
      Around key bk (cut key as bk).lower (cut key as bk).dup (cut key as bk).upper := by
  have hcut := Search.filter_append_filter (f := fun a => decide (key a < bk)) (l := as)
    (hs.imp fun hlt h => decide_eq_true (hlt.trans (of_decide_eq_true h)))
  have hlow : ∀ a ∈ as.filter fun a => decide (key a < bk), key a < bk :=
    fun a ha => of_decide_eq_true (List.mem_filter.mp ha).2
  have hhigh : ∀ b ∈ as.filter fun a => !decide (key a < bk), ¬key b < bk :=
    fun b hb => by simpa using (List.mem_filter.mp hb).2
  have hsort := hs.filter fun a => !decide (key a < bk)
  generalize as.filter (fun a => decide (key a < bk)) = low at *
  generalize as.filter (fun a => !decide (key a < bk)) = high at *
  rw [← hcut, cut_append hlow hhigh]
  cases high with
  | nil => exact ⟨by simp, hlow, by simp, by simp⟩
  | cons b rest =>
    have hrest := (List.pairwise_cons.mp hsort).1
    by_cases hb : bk < key b
    · have hdup : (b :: rest).head?.filter (fun a => !decide (bk < key a)) = none := by
        simp [Option.filter, hb]
      simp only [hdup]
      refine ⟨by simp, hlow, by simp, fun c hc => ?_⟩
      rcases List.mem_cons.mp hc with rfl | hc
      · exact hb
      · exact hb.trans (hrest c hc)
    · have hdup : (b :: rest).head?.filter (fun a => !decide (bk < key a)) = some b := by
        simp [Option.filter, hb]
      have hkey : key b = bk := le_antisymm (not_lt.mp hb) (not_lt.mp (hhigh b List.mem_cons_self))
      simp only [hdup]
      refine ⟨by simp, hlow, fun a ha => ?_, fun c hc => ?_⟩
      · rw [← Option.mem_some_iff.mp ha, hkey]
      · rw [← hkey]
        exact hrest c hc

theorem sorted_parts {α : Type*} (key : α → K) {as bs cs : List α}
    (h : (as ++ bs ++ cs).Pairwise (key · < key ·)) :
    as.Pairwise (key · < key ·) ∧ cs.Pairwise (key · < key ·) :=
  ⟨(List.pairwise_append.mp (List.pairwise_append.mp h).1).1, (List.pairwise_append.mp h).2.1⟩

section MultiInsert

variable (op : V → V → V)

theorem multiinsertBc_yields (hB : 1 < B) (h : Valid ent B root t)
    (hle : t.size + es.length ≤ kBaseCaseSize B) : Yields ent B (multiinsertBc ent B op t es)
      ((events keyCmp t.entries es).flatMap (unionOut op true)) := by
  rw [h.size] at hle
  have hout : multiinsertBc ent B op t es = buildTree ent B
      ((events keyCmp t.entries es).flatMap (unionOut op true)) := by
    unfold multiinsertBc
    congr 2
  rw [hout]
  exact base_yields hB (length_unionOut op _) hle

theorem multiInsertSorted_yields (hB : 1 < B) (h : Valid ent B root t) (hs : Sorted t.entries)
    (hes : Sorted es) : YieldsMap ent B root (multiInsertSorted ent B op t es)
      ((events keyCmp t.entries es).flatMap (unionOut op true)) := by
  fun_induction multiInsertSorted ent B op t es generalizing root with
  | case1 b es hnull =>
    rw [eq_null hnull, Node.entries, events_nil_left, List.flatMap_map]
    refine ((fromArray_yields hB es).map).congr ?_
    exact (List.flatMap_singleton' _).symm
  | case2 b es hne hempty =>
    refine h.yields ?_
    rw [List.isEmpty_iff.mp hempty, events_nil_right, List.flatMap_map]
    exact (List.flatMap_singleton' _).symm
  | case3 b es hne hnemp hle => exact (multiinsertBc_yields op hB h hle).map
  | case4 b es hne hnemp hgt hexp => exact absurd hexp (h.expose_ne_none hB hne)
  | case5 b es hne hnemp hgt lc e rc hexp c ihl =>
    rename_i ihr
    have hx := h.exposes hB hexp
    obtain ⟨hsl, hsr, -, -⟩ := hx.sorted hs
    obtain ⟨heq, haround⟩ : es = c.lower ++ c.dup.toList ++ c.upper ∧
        Around Prod.fst e.1 c.lower c.dup c.upper := cut_spec hes e.1
    clear_value c
    obtain ⟨hlow, hup⟩ := sorted_parts Prod.fst (heq ▸ hes)
    obtain ⟨l, hl, hpl, hel⟩ := (ihl hx.left.inner hsl hlow).yields
    obtain ⟨r, hr, hpr, her⟩ := (ihr hx.right.inner hsr hup).yields
    have hevents : events keyCmp b.entries es = events keyCmp lc.entries c.lower ++
        eventAt (some e) c.dup ++ events keyCmp rc.entries c.upper := by
      have := (Around.of_sorted (hx.entries ▸ hs)).events_eq keyCmp_eq haround
      rwa [← heq, Option.toList_some, ← List.append_cons, ← hx.entries] at this
    rw [hl, Option.bind_some, hr, Option.bind_some, hevents, List.flatMap_append, List.flatMap_append,
      ← hel, ← her, List.append_assoc]
    cases hdup : c.dup with
    | none => exact (nodeJoin_yields (by omega) hpl hpr e).map
    | some a =>
      rw [eventAt, List.flatMap_singleton, unionOut, if_pos rfl]
      exact (nodeJoin_yields (by omega) hpl hpr _).map

end MultiInsert

theorem multideleteLoop_eq {ks : List K} (hes : Sorted es) (hks : ks.Pairwise (· < ·)) :
    multideleteLoop es ks = es.filter fun e => e.1 ∉ ks := by
  fun_induction multideleteLoop es ks with
  | case1 ks => rfl
  | case2 a stack => simp
  | case3 a stack k ks hlt ih =>
    have hrest := (List.pairwise_cons.mp hks).1
    have hnot : a.1 ∉ k :: ks := by
      rw [List.mem_cons, not_or]
      exact ⟨hlt.ne, fun hmem => (hlt.trans (hrest _ hmem)).ne rfl⟩
    rw [ih (List.pairwise_cons.mp hes).2 hks, List.filter_cons, if_pos (decide_eq_true hnot)]
  | case4 a stack k ks hnlt hgt ih =>
    rw [ih hes (List.pairwise_cons.mp hks).2]
    refine List.filter_congr fun x hx => decide_eq_decide.mpr (not_congr ?_)
    have hle : k < x.1 := by
      rcases List.mem_cons.mp hx with rfl | hx
      · exact hgt
      · exact hgt.trans ((List.pairwise_cons.mp hes).1 x hx)
    rw [List.mem_cons, or_iff_right hle.ne']
  | case5 a stack k ks hnlt hngt ih =>
    have hk : a.1 = k := le_antisymm (not_lt.mp hngt) (not_lt.mp hnlt)
    obtain ⟨hrest, hes'⟩ := List.pairwise_cons.mp hes
    rw [ih hes' (List.pairwise_cons.mp hks).2, List.filter_cons,
      if_neg (by simp [hk])]
    refine List.filter_congr fun x hx => decide_eq_decide.mpr (not_congr ?_)
    rw [List.mem_cons, or_iff_right (hk ▸ (hrest x hx).ne')]

theorem multiDeleteSorted_yields (hB : 1 < B) (h : Valid ent B root t) (hs : Sorted t.entries)
    {ks : List K} (hks : ks.Pairwise (· < ·)) : YieldsMap ent B root (multiDeleteSorted ent B t ks)
      (t.entries.filter fun e => e.1 ∉ ks) := by
  fun_induction multiDeleteSorted ent B t ks generalizing root with
  | case1 b ks hnull =>
    rw [eq_null hnull]
    exact PaC.null.valid.yields rfl
  | case2 b ks hne hempty =>
    refine h.yields ?_
    rw [List.isEmpty_iff.mp hempty]
    simp
  | case3 b ks hne hnemp hle =>
    rw [multideleteBc, multideleteLoop_eq hs hks]
    refine (buildTree_yields hB ((List.length_filter_le _ _).trans ?_)).map
    rwa [← h.size]
  | case4 b ks hne hnemp hgt hexp => exact absurd hexp (h.expose_ne_none hB hne)
  | case5 b ks hne hnemp hgt lc e rc hexp c ihl =>
    rename_i ihr
    have hx := h.exposes hB hexp
    obtain ⟨hsl, hsr, -, -⟩ := hx.sorted hs
    obtain ⟨heq, haround⟩ : ks = c.lower ++ c.dup.toList ++ c.upper ∧
        Around id e.1 c.lower c.dup c.upper := cut_spec hks e.1
    clear_value c
    obtain ⟨hlow, hup⟩ := sorted_parts id (heq ▸ hks)
    obtain ⟨l, hl, hpl, hel⟩ := (ihl hx.left.inner hsl hlow).yields
    obtain ⟨r, hr, hpr, her⟩ := (ihr hx.right.inner hsr hup).yields
    have hfilter : b.entries.filter (fun e => e.1 ∉ ks) = lc.entries.filter (fun a => a.1 ∉ c.lower) ++
        (if c.dup.isSome then [] else [e]) ++ rc.entries.filter (fun a => a.1 ∉ c.upper) := by
      have := haround.filter_notMem (Around.of_sorted (hx.entries ▸ hs) :
        Around Prod.fst e.1 lc.entries (some e) rc.entries) rfl
      rwa [← heq, ← hx.entries] at this
    rw [hl, Option.bind_some, hr, Option.bind_some, hfilter, ← hel, ← her]
    cases hdup : c.dup with
    | none =>
      rw [List.append_assoc]
      exact (nodeJoin_yields (by omega) hpl hpr e).map
    | some a =>
      rw [Option.isSome_some, if_pos rfl, List.append_nil]
      exact (join2_yields hB hpl hpr).map

end Cpam

end Silva
