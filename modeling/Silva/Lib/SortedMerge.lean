import Silva.Lib.KeyedList
import Silva.Lib.Search

/-!
# Divide and conquer on sorted lists

A key cuts a sorted list into the elements below it, at most one element at it and the elements above
it. Two-pointer loops over two lists that are cut at the same key fall apart into the loops over the
parts, and so does dropping the elements with a key from a list.
-/

namespace SortedMerge

open TwoPointer KeyedList

variable {α β κ : Type*} [LinearOrder κ] {key : α → κ} {k : κ} {as bs cs ds : List α}
  {m m' : Option α}

/-! ## The output of a loop -/

theorem length_events_le {cmp : α → α → Ordering} (as bs : List α) :
    (events cmp as bs).length ≤ as.length + bs.length := by
  induction as, bs using pair_induction with
  | nil_left bs => simp
  | cons_nil a as ih => simp
  | cons_cons a as b bs ihab ihb iha =>
    rcases h : cmp a b with _ | _ | _
    · rw [events_cons_lt h]
      simp only [List.length_cons] at ihb ⊢
      omega
    · rw [events_cons_eq h]
      simp only [List.length_cons]
      omega
    · rw [events_cons_gt h]
      simp only [List.length_cons] at iha ⊢
      omega

/-- A loop that outputs at most one element in an iteration. -/
theorem length_flatMap_le {out : Event α → List β} (hout : ∀ ev, (out ev).length ≤ 1)
    (evs : List (Event α)) : (evs.flatMap out).length ≤ evs.length := by
  induction evs with
  | nil => exact le_rfl
  | cons ev evs ih =>
    rw [List.flatMap_cons, List.length_append, List.length_cons]
    have := hout ev
    omega

/-- The search finds what the list has under a key. -/
theorem lookup_eq {xs : List α} {s : κ → Option α} (h : Denotes key xs s) (k : κ) :
    lookup key xs k = s k := by
  rw [lookup, ← List.head?_filter, h k]
  cases s k <;> rfl

theorem lookup_filter {xs : List α} (h : xs.Pairwise (key · < key ·)) (p : α → Bool) (k : κ) :
    lookup key (xs.filter p) k = (lookup key xs k).filter p :=
  lookup_eq ((denotes_lookup (List.pairwise_map.mpr (h.imp fun hlt => hlt.ne))).filter p) k

theorem key_of_lookup {xs : List α} {x : α} (h : lookup key xs k = some x) : key x = k := by
  simpa using List.find?_some h

theorem mem_of_lookup {xs : List α} {x : α} (h : lookup key xs k = some x) : x ∈ xs :=
  List.mem_of_find?_eq_some h

theorem lookup_isSome {xs : List α} : (lookup key xs k).isSome = true ↔ k ∈ xs.map key := by
  rw [lookup, List.find?_isSome, List.mem_map]
  simp

section Outputs

variable {out : Event α → List α}

/-- The output of a loop that never outputs an element under another key is sorted. -/
theorem pairwise_flatMap {evs : List (Event α)} (hkey : ∀ ev ∈ evs, ∀ x ∈ out ev, key x = ev.key key)
    (hout : ∀ ev, (out ev).length ≤ 1) (h : evs.Pairwise (·.key key < ·.key key)) :
    (evs.flatMap out).Pairwise (key · < key ·) := by
  induction evs with
  | nil => exact .nil
  | cons ev evs ih =>
    obtain ⟨hlt, hs⟩ := List.pairwise_cons.mp h
    refine List.pairwise_append.mpr ⟨?_, ih (fun ev' h => hkey ev' (List.mem_cons_of_mem _ h)) hs, ?_⟩
    · match hev : out ev, hout ev with
      | [], _ => exact .nil
      | [x], _ => exact List.pairwise_singleton _ _
    · intro x hx y hy
      obtain ⟨ev', hev', hy⟩ := List.mem_flatMap.mp hy
      rw [hkey ev List.mem_cons_self x hx, hkey ev' (List.mem_cons_of_mem _ hev') y hy]
      exact hlt ev' hev'

/-- What a loop outputs under a key depends on the two elements with that key only. -/
theorem lookup_flatMap {cmp : α → α → Ordering} (hcmp : ∀ a b, cmp a b = compare (key a) (key b))
    (has : as.Pairwise (key · < key ·)) (hbs : bs.Pairwise (key · < key ·))
    (hkey : ∀ ev ∈ events cmp as bs, ∀ x ∈ out ev, key x = ev.key key) (k : κ) :
    lookup key ((events cmp as bs).flatMap out) k =
      ((eventAt (lookup key as k) (lookup key bs k)).flatMap out).head? := by
  have hnd : ∀ {xs : List α}, xs.Pairwise (key · < key ·) → (xs.map key).Nodup :=
    fun h => List.pairwise_map.mpr (h.imp fun hlt => hlt.ne)
  have hfilter := events_filter_key hcmp (has.imp le_of_lt) (hbs.imp le_of_lt)
    (denotes_lookup (hnd has)) (denotes_lookup (hnd hbs)) k
  rw [← hfilter, ← flatMap_filter_key hkey k, List.head?_filter, lookup]

end Outputs

/-! ## Cutting at a key -/

/-- A list in three parts: below the key `k`, at it and above it. -/
structure Around (key : α → κ) (k : κ) (as : List α) (m : Option α) (cs : List α) : Prop where
  lower : ∀ a ∈ as, key a < k
  mid : ∀ a ∈ m, key a = k
  upper : ∀ c ∈ cs, k < key c

namespace Around

theorem of_sorted {e : α} (h : (as ++ e :: cs).Pairwise (key · < key ·)) :
    Around key (key e) as (some e) cs := by
  obtain ⟨-, hcons, hcross⟩ := List.pairwise_append.mp h
  refine ⟨fun a ha => hcross a ha e (by simp), ?_, (List.pairwise_cons.mp hcons).1⟩
  intro a ha
  rw [Option.mem_some_iff.mp ha]

theorem lt_of_mem_mid (h : Around key k as m cs) {a : α} (ha : a ∈ m.toList) : key a = k :=
  h.mid a (Option.mem_toList.mp ha)

/-- A list that is cut below the key of `e`: `e` and what comes after it joins the upper part. -/
theorem cons_upper {e : α} (h : Around key k as m cs) (he : k < key e)
    (hds : ∀ d ∈ ds, key e < key d) : Around key k as m (cs ++ e :: ds) := by
  refine ⟨h.lower, h.mid, fun c hc => ?_⟩
  rcases List.mem_append.mp hc with hc | hc
  · exact h.upper c hc
  · rcases List.mem_cons.mp hc with rfl | hc
    · exact he
    · exact he.trans (hds c hc)

theorem cons_lower {e : α} (h : Around key k as m cs) (he : key e < k)
    (hds : ∀ d ∈ ds, key d < key e) : Around key k (ds ++ e :: as) m cs := by
  refine ⟨fun a ha => ?_, h.mid, h.upper⟩
  rcases List.mem_append.mp ha with ha | ha
  · exact (hds a ha).trans he
  · rcases List.mem_cons.mp ha with rfl | ha
    · exact he
    · exact h.lower a ha

/-- The loop over two lists that are cut at the same key. -/
theorem events_eq {cmp : α → α → Ordering} (hcmp : ∀ a b, cmp a b = compare (key a) (key b))
    (h : Around key k as m cs) (h' : Around key k bs m' ds) :
    events cmp (as ++ m.toList ++ cs) (bs ++ m'.toList ++ ds) =
      events cmp as bs ++ eventAt m m' ++ events cmp cs ds := by
  have hlt : ∀ a b, key a < key b → cmp a b = .lt := fun a b hab => by
    rw [hcmp]; exact compare_lt_iff_lt.mpr hab
  have hgt : ∀ a b, key b < key a → cmp a b = .gt := fun a b hab => by
    rw [hcmp]; exact compare_gt_iff_gt.mpr hab
  have hmid : events cmp m.toList m'.toList = eventAt m m' := by
    cases m with
    | none => cases m' <;> rfl
    | some a =>
      cases m' with
      | none => rfl
      | some b =>
        have heq : cmp a b = .eq := by
          rw [hcmp, h.mid a rfl, h'.mid b rfl]; exact compare_eq_iff_eq.mpr rfl
        exact events_cons_eq heq [] []
  rw [List.append_assoc, List.append_assoc, events_append, events_append, hmid, List.append_assoc]
  · exact fun a ha d hd => hlt a d (by rw [h.lt_of_mem_mid ha]; exact h'.upper d hd)
  · exact fun c hc b hb => hgt c b (by rw [h'.lt_of_mem_mid hb]; exact h.upper c hc)
  · intro a ha d hd
    refine hlt a d ?_
    rcases List.mem_append.mp hd with hd | hd
    · rw [h'.lt_of_mem_mid hd]; exact h.lower a ha
    · exact (h.lower a ha).trans (h'.upper d hd)
  · intro c hc b hb
    refine hgt c b ?_
    rcases List.mem_append.mp hc with hc | hc
    · rw [h.lt_of_mem_mid hc]; exact h'.lower b hb
    · exact (h'.lower b hb).trans (h.upper c hc)

/-- Dropping keys from a list that is cut at the same key as the keys are. -/
theorem filter_notMem {ks ks' : List κ} {mk : Option κ} (hk : Around id k ks mk ks') {e : α}
    (h : Around key (key e) as (some e) cs) (hek : key e = k) :
    (as ++ e :: cs).filter (fun a => key a ∉ ks ++ mk.toList ++ ks') =
      as.filter (fun a => key a ∉ ks) ++ (if mk.isSome then [] else [e]) ++
        cs.filter (fun a => key a ∉ ks') := by
  have hlow : ∀ x ∈ ks, x < key e := fun x hx => hek ▸ hk.lower x hx
  have hup : ∀ x ∈ ks', key e < x := fun x hx => hek ▸ hk.upper x hx
  have hmid : ∀ x ∈ mk.toList, x = key e := fun x hx => hek ▸ hk.mid x (Option.mem_toList.mp hx)
  have has : as.filter (fun a => key a ∉ ks ++ mk.toList ++ ks') = as.filter (fun a => key a ∉ ks) := by
    refine List.filter_congr fun a ha => decide_eq_decide.mpr (not_congr ?_)
    have hlt := h.lower a ha
    simp only [List.mem_append]
    refine ⟨fun hmem => ?_, fun hmem => Or.inl (Or.inl hmem)⟩
    rcases hmem with (hmem | hmem) | hmem
    · exact hmem
    · exact absurd (hmid _ hmem) hlt.ne
    · exact absurd (hup _ hmem) hlt.not_gt
  have hcs : cs.filter (fun a => key a ∉ ks ++ mk.toList ++ ks') = cs.filter (fun a => key a ∉ ks') := by
    refine List.filter_congr fun c hc => decide_eq_decide.mpr (not_congr ?_)
    have hlt := h.upper c hc
    simp only [List.mem_append]
    refine ⟨fun hmem => ?_, fun hmem => Or.inr hmem⟩
    rcases hmem with (hmem | hmem) | hmem
    · exact absurd (hlow _ hmem) hlt.not_gt
    · exact absurd (hmid _ hmem) hlt.ne'
    · exact hmem
  have he : (key e ∈ ks ++ mk.toList ++ ks') ↔ mk.isSome = true := by
    simp only [List.mem_append]
    constructor
    · rintro ((hmem | hmem) | hmem)
      · exact absurd (hlow _ hmem) (lt_irrefl _)
      · exact Option.isSome_iff_exists.mpr ⟨_, Option.mem_toList.mp hmem⟩
      · exact absurd (hup _ hmem) (lt_irrefl _)
    · intro hsome
      obtain ⟨x, rfl⟩ := Option.isSome_iff_exists.mp hsome
      exact Or.inl (Or.inr (by rw [← hmid x (by simp)]; simp))
  rw [List.filter_append, has, List.filter_cons, hcs]
  simp only [decide_eq_true_eq, he]
  by_cases hsome : mk.isSome = true
  · rw [if_neg (not_not.mpr hsome), if_pos hsome, List.append_nil]
  · rw [if_pos hsome, if_neg hsome, List.append_assoc, List.singleton_append]

end Around

end SortedMerge
