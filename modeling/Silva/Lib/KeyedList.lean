import Silva.Lib.TwoPointer

/-!
# Lists as partial functions of a key

A list without repeated keys stands for the partial function that maps a key to the element with
that key. The two-pointer loops over such lists act on each key on its own: what happens at a key
depends only on the two elements that the lists have there.
-/

namespace KeyedList

open TwoPointer

variable {α κ : Type*} [LinearOrder κ] {key : α → κ}

/-- `xs` has at most one element for each key, the one that `s` gives. -/
def Denotes (key : α → κ) (xs : List α) (s : κ → Option α) : Prop :=
  ∀ k, xs.filter (fun x => key x = k) = (s k).toList

/-- The element with a given key. -/
def lookup (key : α → κ) (xs : List α) (k : κ) : Option α := xs.find? fun x => key x = k

theorem toList_inj {a b : Option α} : a.toList = b.toList ↔ a = b := by
  cases a <;> cases b <;> simp

theorem denotes_lookup {xs : List α} (h : (xs.map key).Nodup) :
    Denotes key xs (lookup key xs) := by
  intro k
  unfold lookup
  induction xs with
  | nil => rfl
  | cons x xs ih =>
    obtain ⟨hx, hxs⟩ := List.nodup_cons.mp h
    by_cases hk : key x = k
    · have hrest : xs.filter (fun y => key y = k) = [] := by
        rw [List.filter_eq_nil_iff]
        intro y hy hyk
        exact hx (List.mem_map.mpr ⟨y, hy, (of_decide_eq_true hyk).trans hk.symm⟩)
      rw [List.filter_cons_of_pos (by simpa using hk), List.find?_cons_of_pos (by simpa using hk), hrest]
      rfl
    · rw [List.filter_cons_of_neg (by simpa using hk), List.find?_cons_of_neg (by simpa using hk),
        ih hxs]

namespace Denotes

variable {xs ys : List α} {s s' : κ → Option α}

theorem mem_iff (h : Denotes key xs s) {x : α} : x ∈ xs ↔ s (key x) = some x := by
  have hx := congrArg (x ∈ ·) (h (key x))
  simpa using hx

theorem key_eq (h : Denotes key xs s) {k : κ} {x : α} (hx : s k = some x) : key x = k := by
  have hmem : x ∈ xs.filter (fun y => key y = k) := by rw [h k, hx]; simp
  simpa using (List.mem_filter.mp hmem).2

theorem mem_of_eq (h : Denotes key xs s) {k : κ} {x : α} (hx : s k = some x) : x ∈ xs := by
  rw [h.mem_iff, h.key_eq hx, hx]

theorem mem_map_key (h : Denotes key xs s) {k : κ} : k ∈ xs.map key ↔ ∃ x, s k = some x := by
  constructor
  · intro hk
    obtain ⟨x, hx, rfl⟩ := List.mem_map.mp hk
    exact ⟨x, h.mem_iff.mp hx⟩
  · rintro ⟨x, hx⟩
    exact List.mem_map.mpr ⟨x, h.mem_of_eq hx, h.key_eq hx⟩

theorem nodup (h : Denotes key xs s) : (xs.map key).Nodup := by
  rw [List.nodup_iff_count_le_one]
  intro k
  have hlen := congrArg List.length (h k)
  rw [← List.countP_eq_length_filter] at hlen
  rw [List.count_eq_countP, List.countP_map]
  have hle : (s k).toList.length ≤ 1 := by cases s k <;> simp
  simpa [Function.comp_def, beq_eq_decide] using hlen.trans_le hle

theorem perm (h : Denotes key xs s) (hp : ys.Perm xs) : Denotes key ys s := by
  intro k
  have hk := hp.filter (fun x => decide (key x = k))
  rw [h k] at hk
  cases hs : s k with
  | none => rw [hs] at hk; exact hk.eq_nil
  | some x => rw [hs] at hk; exact hk.eq_singleton

theorem filter (h : Denotes key xs s) (p : α → Bool) :
    Denotes key (xs.filter p) fun k => (s k).filter p := by
  intro k
  show _ = ((s k).filter p).toList
  rw [List.filter_comm, h k]
  cases s k with
  | none => rfl
  | some x => by_cases hp : p x = true <;> simp [Option.filter_some, hp]

/-- Appending lists that have no key in common. -/
theorem append {ss : κ → Option α} (h : Denotes key xs s) (h' : Denotes key ys s')
    (hss : ∀ k, (ss k).toList = (s k).toList ++ (s' k).toList) : Denotes key (xs ++ ys) ss := by
  intro k
  rw [List.filter_append, h k, h' k, hss k]

/-- A list that denotes something and is sorted is strictly sorted. -/
theorem pairwise_lt (h : Denotes key xs s) (hs : xs.Pairwise (key · ≤ key ·)) :
    xs.Pairwise (key · < key ·) :=
  hs.imp₂ (fun _ _ hle hne => lt_of_le_of_ne hle hne) (List.pairwise_map.mp h.nodup)

end Denotes

/-! ## Two-pointer loops key by key -/

/-- What a two-pointer loop does at a key, given the elements of the two lists there. -/
def eventAt : Option α → Option α → List (Event α)
  | none, none => []
  | some a, none => [.left a]
  | none, some b => [.right b]
  | some a, some b => [.both a b]

theorem eq_singleton_of_mem {β : Type*} {xs : List β} {x : β} (hx : x ∈ xs)
    (h : ∀ y ∈ xs, ∀ z ∈ xs, y = z) (hnd : xs.Nodup) : xs = [x] := by
  have hperm : xs.Perm [x] :=
    (List.perm_ext_iff_of_nodup hnd (List.nodup_singleton x)).mpr fun y =>
      ⟨fun hy => List.mem_singleton.mpr (h y hy x hx), fun hy => by rwa [List.mem_singleton.mp hy]⟩
  exact hperm.eq_singleton

variable {cmp : α → α → Ordering} {as bs : List α} {sa sb : κ → Option α}

/-- The iterations that deal with a key. -/
theorem events_filter_key (hcmp : ∀ a b, cmp a b = compare (key a) (key b))
    (has : as.Pairwise (key · ≤ key ·)) (hbs : bs.Pairwise (key · ≤ key ·))
    (ha : Denotes key as sa) (hb : Denotes key bs sb) (k : κ) :
    (events cmp as bs).filter (fun e => e.key key = k) = eventAt (sa k) (sb k) := by
  have has' := ha.pairwise_lt has
  have hbs' := hb.pairwise_lt hbs
  have hlt := (events_key_lt hcmp has' hbs').filter (fun e => decide (e.key key = k))
  have hnd : ((events cmp as bs).filter fun e => e.key key = k).Nodup :=
    hlt.imp fun h heq => absurd (congrArg (Event.key key) heq) h.ne
  have hone : ∀ e ∈ (events cmp as bs).filter (fun e => e.key key = k),
      ∀ f ∈ (events cmp as bs).filter (fun e => e.key key = k), e = f := by
    intro e he f hf
    have hek := of_decide_eq_true (List.mem_filter.mp he).2
    have hfk := of_decide_eq_true (List.mem_filter.mp hf).2
    have hnd' : (((events cmp as bs).filter fun e => e.key key = k).map (Event.key key)).Nodup :=
      List.pairwise_map.mpr (hlt.imp fun h => h.ne)
    exact List.inj_on_of_nodup_map hnd' he hf (hek.trans hfk.symm)
  have hmem : ∀ e, e ∈ events cmp as bs → e.key key = k →
      (events cmp as bs).filter (fun e => e.key key = k) = [e] := by
    intro e he hk
    exact eq_singleton_of_mem (List.mem_filter.mpr ⟨he, decide_eq_true hk⟩) hone hnd
  cases hsa : sa k with
  | none =>
    have hnota : k ∉ as.map key := by rw [ha.mem_map_key, hsa]; simp
    cases hsb : sb k with
    | none =>
      have hnotb : k ∉ bs.map key := by rw [hb.mem_map_key, hsb]; simp
      rw [eventAt, List.filter_eq_nil_iff]
      intro e he hk
      rcases key_of_mem_events key he with h | h
      · exact hnota (of_decide_eq_true hk ▸ h)
      · exact hnotb (of_decide_eq_true hk ▸ h)
    | some b =>
      have hbk := hb.key_eq hsb
      exact hmem (.right b) ((mem_events_right hcmp has' hbs').mpr
        ⟨hb.mem_of_eq hsb, by rwa [hbk]⟩) hbk
  | some a =>
    have hak := ha.key_eq hsa
    cases hsb : sb k with
    | none =>
      have hnotb : k ∉ bs.map key := by rw [hb.mem_map_key, hsb]; simp
      exact hmem (.left a) ((mem_events_left hcmp has' hbs').mpr
        ⟨ha.mem_of_eq hsa, by rwa [hak]⟩) hak
    | some b =>
      exact hmem (.both a b) ((mem_events_both hcmp has' hbs').mpr
        ⟨ha.mem_of_eq hsa, hb.mem_of_eq hsb, hak.trans (hb.key_eq hsb).symm⟩) hak

/-- The outputs at a key come from the iterations at that key. -/
theorem flatMap_filter_key {out : Event α → List α} {es : List (Event α)}
    (hout : ∀ e ∈ es, ∀ x ∈ out e, key x = e.key key) (k : κ) :
    (es.flatMap out).filter (fun x => key x = k) = (es.filter fun e => e.key key = k).flatMap out := by
  induction es with
  | nil => rfl
  | cons e es ih =>
    rw [List.flatMap_cons, List.filter_append, ih fun f hf => hout f (List.mem_cons_of_mem e hf)]
    have he : ∀ x ∈ out e, key x = e.key key := hout e (by simp)
    by_cases hk : e.key key = k
    · have hall : (out e).filter (fun x => key x = k) = out e :=
        List.filter_eq_self.mpr fun x hx => decide_eq_true ((he x hx).trans hk)
      rw [List.filter_cons_of_pos (by simpa using hk), List.flatMap_cons, hall]
    · have hnone : (out e).filter (fun x => key x = k) = [] :=
        List.filter_eq_nil_iff.mpr fun x hx h => hk ((he x hx).symm.trans (of_decide_eq_true h))
      rw [List.filter_cons_of_neg (by simpa using hk), hnone, List.nil_append]

end KeyedList
