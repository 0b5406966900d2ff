import Mathlib

/-!
# Two-pointer loops over keyed lists

A loop `while (i < a.size() && j < b.size())` that compares `a[i]` with `b[j]`, consumes one of them
or both, and then drains the list that is left, is determined by the sequence of elements it
consumes. `events` is that sequence; the loop itself is a fold over it. The lemmas say what the
sequence holds when both lists are sorted by a key.
-/

namespace TwoPointer

variable {α κ : Type*}

/-- What one iteration of a two-pointer loop consumes. -/
inductive Event (α : Type*) where
  /-- The keys agree: both indices advance. -/
  | both (a b : α)
  /-- The first list's element is smaller, or the second list is exhausted. -/
  | left (a : α)
  /-- The second list's element is smaller, or the first list is exhausted. -/
  | right (b : α)
  deriving DecidableEq, Repr

/-- The iterations that look at the element `a` of the first list, followed by the rest of the loop
(`next`) once `a` is consumed. -/
def scan (cmp : α → α → Ordering) (a : α) (next : List α → List (Event α)) :
    List α → List (Event α)
  | [] => .left a :: next []
  | b :: bs =>
    match cmp a b with
    | .eq => .both a b :: next bs
    | .lt => .left a :: next (b :: bs)
    | .gt => .right b :: scan cmp a next bs

/-- The events of the two-pointer loop over `as` and `bs`, in order. -/
def events (cmp : α → α → Ordering) : List α → List α → List (Event α)
  | [], bs => bs.map .right
  | a :: as, bs => scan cmp a (events cmp as) bs

/-- The elements of the first list that no element of the second one matched. -/
def lefts (es : List (Event α)) : List α :=
  es.filterMap fun | .left a => some a | _ => none

/-- The elements of the second list that no element of the first one matched. -/
def rights (es : List (Event α)) : List α :=
  es.filterMap fun | .right b => some b | _ => none

/-- The key an iteration deals with; where both elements are consumed the keys agree. -/
def Event.key (key : α → κ) : Event α → κ
  | .both a _ => key a
  | .left a => key a
  | .right b => key b

/-- Exchanging the two lists. -/
def Event.swap : Event α → Event α
  | .both a b => .both b a
  | .left a => .right a
  | .right b => .left b

section Basic

variable {cmp : α → α → Ordering}

@[simp] theorem events_nil_left (bs : List α) : events cmp [] bs = bs.map .right := rfl

theorem events_cons_nil (a : α) (as : List α) :
    events cmp (a :: as) [] = .left a :: events cmp as [] := rfl

@[simp] theorem events_nil_right (as : List α) : events cmp as [] = as.map .left := by
  induction as with
  | nil => rfl
  | cons a as ih => rw [events_cons_nil, ih]; rfl

theorem events_cons_eq {a b : α} (h : cmp a b = .eq) (as bs : List α) :
    events cmp (a :: as) (b :: bs) = .both a b :: events cmp as bs := by
  simp [events, scan, h]

theorem events_cons_lt {a b : α} (h : cmp a b = .lt) (as bs : List α) :
    events cmp (a :: as) (b :: bs) = .left a :: events cmp as (b :: bs) := by
  simp [events, scan, h]

theorem events_cons_gt {a b : α} (h : cmp a b = .gt) (as bs : List α) :
    events cmp (a :: as) (b :: bs) = .right b :: events cmp (a :: as) bs := by
  simp [events, scan, h]

@[simp] theorem lefts_nil : lefts ([] : List (Event α)) = [] := rfl
@[simp] theorem rights_nil : rights ([] : List (Event α)) = [] := rfl
@[simp] theorem lefts_both (a b : α) (es) : lefts (.both a b :: es) = lefts es := rfl
@[simp] theorem lefts_left (a : α) (es) : lefts (.left a :: es) = a :: lefts es := rfl
@[simp] theorem lefts_right (b : α) (es) : lefts (.right b :: es) = lefts es := rfl
@[simp] theorem rights_both (a b : α) (es) : rights (.both a b :: es) = rights es := rfl
@[simp] theorem rights_left (a : α) (es) : rights (.left a :: es) = rights es := rfl
@[simp] theorem rights_right (b : α) (es) : rights (.right b :: es) = b :: rights es := rfl

@[simp] theorem lefts_append (es fs : List (Event α)) :
    lefts (es ++ fs) = lefts es ++ lefts fs := by simp [lefts]

@[simp] theorem rights_append (es fs : List (Event α)) :
    rights (es ++ fs) = rights es ++ rights fs := by simp [rights]

@[simp] theorem lefts_map_left (as : List α) : lefts (as.map .left) = as := by
  induction as with
  | nil => rfl
  | cons a as ih => simp [ih]

@[simp] theorem lefts_map_right (bs : List α) : lefts (bs.map .right) = [] := by
  induction bs with
  | nil => rfl
  | cons b bs ih => simp [ih]

@[simp] theorem rights_map_left (as : List α) : rights (as.map .left) = [] := by
  induction as with
  | nil => rfl
  | cons a as ih => simp [ih]

@[simp] theorem rights_map_right (bs : List α) : rights (bs.map .right) = bs := by
  induction bs with
  | nil => rfl
  | cons b bs ih => simp [ih]

theorem mem_lefts {a : α} {es : List (Event α)} : a ∈ lefts es ↔ .left a ∈ es := by
  induction es with
  | nil => simp
  | cons e es ih => cases e <;> simp [ih]

theorem mem_rights {b : α} {es : List (Event α)} : b ∈ rights es ↔ .right b ∈ es := by
  induction es with
  | nil => simp
  | cons e es ih => cases e <;> simp [ih]

theorem lefts_map_swap (es : List (Event α)) : lefts (es.map Event.swap) = rights es := by
  induction es with
  | nil => rfl
  | cons e es ih => cases e <;> simp [Event.swap, ih]

/-- Induction along a two-pointer loop: the next iteration may advance either index or both. -/
theorem pair_induction {motive : List α → List α → Prop} (nil_left : ∀ bs, motive [] bs)
    (cons_nil : ∀ a as, motive as [] → motive (a :: as) [])
    (cons_cons : ∀ a as b bs, motive as bs → motive as (b :: bs) → motive (a :: as) bs →
      motive (a :: as) (b :: bs)) :
    ∀ as bs, motive as bs := by
  intro as
  induction as with
  | nil => exact nil_left
  | cons a as iha =>
    intro bs
    induction bs with
    | nil => exact cons_nil a as (iha [])
    | cons b bs ihb => exact cons_cons a as b bs (iha bs) (iha (b :: bs)) ihb

/-- A loop over two lists that are each cut at one place, everything before the cut being smaller
than everything after it, is the loop over the first parts followed by the loop over the second. -/
theorem events_append {as bs cs ds : List α} (had : ∀ a ∈ as, ∀ d ∈ ds, cmp a d = .lt)
    (hcb : ∀ c ∈ cs, ∀ b ∈ bs, cmp c b = .gt) :
    events cmp (as ++ cs) (bs ++ ds) = events cmp as bs ++ events cmp cs ds := by
  induction as, bs using pair_induction with
  | nil_left bs =>
    induction bs with
    | nil => simp
    | cons b bs ih =>
      have ih' := ih (fun c hc b' hb' => hcb c hc b' (List.mem_cons_of_mem _ hb'))
      cases cs with
      | nil => simp
      | cons c cs =>
        have hc : cmp c b = .gt := hcb c (by simp) b (by simp)
        simpa [events_cons_gt hc] using ih'
  | cons_nil a as ih =>
    have ih' := ih (fun x hx => had x (List.mem_cons_of_mem _ hx)) (by simp)
    cases ds with
    | nil => simp
    | cons d ds =>
      have ha : cmp a d = .lt := had a (by simp) d (by simp)
      simpa [events_cons_lt ha, events_cons_nil] using ih'
  | cons_cons a as b bs ihab ihb iha =>
    have had' : ∀ x ∈ as, ∀ d ∈ ds, cmp x d = .lt := fun x hx => had x (List.mem_cons_of_mem _ hx)
    have hcb' : ∀ c ∈ cs, ∀ y ∈ bs, cmp c y = .gt :=
      fun c hc y hy => hcb c hc y (List.mem_cons_of_mem _ hy)
    rcases h : cmp a b with _ | _ | _
    · simpa [events_cons_lt h] using ihb had' hcb
    · simp [events_cons_eq h, ihab had' hcb']
    · simpa [events_cons_gt h] using iha had hcb'

/-- Every iteration deals with a key of one of the two lists. -/
theorem key_of_mem_events (key : α → κ) {as bs : List α} {e : Event α} (he : e ∈ events cmp as bs) :
    e.key key ∈ as.map key ∨ e.key key ∈ bs.map key := by
  induction as, bs using pair_induction with
  | nil_left bs =>
    obtain ⟨b, hb, rfl⟩ := List.mem_map.mp he
    exact Or.inr (List.mem_map_of_mem hb)
  | cons_nil a as ih =>
    rw [events_nil_right] at he
    obtain ⟨b, hb, rfl⟩ := List.mem_map.mp he
    exact Or.inl (List.mem_map_of_mem hb)
  | cons_cons a as b bs ihab ihb iha =>
    rcases h : cmp a b with _ | _ | _
    · rw [events_cons_lt h] at he
      rcases List.mem_cons.mp he with rfl | he
      · simp [Event.key]
      · exact (ihb he).imp_left (List.mem_cons_of_mem _)
    · rw [events_cons_eq h] at he
      rcases List.mem_cons.mp he with rfl | he
      · simp [Event.key]
      · exact (ihab he).imp (List.mem_cons_of_mem _) (List.mem_cons_of_mem _)
    · rw [events_cons_gt h] at he
      rcases List.mem_cons.mp he with rfl | he
      · simp [Event.key]
      · exact (iha he).imp_right (List.mem_cons_of_mem _)

/-- The element an iteration outputs when it outputs one. -/
def Event.out : Event α → α
  | .both a _ => a
  | .left a => a
  | .right b => b

/-- The stable merge of two lists sorted by `less`: on ties the first list goes first. -/
def stableMerge (less : α → α → Bool) (as bs : List α) : List α :=
  (events (fun a b => if less b a then .gt else .lt) as bs).map Event.out

theorem stableMerge_eq_merge (less : α → α → Bool) (as bs : List α) :
    stableMerge less as bs = List.merge as bs (fun a b => !less b a) := by
  unfold stableMerge
  induction as, bs using pair_induction with
  | nil_left bs => simp [Event.out, Function.comp_def]
  | cons_nil a as ih => simp [Event.out, Function.comp_def]
  | cons_cons a as b bs ihab ihb iha =>
    rw [List.cons_merge_cons]
    cases h : less b a with
    | true => rw [events_cons_gt (by simp [h])]; simp [Event.out, iha]
    | false => rw [events_cons_lt (by simp [h])]; simp [Event.out, ihb]

theorem stableMerge_perm (less : α → α → Bool) (as bs : List α) :
    (stableMerge less as bs).Perm (as ++ bs) := by
  rw [stableMerge_eq_merge]
  exact List.merge_perm_append _

theorem stableMerge_append {less : α → α → Bool} {as bs cs ds : List α}
    (had : ∀ a ∈ as, ∀ d ∈ ds, less d a = false) (hcb : ∀ c ∈ cs, ∀ b ∈ bs, less b c = true) :
    stableMerge less (as ++ cs) (bs ++ ds) = stableMerge less as bs ++ stableMerge less cs ds := by
  unfold stableMerge
  rw [events_append, List.map_append]
  · intro a ha d hd; simp [had a ha d hd]
  · intro c hc b hb; simp [hcb c hc b hb]

end Basic

/-- Subtracting a multiset that does not contain the head. -/
theorem cons_sub_of_notMem [DecidableEq κ] {k : κ} {s t : Multiset κ} (h : k ∉ t) :
    k ::ₘ s - t = k ::ₘ (s - t) := by
  ext x
  have hk := Multiset.count_eq_zero_of_notMem h
  by_cases hx : x = k
  · subst hx; simp [Multiset.count_sub, hk]
  · simp [Multiset.count_sub, Multiset.count_cons_of_ne hx]

section Keyed

variable [LinearOrder κ] {key : α → κ} {cmp : α → α → Ordering}
  (hcmp : ∀ a b, cmp a b = compare (key a) (key b))

include hcmp

/-- Comparing by a key is symmetric, and so is the loop. -/
theorem events_swap (as bs : List α) :
    (events cmp as bs).map Event.swap = events cmp bs as := by
  induction as, bs using pair_induction with
  | nil_left bs => simp [Event.swap]
  | cons_nil a as ih => simp [Event.swap]
  | cons_cons a as b bs ihab ihb iha =>
    rcases lt_trichotomy (key a) (key b) with h | h | h
    · have h1 : cmp a b = .lt := by rw [hcmp]; exact compare_lt_iff_lt.mpr h
      have h2 : cmp b a = .gt := by rw [hcmp]; exact compare_gt_iff_gt.mpr h
      simp [events_cons_lt h1, events_cons_gt h2, Event.swap, ihb]
    · have h1 : cmp a b = .eq := by rw [hcmp]; exact compare_eq_iff_eq.mpr h
      have h2 : cmp b a = .eq := by rw [hcmp]; exact compare_eq_iff_eq.mpr h.symm
      simp [events_cons_eq h1, events_cons_eq h2, Event.swap, ihab]
    · have h1 : cmp a b = .gt := by rw [hcmp]; exact compare_gt_iff_gt.mpr h
      have h2 : cmp b a = .lt := by rw [hcmp]; exact compare_lt_iff_lt.mpr h
      simp [events_cons_gt h1, events_cons_lt h2, Event.swap, iha]

/-- A list against itself: every element is matched, by itself. -/
theorem events_self (as : List α) : events cmp as as = as.map fun a => .both a a := by
  induction as with
  | nil => rfl
  | cons a as ih =>
    have h : cmp a a = .eq := by rw [hcmp]; exact compare_eq_iff_eq.mpr rfl
    simp [events_cons_eq h, ih]

theorem rights_events (as bs : List α) :
    rights (events cmp as bs) = lefts (events cmp bs as) := by
  rw [← events_swap hcmp as bs, lefts_map_swap]

/-- When the second list names no key that the first one repeats, the unmatched elements of the first
one are those whose key the second one does not have. -/
theorem lefts_events_of_once {as bs : List α} (has : as.Pairwise (key · ≤ key ·))
    (hbs : bs.Pairwise (key · ≤ key ·))
    (honce : as.Pairwise fun x y => key x = key y → key x ∉ bs.map key) :
    lefts (events cmp as bs) = as.filter (fun a => key a ∉ bs.map key) := by
  induction as, bs using pair_induction with
  | nil_left bs => simp
  | cons_nil a as ih => simp
  | cons_cons a as b bs ihab ihb iha =>
    obtain ⟨haa, has'⟩ := List.pairwise_cons.mp has
    obtain ⟨hbb, hbs'⟩ := List.pairwise_cons.mp hbs
    obtain ⟨honcea, honce'⟩ := List.pairwise_cons.mp honce
    rcases lt_trichotomy (key a) (key b) with h | h | h
    · have h1 : cmp a b = .lt := by rw [hcmp]; exact compare_lt_iff_lt.mpr h
      have hnot : key a ∉ (b :: bs).map key := by
        simp only [List.map_cons, List.mem_cons, List.mem_map, not_or, not_exists, not_and]
        exact ⟨h.ne, fun x hx he => absurd (hbb x hx) (by rw [he]; exact not_le.mpr h)⟩
      rw [events_cons_lt h1, lefts_left, ihb has' hbs honce',
        List.filter_cons_of_pos (by simpa using hnot)]
    · have h1 : cmp a b = .eq := by rw [hcmp]; exact compare_eq_iff_eq.mpr h
      have hsub : ∀ {k}, k ∉ (b :: bs).map key → k ∉ bs.map key :=
        fun hk hmem => hk (List.mem_cons_of_mem _ hmem)
      rw [events_cons_eq h1, lefts_both, ihab has' hbs' (honce'.imp fun hxy heq => hsub (hxy heq)),
        List.filter_cons_of_neg (by simp [h])]
      refine List.filter_congr fun x hx => ?_
      have hne : key x ≠ key b := fun heq =>
        honcea x hx (h.trans heq.symm) (h ▸ List.mem_cons_self)
      simp [hne]
    · have h1 : cmp a b = .gt := by rw [hcmp]; exact compare_gt_iff_gt.mpr h
      rw [events_cons_gt h1, lefts_right,
        iha has hbs' (honce.imp fun hxy heq hmem => hxy heq (List.mem_cons_of_mem _ hmem))]
      refine List.filter_congr fun x hx => ?_
      have hne : key x ≠ key b := by
        rcases List.mem_cons.mp hx with rfl | hx
        · exact h.ne'
        · exact (h.trans_le (haa x hx)).ne'
      simp [hne]

/-- Without repetitions in the first list, its unmatched elements are the ones whose key the second
list does not have. -/
theorem lefts_events {as bs : List α} (has : as.Pairwise (key · < key ·))
    (hbs : bs.Pairwise (key · ≤ key ·)) :
    lefts (events cmp as bs) = as.filter (fun a => key a ∉ bs.map key) :=
  lefts_events_of_once hcmp (has.imp le_of_lt) hbs (has.imp fun hlt heq => absurd heq hlt.ne)

/-- An element whose key the second list lacks stays unmatched. -/
theorem mem_lefts_events_of_key {as bs : List α} {x : α} (hx : x ∈ as) (hkey : key x ∉ bs.map key) :
    x ∈ lefts (events cmp as bs) := by
  induction as, bs using pair_induction with
  | nil_left bs => exact absurd hx List.not_mem_nil
  | cons_nil a as ih => simpa using hx
  | cons_cons a as b bs ihab ihb iha =>
    obtain ⟨hne, hrest⟩ := not_or.mp (mt List.mem_cons.mpr hkey)
    rcases h : cmp a b with _ | _ | _
    · rw [events_cons_lt h, lefts_left]
      rcases List.mem_cons.mp hx with rfl | hx
      · exact List.mem_cons_self
      · exact List.mem_cons_of_mem a (ihb hx hkey)
    · rw [events_cons_eq h, lefts_both]
      rw [hcmp] at h
      rcases List.mem_cons.mp hx with rfl | hx
      · exact absurd (compare_eq_iff_eq.mp h) hne
      · exact ihab hx hrest
    · rw [events_cons_gt h, lefts_right]
      exact iha hx hrest

/-- With repetitions, the unmatched keys are the difference of the two multisets of keys. -/
theorem lefts_events_keys {as bs : List α} (has : as.Pairwise (key · ≤ key ·))
    (hbs : bs.Pairwise (key · ≤ key ·)) :
    ((lefts (events cmp as bs)).map key : Multiset κ) =
      (as.map key : Multiset κ) - (bs.map key : Multiset κ) := by
  induction as, bs using pair_induction with
  | nil_left bs => simp
  | cons_nil a as ih => simp
  | cons_cons a as b bs ihab ihb iha =>
    obtain ⟨haa, has'⟩ := List.pairwise_cons.mp has
    obtain ⟨hbb, hbs'⟩ := List.pairwise_cons.mp hbs
    rcases lt_trichotomy (key a) (key b) with h | h | h
    · have h1 : cmp a b = .lt := by rw [hcmp]; exact compare_lt_iff_lt.mpr h
      have hnot : key a ∉ ((b :: bs).map key : Multiset κ) := by
        simp only [Multiset.mem_coe, List.mem_map, not_exists, not_and]
        intro x hx
        rcases List.mem_cons.mp hx with rfl | hx
        · exact h.ne'
        · exact (h.trans_le (hbb x hx)).ne'
      rw [events_cons_lt h1, lefts_left, List.map_cons, ← Multiset.cons_coe, ihb has' hbs,
        List.map_cons (l := as), ← Multiset.cons_coe (key a) (as.map key)]
      exact (cons_sub_of_notMem hnot).symm
    · have h1 : cmp a b = .eq := by rw [hcmp]; exact compare_eq_iff_eq.mpr h
      rw [events_cons_eq h1, lefts_both, ihab has' hbs', List.map_cons, List.map_cons,
        ← Multiset.cons_coe, ← Multiset.cons_coe, Multiset.sub_cons, h, Multiset.erase_cons_head]
    · have h1 : cmp a b = .gt := by rw [hcmp]; exact compare_gt_iff_gt.mpr h
      have hnot : key b ∉ ((a :: as).map key : Multiset κ) := by
        simp only [Multiset.mem_coe, List.mem_map, not_exists, not_and]
        intro x hx
        rcases List.mem_cons.mp hx with rfl | hx
        · exact h.ne'
        · exact (h.trans_le (haa x hx)).ne'
      rw [events_cons_gt h1, lefts_right, iha has hbs', List.map_cons (l := bs),
        ← Multiset.cons_coe (key b), Multiset.sub_cons, Multiset.erase_of_notMem hnot]

/-- In no order at all, the second list takes at most its own keys out of the first one. -/
theorem keys_le_lefts_events_add (as bs : List α) :
    (as.map key : Multiset κ) ≤
      ((lefts (events cmp as bs)).map key : Multiset κ) + (bs.map key : Multiset κ) := by
  induction as, bs using pair_induction with
  | nil_left bs => exact Multiset.zero_le _
  | cons_nil a as ih => simp
  | cons_cons a as b bs ihab ihb iha =>
    rw [List.map_cons, ← Multiset.cons_coe (key a) (as.map key)]
    rcases h : cmp a b with _ | _ | _
    · rw [events_cons_lt h, lefts_left, List.map_cons, ← Multiset.cons_coe, Multiset.cons_add]
      exact Multiset.cons_le_cons _ ihb
    · rw [hcmp] at h
      rw [events_cons_eq (by rw [hcmp]; exact h), lefts_both, List.map_cons (l := bs),
        ← Multiset.cons_coe (key b), Multiset.add_cons, compare_eq_iff_eq.mp h]
      exact Multiset.cons_le_cons _ ihab
    · rw [events_cons_gt h, lefts_right, List.map_cons (l := bs), ← Multiset.cons_coe (key b),
        Multiset.add_cons, Multiset.cons_coe (key a), ← List.map_cons]
      exact iha.trans (Multiset.le_cons_self _ _)

/-- Over lists without repetitions the loop deals with each key once, in increasing order. -/
theorem events_key_lt {as bs : List α} (has : as.Pairwise (key · < key ·))
    (hbs : bs.Pairwise (key · < key ·)) :
    (events cmp as bs).Pairwise (fun e f => e.key key < f.key key) := by
  induction as, bs using pair_induction with
  | nil_left bs => simpa [List.pairwise_map, Event.key] using hbs
  | cons_nil a as ih => simpa [List.pairwise_map, Event.key] using has
  | cons_cons a as b bs ihab ihb iha =>
    obtain ⟨haa, has'⟩ := List.pairwise_cons.mp has
    obtain ⟨hbb, hbs'⟩ := List.pairwise_cons.mp hbs
    have hkey : ∀ {xs ys : List α} {k : κ}, (∀ x ∈ xs, k < key x) → (∀ y ∈ ys, k < key y) →
        ∀ e ∈ events cmp xs ys, k < e.key key := by
      intro xs ys k hx hy e he
      rcases key_of_mem_events key he with h | h
      · obtain ⟨x, hxm, hxe⟩ := List.mem_map.mp h; rw [← hxe]; exact hx x hxm
      · obtain ⟨y, hym, hye⟩ := List.mem_map.mp h; rw [← hye]; exact hy y hym
    rcases lt_trichotomy (key a) (key b) with h | h | h
    · have h1 : cmp a b = .lt := by rw [hcmp]; exact compare_lt_iff_lt.mpr h
      rw [events_cons_lt h1]
      refine List.pairwise_cons.mpr ⟨hkey haa fun y hy => ?_, ihb has' hbs⟩
      rcases List.mem_cons.mp hy with rfl | hy
      · exact h
      · exact h.trans (hbb y hy)
    · have h1 : cmp a b = .eq := by rw [hcmp]; exact compare_eq_iff_eq.mpr h
      rw [events_cons_eq h1]
      exact List.pairwise_cons.mpr ⟨hkey haa fun y hy => by
        rw [Event.key, h]; exact hbb y hy, ihab has' hbs'⟩
    · have h1 : cmp a b = .gt := by rw [hcmp]; exact compare_gt_iff_gt.mpr h
      rw [events_cons_gt h1]
      refine List.pairwise_cons.mpr ⟨hkey (fun x hx => ?_) hbb, iha has hbs'⟩
      rcases List.mem_cons.mp hx with rfl | hx
      · exact h
      · exact h.trans (haa x hx)

/-- Two elements are consumed together exactly when they have the same key. -/
theorem mem_events_both {as bs : List α} (has : as.Pairwise (key · < key ·))
    (hbs : bs.Pairwise (key · < key ·)) {a b : α} :
    .both a b ∈ events cmp as bs ↔ a ∈ as ∧ b ∈ bs ∧ key a = key b := by
  induction as, bs using pair_induction with
  | nil_left bs => simp
  | cons_nil x as ih => simp
  | cons_cons x as y bs ihab ihb iha =>
    obtain ⟨haa, has'⟩ := List.pairwise_cons.mp has
    obtain ⟨hbb, hbs'⟩ := List.pairwise_cons.mp hbs
    rcases lt_trichotomy (key x) (key y) with h | h | h
    · have h1 : cmp x y = .lt := by rw [hcmp]; exact compare_lt_iff_lt.mpr h
      have hx : ∀ z ∈ y :: bs, key x ≠ key z := by
        intro z hz
        rcases List.mem_cons.mp hz with rfl | hz
        · exact h.ne
        · exact (h.trans (hbb z hz)).ne
      rw [events_cons_lt h1, List.mem_cons, ihb has' hbs]
      constructor
      · rintro (h | ⟨ha, hb, he⟩)
        · cases h
        · exact ⟨List.mem_cons_of_mem _ ha, hb, he⟩
      · rintro ⟨ha, hb, he⟩
        rcases List.mem_cons.mp ha with rfl | ha
        · exact absurd he (hx b hb)
        · exact Or.inr ⟨ha, hb, he⟩
    · have h1 : cmp x y = .eq := by rw [hcmp]; exact compare_eq_iff_eq.mpr h
      rw [events_cons_eq h1, List.mem_cons, ihab has' hbs']
      constructor
      · rintro (h' | ⟨ha, hb, he⟩)
        · cases h'; exact ⟨by simp, by simp, h⟩
        · exact ⟨List.mem_cons_of_mem _ ha, List.mem_cons_of_mem _ hb, he⟩
      · rintro ⟨ha, hb, he⟩
        rcases List.mem_cons.mp ha with rfl | ha <;> rcases List.mem_cons.mp hb with rfl | hb
        · exact Or.inl rfl
        · exact absurd (he ▸ h : key b = key y) (hbb b hb).ne'
        · exact absurd (he.trans h.symm) (haa a ha).ne'
        · exact Or.inr ⟨ha, hb, he⟩
    · have h1 : cmp x y = .gt := by rw [hcmp]; exact compare_gt_iff_gt.mpr h
      have hy : ∀ z ∈ x :: as, key z ≠ key y := by
        intro z hz
        rcases List.mem_cons.mp hz with rfl | hz
        · exact h.ne'
        · exact (h.trans (haa z hz)).ne'
      rw [events_cons_gt h1, List.mem_cons, iha has hbs']
      constructor
      · rintro (h | ⟨ha, hb, he⟩)
        · cases h
        · exact ⟨ha, List.mem_cons_of_mem _ hb, he⟩
      · rintro ⟨ha, hb, he⟩
        rcases List.mem_cons.mp hb with rfl | hb
        · exact absurd he (hy a ha)
        · exact Or.inr ⟨ha, hb, he⟩

theorem mem_events_left {as bs : List α} (has : as.Pairwise (key · < key ·))
    (hbs : bs.Pairwise (key · < key ·)) {a : α} :
    .left a ∈ events cmp as bs ↔ a ∈ as ∧ key a ∉ bs.map key := by
  rw [← mem_lefts, lefts_events hcmp has (hbs.imp le_of_lt)]
  simp

theorem mem_events_right {as bs : List α} (has : as.Pairwise (key · < key ·))
    (hbs : bs.Pairwise (key · < key ·)) {b : α} :
    .right b ∈ events cmp as bs ↔ b ∈ bs ∧ key b ∉ as.map key := by
  rw [← mem_rights, rights_events hcmp, lefts_events hcmp hbs (has.imp le_of_lt)]
  simp

end Keyed

/-- Merging keeps lists sorted, by any relation that the comparison decides between the lists. -/
theorem stableMerge_pairwise {r : α → α → Prop} [IsTrans α r] {less : α → α → Bool}
    {as bs : List α} (hgt : ∀ a ∈ as, ∀ b ∈ bs, less b a = true → r b a)
    (hle : ∀ a ∈ as, ∀ b ∈ bs, less b a = false → r a b) (has : as.Pairwise r)
    (hbs : bs.Pairwise r) : (stableMerge less as bs).Pairwise r := by
  induction as, bs using pair_induction with
  | nil_left bs => rwa [stableMerge_eq_merge, List.nil_merge]
  | cons_nil a as ih => rwa [stableMerge_eq_merge, List.merge_right]
  | cons_cons a as b bs ihab ihb iha =>
    obtain ⟨ha, has'⟩ := List.pairwise_cons.mp has
    obtain ⟨hb, hbs'⟩ := List.pairwise_cons.mp hbs
    cases h : less b a with
    | true =>
      have hba := hgt a List.mem_cons_self b List.mem_cons_self h
      have hstep : stableMerge less (a :: as) (b :: bs) = b :: stableMerge less (a :: as) bs := by
        unfold stableMerge
        rw [events_cons_gt (by rw [h]; rfl)]
        rfl
      rw [hstep]
      refine List.pairwise_cons.mpr ⟨fun x hx => ?_,
        iha (fun a ha b hb => hgt a ha b (List.mem_cons_of_mem _ hb))
          (fun a ha b hb => hle a ha b (List.mem_cons_of_mem _ hb)) has hbs'⟩
      rcases List.mem_append.mp ((stableMerge_perm less (a :: as) bs).mem_iff.mp hx) with hx | hx
      · rcases List.mem_cons.mp hx with rfl | hx
        · exact hba
        · exact IsTrans.trans b a x hba (ha x hx)
      · exact hb x hx
    | false =>
      have hab := hle a List.mem_cons_self b List.mem_cons_self h
      have hstep : stableMerge less (a :: as) (b :: bs) = a :: stableMerge less as (b :: bs) := by
        unfold stableMerge
        rw [events_cons_lt (by rw [h]; rfl)]
        rfl
      rw [hstep]
      refine List.pairwise_cons.mpr ⟨fun x hx => ?_,
        ihb (fun a ha b hb => hgt a (List.mem_cons_of_mem _ ha) b hb)
          (fun a ha b hb => hle a (List.mem_cons_of_mem _ ha) b hb) has' hbs⟩
      rcases List.mem_append.mp ((stableMerge_perm less as (b :: bs)).mem_iff.mp hx) with hx | hx
      · exact ha x hx
      · rcases List.mem_cons.mp hx with rfl | hx
        · exact hab
        · exact IsTrans.trans a b x hab (hb x hx)

/-- Merging by a key keeps lists sorted. -/
theorem stableMerge_sorted [LinearOrder κ] {key : α → κ} {less : α → α → Bool}
    (hless : ∀ a b, less a b = true ↔ key a < key b) {as bs : List α}
    (has : as.Pairwise (key · ≤ key ·)) (hbs : bs.Pairwise (key · ≤ key ·)) :
    (stableMerge less as bs).Pairwise (key · ≤ key ·) := by
  have : IsTrans α (key · ≤ key ·) := ⟨fun _ _ _ h1 h2 => h1.trans h2⟩
  refine stableMerge_pairwise (fun a _ b _ h => ((hless b a).mp h).le) (fun a _ b _ h => ?_) has hbs
  rw [← Bool.not_eq_true, hless, not_lt] at h
  exact h

end TwoPointer
