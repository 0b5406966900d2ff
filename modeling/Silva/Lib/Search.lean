import Mathlib

/-!
# Partition points of monotone predicates

The search for the first index at which a predicate fails: bisection while the range is longer than
a window, then a linear scan of what is left.
-/

namespace Search

/-- Bisection: halves `[start, stop)` while it is longer than `window`. -/
def narrow (f : Nat → Bool) (window : Nat) : Nat → Nat → Nat → Nat × Nat
  | 0, start, stop => (start, stop)
  | fuel + 1, start, stop =>
    if stop - start > window then
      let mid := (start + stop) / 2
      if !f mid then narrow f window fuel start mid else narrow f window fuel (mid + 1) stop
    else (start, stop)

/-- The first of the `n` indices from `i` on at which `f` fails, or `i + n`. -/
def scan (f : Nat → Bool) : Nat → Nat → Nat
  | 0, i => i
  | n + 1, i => if !f i then i else scan f n (i + 1)

/-- Bisection down to the window, then the scan. Every bisection step shortens the range, so
`r - l` of them are enough. -/
def partitionPoint (f : Nat → Bool) (window l r : Nat) : Nat :=
  let (start, stop) := narrow f window (r - l) l r
  scan f (stop - start) start

/-- The predicate holds on `[l, k)` and fails on `[k, r)`. -/
structure Splits (f : Nat → Bool) (l k r : Nat) : Prop where
  left_le : l ≤ k
  le_right : k ≤ r
  iff : ∀ i, l ≤ i → i < r → (f i = true ↔ i < k)

theorem Splits.narrow {f : Nat → Bool} {k window : Nat} : ∀ {fuel start stop : Nat},
    Splits f start k stop →
      Splits f (narrow f window fuel start stop).1 k (narrow f window fuel start stop).2 := by
  intro fuel
  induction fuel with
  | zero => intro start stop h; exact h
  | succ fuel ih =>
    intro start stop h
    unfold Search.narrow
    split_ifs with hw
    · have hmid := h.iff ((start + stop) / 2) (by omega) (by omega)
      cases hf : f ((start + stop) / 2) with
      | false =>
        have hk : k ≤ (start + stop) / 2 := by
          by_contra hc; rw [hf] at hmid; exact absurd (hmid.mpr (by omega)) (by simp)
        simpa [hf] using ih ⟨h.left_le, hk, fun i h1 h2 => h.iff i h1 (by omega)⟩
      | true =>
        have hk : (start + stop) / 2 < k := hmid.mp hf
        simpa [hf] using ih ⟨hk, h.le_right, fun i h1 h2 => h.iff i (by omega) h2⟩
    · exact h

theorem Splits.scan {f : Nat → Bool} {k : Nat} : ∀ {n i : Nat}, Splits f i k (i + n) →
    scan f n i = k := by
  intro n
  induction n with
  | zero => intro i h; exact le_antisymm h.left_le h.le_right
  | succ n ih =>
    intro i h
    have hi := h.iff i le_rfl (by omega)
    cases hf : f i with
    | false =>
      have hle : k ≤ i := by
        by_contra hc; rw [hf] at hi; exact absurd (hi.mpr (by omega)) (by simp)
      simpa [Search.scan, hf] using le_antisymm h.left_le hle
    | true =>
      have hlt : i < k := hi.mp hf
      have hn : Splits f (i + 1) k (i + 1 + n) :=
        ⟨hlt, by have := h.le_right; omega, fun j h1 h2 => h.iff j (by omega) (by omega)⟩
      simpa [Search.scan, hf] using ih hn

/-- The search finds the partition point. -/
theorem Splits.partitionPoint_eq {f : Nat → Bool} {window l k r : Nat} (h : Splits f l k r) :
    partitionPoint f window l r = k := by
  have hn : Splits f (Search.narrow f window (r - l) l r).1 k
      (Search.narrow f window (r - l) l r).2 := h.narrow
  have hle := hn.left_le.trans hn.le_right
  apply Splits.scan
  rw [Nat.add_sub_cancel' hle]
  exact hn

/-! ## Probes that can fail -/

/-- `narrow` with a predicate that may not have a value. -/
def narrowM (f : Nat → Option Bool) (window : Nat) : Nat → Nat → Nat → Option (Nat × Nat)
  | 0, start, stop => some (start, stop)
  | fuel + 1, start, stop =>
    if stop - start > window then do
      let mid := (start + stop) / 2
      if !(← f mid) then narrowM f window fuel start mid else narrowM f window fuel (mid + 1) stop
    else some (start, stop)

/-- `scan` with a predicate that may not have a value. -/
def scanM (f : Nat → Option Bool) : Nat → Nat → Option Nat
  | 0, i => some i
  | n + 1, i => do if !(← f i) then some i else scanM f n (i + 1)

/-- `partitionPoint` with a predicate that may not have a value. -/
def partitionPointM (f : Nat → Option Bool) (window l r : Nat) : Option Nat := do
  let (start, stop) ← narrowM f window (r - l) l r
  scanM f (stop - start) start

/-- Bisection never leaves its range, so values on the range are enough for it. -/
theorem narrowM_eq {f : Nat → Option Bool} {g : Nat → Bool} {window : Nat} :
    ∀ {fuel start stop : Nat}, start ≤ stop → (∀ i, start ≤ i → i < stop → f i = some (g i)) →
      narrowM f window fuel start stop = some (narrow g window fuel start stop) ∧
        start ≤ (narrow g window fuel start stop).1 ∧
        (narrow g window fuel start stop).1 ≤ (narrow g window fuel start stop).2 ∧
        (narrow g window fuel start stop).2 ≤ stop := by
  intro fuel
  induction fuel with
  | zero => exact fun hle _ => ⟨rfl, le_rfl, hle, le_rfl⟩
  | succ fuel ih =>
    intro start stop hle hf
    rw [narrowM, narrow]
    by_cases hw : stop - start > window
    · have hstart : start ≤ (start + stop) / 2 := by omega
      have hstop : (start + stop) / 2 < stop := by omega
      rw [if_pos hw, if_pos hw]
      dsimp only
      rw [hf _ hstart hstop]
      cases g ((start + stop) / 2) with
      | false =>
        obtain ⟨heq, h1, h2, h3⟩ := ih hstart fun i hi hi' => hf i hi (by omega)
        exact ⟨heq, h1, h2, by simpa using h3.trans hstop.le⟩
      | true =>
        obtain ⟨heq, h1, h2, h3⟩ := ih hstop fun i hi hi' => hf i (by omega) hi'
        exact ⟨heq, by simpa using (Nat.le_succ_of_le hstart).trans h1, h2, h3⟩
    · rw [if_neg hw, if_neg hw]
      exact ⟨rfl, le_rfl, hle, le_rfl⟩

theorem scanM_eq {f : Nat → Option Bool} {g : Nat → Bool} : ∀ {n i : Nat},
    (∀ j, i ≤ j → j < i + n → f j = some (g j)) → scanM f n i = some (scan g n i) := by
  intro n
  induction n with
  | zero => exact fun _ => rfl
  | succ n ih =>
    intro i hf
    rw [scanM, scan, hf i le_rfl (by omega), Option.bind_eq_bind, Option.bind_some]
    cases g i with
    | false => rfl
    | true => exact ih fun j hj hj' => hf j (by omega) (by omega)

/-- A search only probes its range. -/
theorem partitionPointM_eq {f : Nat → Option Bool} {g : Nat → Bool} {window l r : Nat} (hle : l ≤ r)
    (hf : ∀ i, l ≤ i → i < r → f i = some (g i)) :
    partitionPointM f window l r = some (partitionPoint g window l r) := by
  obtain ⟨heq, h1, h2, h3⟩ := @narrowM_eq f g window (r - l) l r hle hf
  unfold partitionPointM partitionPoint
  rw [heq, Option.bind_eq_bind, Option.bind_some]
  exact scanM_eq fun j hj hj' => hf j (h1.trans hj) (by omega)

/-! ## Lists -/

/-- A list on which the predicate, once it fails, keeps failing is cut at the partition point. -/
theorem filter_append_filter {α : Type*} {f : α → Bool} {l : List α}
    (h : l.Pairwise (fun a b => f b = true → f a = true)) :
    l.filter f ++ l.filter (fun a => !f a) = l := by
  induction l with
  | nil => rfl
  | cons a l ih =>
    obtain ⟨ha, hl⟩ := List.pairwise_cons.mp h
    by_cases hf : f a = true
    · simp [hf, ih hl]
    · have hnone : l.filter f = [] := by
        rw [List.filter_eq_nil_iff]
        intro b hb hfb
        exact hf (ha b hb hfb)
      have hall := ih hl
      rw [hnone, List.nil_append] at hall
      simp [hf, hnone, hall]

/-- The search on a list that is cut into a part where the predicate holds and one where it
fails. -/
theorem partitionPoint_append {α : Type*} (f : α → Bool) (window : Nat) {d : α} {as bs : List α}
    (has : ∀ a ∈ as, f a = true) (hbs : ∀ b ∈ bs, f b = false) :
    partitionPoint (fun i => f ((as ++ bs).getD i d)) window 0 (as ++ bs).length = as.length := by
  apply Splits.partitionPoint_eq
  refine ⟨Nat.zero_le _, by simp, fun i _ hi => ?_⟩
  rw [List.getD_eq_getElem _ _ hi]
  by_cases h : i < as.length
  · rw [List.getElem_append_left h]
    exact iff_of_true (has _ (List.getElem_mem h)) h
  · rw [List.getElem_append_right (by omega)]
    exact iff_of_false (by rw [hbs _ (List.getElem_mem _)]; simp) h

end Search
