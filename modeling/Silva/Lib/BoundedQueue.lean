import Mathlib
import Silva.Lib.Nearest

/-!
# A bounded priority queue

A priority queue has its greatest element on top; here it is the list of its elements in descending
order. A queue of capacity `k` that gives up its top for smaller elements holds, at any time, the
last `k` elements of the unbounded queue that was pushed the same elements.
-/

namespace BoundedQueue

variable {α κ : Type*}

/-- `push`: the element goes below everything that is greater. -/
def push (less : α → α → Bool) (q : List α) (x : α) : List α :=
  match q with
  | [] => [x]
  | y :: q => if less x y then y :: push less q x else x :: y :: q

/-- `top`: the greatest element. -/
def top (q : List α) : Option α := q.head?

/-- `pop`: remove the greatest element. -/
def pop (q : List α) : List α := q.tail

/-- Offer an element to a queue of capacity `k`. -/
def offer (less : α → α → Bool) (k : Nat) (q : List α) (x : α) : List α :=
  if q.length < k then push less q x
  else
    match top q with
    | some t => if less x t then push less (pop q) x else q
    | none => q

/-- The unbounded queue of the elements `xs`. -/
def pushAll (less : α → α → Bool) (xs : List α) : List α := xs.foldl (push less) []

/-- The `k` smallest elements of a queue. -/
def smallest (k : Nat) (q : List α) : List α := q.drop (q.length - k)

/-- The queue of capacity `k` after the elements `xs`. -/
def best (less : α → α → Bool) (k : Nat) (xs : List α) : List α := smallest k (pushAll less xs)

@[simp] theorem best_nil (less : α → α → Bool) (k : Nat) : best less k [] = [] := by
  simp [best, smallest, pushAll]

section Push

variable {less : α → α → Bool}

theorem push_perm (q : List α) (x : α) : (push less q x).Perm (x :: q) := by
  induction q with
  | nil => exact List.Perm.refl _
  | cons y q ih =>
    rw [push]
    by_cases h : less x y = true
    · rw [if_pos h]
      exact (ih.cons y).trans (List.Perm.swap x y q)
    · rw [if_neg h]

@[simp] theorem length_push (q : List α) (x : α) : (push less q x).length = q.length + 1 :=
  (push_perm q x).length_eq

/-- Pushing a smaller element leaves the upper part of a queue alone. -/
theorem push_append_of_less {q r : List α} {x : α} (h : ∀ y ∈ q, less x y = true) :
    push less (q ++ r) x = q ++ push less r x := by
  induction q with
  | nil => rfl
  | cons y q ih =>
    rw [List.cons_append, push, if_pos (h y (by simp)), ih fun z hz => h z (List.mem_cons_of_mem y hz)]
    rfl

/-- Pushing an element that is not smaller leaves the lower part of a queue alone. -/
theorem push_append_of_not_less {q r : List α} {t x : α} (h : less x t = false) :
    push less (q ++ t :: r) x = push less q x ++ t :: r := by
  induction q with
  | nil =>
    show push less (t :: r) x = [x] ++ t :: r
    rw [push, if_neg (by simp [h])]
    rfl
  | cons y q ih =>
    rw [List.cons_append, push, push]
    by_cases hy : less x y = true
    · rw [if_pos hy, if_pos hy, ih, List.cons_append]
    · rw [if_neg hy, if_neg hy]
      rfl

theorem pushAll_perm (xs : List α) : (pushAll less xs).Perm xs := by
  have h : ∀ q : List α, (xs.foldl (push less) q).Perm (q ++ xs) := by
    induction xs with
    | nil => intro q; simp
    | cons x xs ih =>
      intro q
      exact (ih _).trans (((push_perm q x).append_right xs).trans List.perm_middle.symm)
  exact h []

end Push

section Keyed

variable [LinearOrder κ] {key : α → κ} {less : α → α → Bool}
  (hless : ∀ a b, less a b = true ↔ key a < key b)

include hless

theorem less_eq_false_iff (a b : α) : less a b = false ↔ key b ≤ key a := by
  rw [← Bool.not_eq_true, hless, not_lt]

/-- Pushing keeps a queue in descending order. -/
theorem push_sorted {q : List α} (hq : q.Pairwise fun a b => key b ≤ key a) (x : α) :
    (push less q x).Pairwise fun a b => key b ≤ key a := by
  induction q with
  | nil => simp [push]
  | cons y q ih =>
    obtain ⟨hy, hq'⟩ := List.pairwise_cons.mp hq
    rw [push]
    by_cases h : less x y = true
    · rw [if_pos h]
      refine List.pairwise_cons.mpr ⟨fun z hz => ?_, ih hq'⟩
      rcases List.mem_cons.mp ((push_perm q x).mem_iff.mp hz) with rfl | hz
      · exact ((hless _ _).mp h).le
      · exact hy z hz
    · rw [if_neg h]
      have hyx : key y ≤ key x := (less_eq_false_iff hless x y).mp (by simpa using h)
      refine List.pairwise_cons.mpr ⟨fun z hz => ?_, hq⟩
      rcases List.mem_cons.mp hz with rfl | hz
      · exact hyx
      · exact (hy z hz).trans hyx

theorem pushAll_sorted (xs : List α) :
    (pushAll less xs).Pairwise fun a b => key b ≤ key a := by
  have h : ∀ q : List α, (q.Pairwise fun a b => key b ≤ key a) →
      (xs.foldl (push less) q).Pairwise fun a b => key b ≤ key a := by
    induction xs with
    | nil => intro q hq; exact hq
    | cons x xs ih => intro q hq; exact ih _ (push_sorted hless hq x)
  exact h [] List.Pairwise.nil

/-- Offering to the bounded queue is pushing onto the unbounded one. -/
theorem offer_smallest {q : List α} (hq : q.Pairwise fun a b => key b ≤ key a) (k : Nat) (x : α) :
    offer less k (smallest k q) x = smallest k (push less q x) := by
  unfold offer smallest
  rw [length_push, List.length_drop]
  by_cases hk : q.length < k
  · have h0 : q.length - k = 0 := by omega
    have h1 : q.length + 1 - k = 0 := by omega
    rw [h0, h1, if_pos (by omega), List.drop_zero, List.drop_zero]
  · rw [if_neg (by omega)]
    obtain ⟨n, hn⟩ : ∃ n, q.length = n + k := ⟨q.length - k, by omega⟩
    have h0 : q.length - k = n := by omega
    have h1 : q.length + 1 - k = n + 1 := by omega
    rw [h0, h1]
    have hlen : (q.take n).length = n := by rw [List.length_take]; omega
    cases hd : q.drop n with
    | nil =>
      have : q.length ≤ n := List.drop_eq_nil_iff.mp hd
      rw [List.drop_of_length_le (by rw [length_push]; omega)]
      rfl
    | cons t r =>
      have hqt : q = q.take n ++ t :: r := by rw [← hd, List.take_append_drop]
      show (if less x t then push less r x else t :: r) = (push less q x).drop (n + 1)
      by_cases ht : less x t = true
      · have hall : ∀ y ∈ q.take n ++ [t], less x y = true := by
          intro y hy
          rcases List.mem_append.mp hy with hy | hy
          · rw [hqt] at hq
            have hty := (List.pairwise_append.mp hq).2.2 y hy t (by simp)
            exact (hless x y).mpr (((hless x t).mp ht).trans_le hty)
          · rw [List.mem_singleton.mp hy]; exact ht
        have hpush := @push_append_of_less _ less _ r x hall
        rw [List.append_assoc, List.singleton_append, ← hqt] at hpush
        rw [if_pos ht, hpush, List.drop_left' (by simp [hlen])]
      · have hpush := @push_append_of_not_less _ less (q.take n) r t x (by simpa using ht)
        rw [← hqt] at hpush
        rw [if_neg ht, hpush, List.drop_left' (by simp [hlen])]

/-- The bounded queue after more elements. -/
theorem foldl_offer_best (k : Nat) (xs ys : List α) :
    ys.foldl (offer less k) (best less k xs) = best less k (xs ++ ys) := by
  induction ys generalizing xs with
  | nil => simp
  | cons y ys ih =>
    have hstep : offer less k (best less k xs) y = best less k (xs ++ [y]) := by
      unfold best
      rw [offer_smallest hless (pushAll_sorted hless xs)]
      unfold pushAll
      rw [List.foldl_append]
      rfl
    rw [List.foldl_cons, hstep, ih, List.append_assoc, List.singleton_append]

/-- Elements that are not smaller than the top of a full queue leave no trace. -/
theorem best_append_of_not_less {k : Nat} {xs ys : List α} {t : α}
    (hfull : k ≤ (best less k xs).length) (ht : top (best less k xs) = some t)
    (hys : ∀ y ∈ ys, less y t = false) : best less k (xs ++ ys) = best less k xs := by
  rw [← foldl_offer_best hless]
  induction ys with
  | nil => rfl
  | cons y ys ih =>
    have hy : offer less k (best less k xs) y = best less k xs := by
      unfold offer
      rw [if_neg (by omega), ht]
      show (if less y t = true then _ else _) = _
      rw [if_neg (by simp [hys y (by simp)])]
    rw [List.foldl_cons, hy, ih fun z hz => hys z (List.mem_cons_of_mem y hz)]

/-- With distinct keys the order of arrival does not matter. -/
theorem best_perm (k : Nat) {xs ys : List α} (hnd : (xs.map key).Nodup) (h : xs.Perm ys) :
    best less k xs = best less k ys := by
  unfold best
  congr 1
  refine List.Perm.eq_of_pairwise ?_ (pushAll_sorted hless xs) (pushAll_sorted hless ys)
    ((pushAll_perm xs).trans (h.trans (pushAll_perm ys).symm))
  intro a b ha hb hab hba
  refine List.inj_on_of_nodup_map hnd ((pushAll_perm xs).mem_iff.mp ha) ?_ (le_antisymm hba hab)
  exact h.mem_iff.mpr ((pushAll_perm ys).mem_iff.mp hb)

/-- With distinct keys the queue holds the first `k` elements in ascending order. -/
theorem best_eq_take (k : Nat) {xs ys : List α} (hnd : (xs.map key).Nodup) (h : ys.Perm xs)
    (hys : ys.Pairwise fun a b => key a ≤ key b) : best less k xs = (ys.take k).reverse := by
  have hsort : pushAll less xs = ys.reverse := by
    refine List.Perm.eq_of_pairwise ?_ (pushAll_sorted hless xs) (List.pairwise_reverse.mpr hys)
      ((pushAll_perm xs).trans (h.symm.trans (List.reverse_perm ys).symm))
    intro a b ha hb hab hba
    refine List.inj_on_of_nodup_map hnd ((pushAll_perm xs).mem_iff.mp ha) ?_ (le_antisymm hba hab)
    exact h.mem_iff.mp (List.mem_reverse.mp hb)
  unfold best smallest
  rw [hsort, List.length_reverse, ← List.reverse_take]

/-- The elements of a bounded queue are nearest ones, for every distance that the order respects. -/
theorem best_kNearest {D : Type*} [LinearOrder D] {dist : α → D}
    (hdist : ∀ a b, key a ≤ key b → dist a ≤ dist b) (k : ℕ) (xs : List α) :
    KNearest dist k xs (best less k xs) := by
  have hperm : (pushAll less xs).Perm xs := pushAll_perm xs
  have hsort := pushAll_sorted hless xs
  unfold best smallest
  refine ⟨?_, (pushAll less xs).take ((pushAll less xs).length - k), ?_, fun x hx y hy => ?_⟩
  · rw [List.length_drop, hperm.length_eq]
    omega
  · refine (List.perm_append_comm).trans ?_
    rwa [List.take_append_drop]
  · rw [← List.take_append_drop ((pushAll less xs).length - k) (pushAll less xs)] at hsort
    exact hdist x y ((List.pairwise_append.mp hsort).2.2 y hy x hx)

end Keyed

end BoundedQueue
