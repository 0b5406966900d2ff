import Mathlib

/-!
# Joins by nested loops

`joinPairs on P Q` are the pairs of elements of two lists that satisfy a predicate. A program that
appends pairs to a result appends a join of concatenated lists when its parts append the joins of the
parts.
-/

namespace NestedJoin

variable {α β : Type*} (on : α × β → Bool)

/-- The pairs that a nested loop over both lists finds. -/
def joinPairs (P : List α) (Q : List β) : List (α × β) := (P ×ˢ Q).filter on

@[simp] theorem joinPairs_nil_left (Q : List β) : joinPairs on [] Q = [] := rfl

@[simp] theorem joinPairs_nil_right (P : List α) : joinPairs on P [] = [] := by
  unfold joinPairs
  rw [List.product_nil]
  rfl

theorem joinPairs_cons_left (p : α) (P : List α) (Q : List β) :
    joinPairs on (p :: P) Q = (Q.map fun q => (p, q)).filter on ++ joinPairs on P Q := by
  unfold joinPairs
  rw [List.product_cons, List.filter_append]

theorem joinPairs_append_left (P P' : List α) (Q : List β) :
    joinPairs on (P ++ P') Q = joinPairs on P Q ++ joinPairs on P' Q := by
  induction P with
  | nil => rfl
  | cons p P ih => rw [List.cons_append, joinPairs_cons_left, ih, joinPairs_cons_left, List.append_assoc]

theorem joinPairs_append_right (P : List α) (Q Q' : List β) :
    (joinPairs on P (Q ++ Q')).Perm (joinPairs on P Q ++ joinPairs on P Q') := by
  induction P with
  | nil => exact List.Perm.refl _
  | cons p P ih =>
    rw [joinPairs_cons_left, joinPairs_cons_left, joinPairs_cons_left, List.map_append,
      List.filter_append, List.append_assoc, List.append_assoc]
    refine List.Perm.append_left _ ((ih.append_left _).trans ?_)
    rw [← List.append_assoc, ← List.append_assoc]
    exact List.perm_append_comm.append_right _

theorem joinPairs_eq_nil {P : List α} {Q : List β} (h : ∀ p ∈ P, ∀ q ∈ Q, on (p, q) = false) :
    joinPairs on P Q = [] := by
  unfold joinPairs
  rw [List.filter_eq_nil_iff]
  rintro ⟨p, q⟩ hpq
  obtain ⟨hp, hq⟩ := List.mem_product.mp hpq
  rw [h p hp q hq]
  exact Bool.false_ne_true

/-- The program appends the elements `xs` to its argument, in some order. -/
def Appends {γ : Type*} (f : List γ → List γ) (xs : List γ) : Prop :=
  ∀ res, ∃ added, f res = res ++ added ∧ added.Perm xs

variable {on} {γ : Type*} {f g : List γ → List γ} {xs ys : List γ}

theorem Appends.none (hf : ∀ res, f res = res) : Appends f [] :=
  fun res => ⟨[], by rw [hf, List.append_nil], List.Perm.refl _⟩

theorem Appends.perm (hf : Appends f xs) (h : xs.Perm ys) : Appends f ys := by
  intro res
  obtain ⟨added, heq, hperm⟩ := hf res
  exact ⟨added, heq, hperm.trans h⟩

/-- One program after the other. -/
theorem Appends.comp (hf : Appends f xs) (hg : Appends g ys) :
    Appends (g ∘ f) (xs ++ ys) := by
  intro res
  obtain ⟨added, hf, hxs⟩ := hf res
  obtain ⟨added', hg, hys⟩ := hg (res ++ added)
  exact ⟨added ++ added', by rw [Function.comp_apply, hf, hg, List.append_assoc], hxs.append hys⟩

/-- The inner loop, for one element of the left list. -/
theorem foldl_inner (on : α × β → Bool) (p : α) (Q : List β) (res : List (α × β)) :
    Q.foldl (fun res q => if on (p, q) then res ++ [(p, q)] else res) res =
      res ++ (Q.map fun q => (p, q)).filter on := by
  induction Q generalizing res with
  | nil => simp
  | cons q Q ih =>
    rw [List.foldl_cons, ih, List.map_cons, List.filter_cons]
    by_cases hon : on (p, q) = true
    · rw [if_pos hon, if_pos hon, List.append_assoc, List.singleton_append]
    · rw [if_neg hon, if_neg hon]

/-- The two nested loops themselves. -/
theorem foldl_loops (on : α × β → Bool) (P : List α) (Q : List β) (res : List (α × β)) :
    P.foldl (fun res p =>
      Q.foldl (fun res q => if on (p, q) then res ++ [(p, q)] else res) res) res =
      res ++ joinPairs on P Q := by
  induction P generalizing res with
  | nil => simp
  | cons p P ih => rw [List.foldl_cons, foldl_inner, ih, joinPairs_cons_left, List.append_assoc]

end NestedJoin
