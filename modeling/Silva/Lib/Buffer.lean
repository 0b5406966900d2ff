import Mathlib

/-!
# Writing a list into a buffer

`write buf cnt xs` is the effect of `for (x : xs) buf[cnt++] = x` on a buffer of fixed size. Several
writers with slots of their own may run at the same time: the order of their assignments does not
matter.
-/

namespace Buffer

variable {α : Type*}

/-- Assign the elements of `xs` to consecutive slots, the first one at index `cnt`. -/
def write (buf : List α) (cnt : Nat) : List α → List α
  | [] => buf
  | x :: xs => write (buf.set cnt x) (cnt + 1) xs

@[simp] theorem write_nil (buf : List α) (cnt : Nat) : write buf cnt [] = buf := rfl

theorem write_append (buf : List α) (cnt : Nat) (xs ys : List α) :
    write buf cnt (xs ++ ys) = write (write buf cnt xs) (cnt + xs.length) ys := by
  induction xs generalizing buf cnt with
  | nil => simp
  | cons x xs ih =>
    simp only [List.cons_append, write, List.length_cons]
    rw [ih, Nat.add_right_comm, Nat.add_assoc]

@[simp] theorem length_write (buf : List α) (cnt : Nat) (xs : List α) :
    (write buf cnt xs).length = buf.length := by
  induction xs generalizing buf cnt with
  | nil => rfl
  | cons x xs ih => simp [write, ih]

/-- In a buffer that is large enough the slots `cnt, …, cnt + n - 1` hold the list and the others
what they held before. -/
theorem write_eq {buf : List α} {cnt : Nat} {xs : List α} (h : cnt + xs.length ≤ buf.length) :
    write buf cnt xs = buf.take cnt ++ xs ++ buf.drop (cnt + xs.length) := by
  induction xs generalizing buf cnt with
  | nil => simp
  | cons x xs ih =>
    simp only [List.length_cons] at h
    have hlt : cnt < buf.length := by omega
    rw [write, ih (by simp; omega), List.take_set, List.drop_set, if_pos (by omega),
      List.take_add_one, List.getElem?_eq_getElem hlt]
    have hset : (buf.take cnt ++ [buf[cnt]]).set cnt x = buf.take cnt ++ [x] := by
      rw [List.set_append_right _ _ (by simp)]
      simp [Nat.min_eq_left hlt.le]
    simp only [Option.toList_some, List.length_cons]
    rw [hset]
    simp [Nat.add_assoc, Nat.add_comm 1]

theorem take_write {buf : List α} {cnt : Nat} {xs : List α} (h : cnt + xs.length ≤ buf.length) :
    (write buf cnt xs).take (cnt + xs.length) = buf.take cnt ++ xs := by
  rw [write_eq h]
  apply List.take_left'
  simp
  omega

/-! ## Assignments in any order -/

/-- The assignments `buf[i] = x`, one after the other. -/
def assign (buf : List α) (ws : List (Nat × α)) : List α :=
  ws.foldl (fun buf w => buf.set w.1 w.2) buf

/-- The assignments that `write` makes. -/
def slots (cnt : Nat) : List α → List (Nat × α)
  | [] => []
  | x :: xs => (cnt, x) :: slots (cnt + 1) xs

theorem assign_slots (buf : List α) (cnt : Nat) (xs : List α) :
    assign buf (slots cnt xs) = write buf cnt xs := by
  induction xs generalizing buf cnt with
  | nil => rfl
  | cons x xs ih => exact ih (buf.set cnt x) (cnt + 1)

theorem slots_append (cnt : Nat) (xs ys : List α) :
    slots cnt (xs ++ ys) = slots cnt xs ++ slots (cnt + xs.length) ys := by
  induction xs generalizing cnt with
  | nil => rfl
  | cons x xs ih =>
    rw [List.cons_append, slots, slots, List.cons_append, ih, List.length_cons, Nat.add_right_comm,
      Nat.add_assoc]

theorem map_fst_slots (cnt : Nat) (xs : List α) :
    (slots cnt xs).map Prod.fst = List.range' cnt xs.length := by
  induction xs generalizing cnt with
  | nil => rfl
  | cons x xs ih => rw [slots, List.map_cons, ih, List.length_cons, List.range'_succ]

/-- Assignments to different slots commute. -/
theorem assign_perm {ws ws' : List (Nat × α)} (hslots : (ws.map Prod.fst).Nodup)
    (h : ws.Perm ws') (buf : List α) : assign buf ws = assign buf ws' := by
  refine h.foldl_eq' (fun w hw w' hw' buf => ?_) buf
  by_cases hslot : w.1 = w'.1
  · rw [List.inj_on_of_nodup_map hslots hw hw' hslot]
  · exact List.set_comm _ _ hslot

/-- Whatever the order of its assignments, `write` leaves the same buffer. -/
theorem assign_of_perm_slots {ws : List (Nat × α)} {cnt : Nat} {xs : List α}
    (h : ws.Perm (slots cnt xs)) (buf : List α) : assign buf ws = write buf cnt xs := by
  have hslots : ((slots cnt xs).map Prod.fst).Nodup := by
    rw [map_fst_slots]
    exact List.nodup_range'
  rw [← assign_perm hslots h.symm, assign_slots]

/-- The third list is a run of two writers at the same time, each in its own order. -/
inductive Interleaves : List α → List α → List α → Prop where
  /-- Nothing to write. -/
  | nil : Interleaves [] [] []
  /-- The first writer is next. -/
  | left {xs ys zs : List α} (x : α) (h : Interleaves xs ys zs) :
      Interleaves (x :: xs) ys (x :: zs)
  /-- The second writer is next. -/
  | right {xs ys zs : List α} (y : α) (h : Interleaves xs ys zs) :
      Interleaves xs (y :: ys) (y :: zs)

theorem Interleaves.perm {xs ys zs : List α} (h : Interleaves xs ys zs) : zs.Perm (xs ++ ys) := by
  induction h with
  | nil => exact List.Perm.refl _
  | left x h ih => exact ih.cons x
  | right y h ih => exact (ih.cons y).trans List.perm_middle.symm

/-- One of the runs is that of the first writer, then that of the second one. -/
theorem Interleaves.append (xs ys : List α) : Interleaves xs ys (xs ++ ys) := by
  induction xs with
  | nil =>
    induction ys with
    | nil => exact .nil
    | cons y ys ih => exact .right y ih
  | cons x xs ih => exact .left x ih

end Buffer
