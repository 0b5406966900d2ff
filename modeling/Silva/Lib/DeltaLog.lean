import Mathlib

/-!
# Logs of insertions and deletions

A log changes a collection of values: an insertion appends its batch, a deletion removes every value
whose key is in its batch. `replay` does this in order. `collapse` forgets the order: it drops every
value, old or inserted, whose key is deleted anywhere in the log.
-/

namespace DeltaLog

variable {α κ : Type*} (key : α → κ)

/-- One entry of a log. -/
inductive Delta (α : Type*) where
  /-- Elements that are inserted. -/
  | insert (xs : List α)
  /-- Elements whose keys are deleted. -/
  | delete (xs : List α)

/-- All values that a log inserts. -/
def inserts (log : List (Delta α)) : List α :=
  log.flatMap fun | .insert xs => xs | .delete _ => []

/-- All keys that a log deletes. -/
def deletedKeys (log : List (Delta α)) : List κ :=
  log.flatMap fun | .insert _ => [] | .delete xs => xs.map key

section Logs

variable {key}

@[simp] theorem inserts_append (log log' : List (Delta α)) :
    inserts (log ++ log') = inserts log ++ inserts log' := List.flatMap_append

@[simp] theorem inserts_insert (xs : List α) : inserts [Delta.insert xs] = xs := by
  simp [inserts]

@[simp] theorem inserts_delete (xs : List α) : inserts [Delta.delete xs] = [] := rfl

@[simp] theorem deletedKeys_append (log log' : List (Delta α)) :
    deletedKeys key (log ++ log') = deletedKeys key log ++ deletedKeys key log' :=
  List.flatMap_append

@[simp] theorem deletedKeys_insert (xs : List α) : deletedKeys key [Delta.insert xs] = [] := rfl

@[simp] theorem deletedKeys_delete (xs : List α) :
    deletedKeys key [Delta.delete xs] = xs.map key := by
  simp [deletedKeys]

end Logs

variable [DecidableEq κ]

/-- Apply one entry. -/
def Delta.apply (s : List α) : Delta α → List α
  | insert xs => s ++ xs
  | delete xs => s.filter fun x => key x ∉ xs.map key

/-- Apply a log in order. -/
def replay (s : List α) (log : List (Delta α)) : List α := log.foldl (Delta.apply key) s

/-- Apply a log without its order. -/
def collapse (s : List α) (log : List (Delta α)) : List α :=
  (s ++ inserts log).filter fun x => key x ∉ deletedKeys key log

variable {key} {s t : List α} {log : List (Delta α)}

@[simp] theorem Delta.apply_insert (s xs : List α) : Delta.apply key s (.insert xs) = s ++ xs := rfl

@[simp] theorem Delta.apply_delete (s xs : List α) :
    Delta.apply key s (.delete xs) = s.filter fun x => key x ∉ xs.map key := rfl

@[simp] theorem collapse_nil (s : List α) : collapse key s [] = s := by
  simp [collapse, inserts, deletedKeys]

@[simp] theorem replay_nil (s : List α) : replay key s [] = s := rfl

@[simp] theorem replay_cons (s : List α) (d : Delta α) (log : List (Delta α)) :
    replay key s (d :: log) = replay key (d.apply key s) log := rfl

/-- A further insertion shows only the values whose key is not deleted before. -/
theorem collapse_insert (s : List α) (log : List (Delta α)) (xs : List α) :
    collapse key s (log ++ [.insert xs]) =
      collapse key s log ++ xs.filter fun x => key x ∉ deletedKeys key log := by
  have hins : inserts (log ++ [.insert xs]) = inserts log ++ xs := by simp
  have hdel : deletedKeys key (log ++ [.insert xs]) = deletedKeys key log := by simp
  unfold collapse
  rw [hins, hdel, ← List.append_assoc, List.filter_append]

/-- A further deletion acts as it should. -/
theorem collapse_delete (s : List α) (log : List (Delta α)) (xs : List α) :
    collapse key s (log ++ [.delete xs]) = Delta.apply key (collapse key s log) (.delete xs) := by
  have hins : inserts (log ++ [.delete xs]) = inserts log := by simp
  have hdel : deletedKeys key (log ++ [.delete xs]) = deletedKeys key log ++ xs.map key := by simp
  unfold collapse
  rw [hins, hdel, Delta.apply_delete, List.filter_filter]
  refine List.filter_congr fun x _ => ?_
  rw [← Bool.decide_and, decide_eq_decide, List.mem_append, not_or, and_comm]

theorem Delta.apply_perm (h : s.Perm t) (d : Delta α) : (d.apply key s).Perm (d.apply key t) := by
  cases d with
  | insert xs => exact h.append_right xs
  | delete xs => exact h.filter _

/-- A filtered batch is the batch exactly when nothing is filtered out. -/
theorem append_filter_perm_iff (h : s.Perm t) (xs : List α) (p : α → Bool) :
    (s ++ xs.filter p).Perm (t ++ xs) ↔ ∀ x ∈ xs, p x = true := by
  constructor
  · intro hperm
    have hlen := hperm.length_eq
    rw [List.length_append, List.length_append, h.length_eq] at hlen
    exact List.filter_eq_self.mp
      (List.filter_sublist.eq_of_length (by omega))
  · intro hall
    rw [List.filter_eq_self.mpr hall]
    exact h.append_right xs

/-- From a collapsed log that shows the replay, one more entry keeps it so exactly when it inserts no
key that is deleted before. -/
theorem collapse_concat_perm_iff (h : (collapse key s log).Perm t) (d : Delta α) :
    (collapse key s (log ++ [d])).Perm (d.apply key t) ↔
      ∀ xs, d = .insert xs → ∀ x ∈ xs, key x ∉ deletedKeys key log := by
  cases d with
  | insert xs =>
    rw [collapse_insert, Delta.apply_insert, append_filter_perm_iff h]
    constructor
    · intro hall ys heq x hx
      cases heq
      exact of_decide_eq_true (hall x hx)
    · exact fun hall x hx => decide_eq_true (hall xs rfl x hx)
  | delete xs =>
    rw [collapse_delete]
    constructor
    · intro _ ys heq
      cases heq
    · exact fun _ => Delta.apply_perm h _

end DeltaLog
