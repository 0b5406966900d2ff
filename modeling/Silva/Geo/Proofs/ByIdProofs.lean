import Silva.Geo.Proofs.RecordProofs
import Silva.Lib.KeyedList

/-!
# Proofs: the loops that merge by identifier

`filter_diff_results` and `merge_by_id_with_conflict` treat every identifier on its own. Their
outputs are described by what they do with the points that the inputs have for one identifier.
-/

namespace Silva

open TwoPointer KeyedList

/-- A list with at most one point for each identifier, as a function of the identifier. -/
abbrev ById (P : List Point) (s : ℕ → Option Point) : Prop := Denotes Point.id P s

theorem pointsOf_append (P Q : List Point) (i : Nat) :
    pointsOf (P ++ Q) i = pointsOf P i ++ pointsOf Q i := List.filter_append ..

theorem mem_map_id_iff {P : List Point} {i : Nat} : i ∈ P.map Point.id ↔ pointsOf P i ≠ [] := by
  unfold pointsOf
  rw [Ne, List.filter_eq_nil_iff]
  simp

/-- Lists that agree up to order at every identifier agree up to order. -/
theorem perm_of_pointsOf {P Q : List Point} (h : ∀ i, (pointsOf P i).Perm (pointsOf Q i)) :
    P.Perm Q := by
  rw [List.perm_iff_count]
  intro p
  have hcount : ∀ R : List Point, (pointsOf R p.id).count p = R.count p := fun R =>
    List.count_filter (by simp)
  rw [← hcount P, ← hcount Q]
  exact (h p.id).count_eq p

theorem idCmp_iff (p q : Point) : idCmp p q = true ↔ p.id < q.id := by simp [idCmp]

/-- The loops over two lists sorted by identifier, seen at one identifier. -/
theorem events_byId {P Q : List Point} {s t : ℕ → Option Point} (hP : ById P s) (hQ : ById Q t)
    (i : Nat) :
    (events idCompare (parlaySort idCmp P) (parlaySort idCmp Q)).filter
      (fun e => e.key Point.id = i) = eventAt (s i) (t i) :=
  events_filter_key idCompare_eq_compare (parlaySort_sorted idCmp_iff P)
    (parlaySort_sorted idCmp_iff Q) (hP.perm (parlaySort_perm _ P)) (hQ.perm (parlaySort_perm _ Q)) i

/-! ## Classifying a difference -/

/-- The insertions, deletions and updates that one iteration of `filter_diff_results` outputs. -/
def insertOut : Event Point → List Point
  | .left p => [p]
  | _ => []

def deleteOut : Event Point → List Point
  | .right p => [p]
  | _ => []

def updateOut : Event Point → List Point
  | .both p _ => [p]
  | _ => []

theorem filterDiffResults_eq (add remove : List Point) :
    filterDiffResults add remove =
      let es := events idCompare (parlaySort idCmp add) (parlaySort idCmp remove)
      (es.flatMap insertOut, es.flatMap deleteOut, es.flatMap updateOut) := by
  have hloop : ∀ (es : List (Event Point)) (ret : List Point × List Point × List Point),
      es.foldl filterDiffResultsStep ret = (ret.1 ++ es.flatMap insertOut,
        ret.2.1 ++ es.flatMap deleteOut, ret.2.2 ++ es.flatMap updateOut) := by
    intro es
    induction es with
    | nil => intro ret; simp
    | cons e es ih =>
      intro ret
      rw [List.foldl_cons, ih]
      cases e <;> simp [filterDiffResultsStep, insertOut, deleteOut, updateOut]
  unfold filterDiffResults
  rw [hloop]
  rfl

/-- The change of an identifier that is added, but not removed. -/
def insertAt : Option Point → Option Point → Option Point
  | some p, none => some p
  | _, _ => none

/-- The change of an identifier that is removed, but not added. -/
def deleteAt : Option Point → Option Point → Option Point
  | none, some q => some q
  | _, _ => none

/-- The change of an identifier that is added and removed. -/
def updateAt : Option Point → Option Point → Option Point
  | some p, some _ => some p
  | _, _ => none

section Classify

variable {add remove : List Point} {a r : ℕ → Option Point} (ha : ById add a) (hr : ById remove r)

include ha hr

theorem filterDiffResults_insert :
    ById (filterDiffResults add remove).1 fun i => insertAt (a i) (r i) := by
  intro i
  rw [filterDiffResults_eq]
  show (List.flatMap insertOut _).filter _ = (insertAt (a i) (r i)).toList
  rw [flatMap_filter_key (by rintro (_ | _ | _) _ x hx <;> simp_all [insertOut, Event.key]),
    events_byId ha hr]
  cases a i <;> cases r i <;> rfl

theorem filterDiffResults_delete :
    ById (filterDiffResults add remove).2.1 fun i => deleteAt (a i) (r i) := by
  intro i
  rw [filterDiffResults_eq]
  show (List.flatMap deleteOut _).filter _ = (deleteAt (a i) (r i)).toList
  rw [flatMap_filter_key (by rintro (_ | _ | _) _ x hx <;> simp_all [deleteOut, Event.key]),
    events_byId ha hr]
  cases a i <;> cases r i <;> rfl

theorem filterDiffResults_update :
    ById (filterDiffResults add remove).2.2 fun i => updateAt (a i) (r i) := by
  intro i
  rw [filterDiffResults_eq]
  show (List.flatMap updateOut _).filter _ = (updateAt (a i) (r i)).toList
  rw [flatMap_filter_key (by rintro (_ | _ | _) _ x hx <;> simp_all [updateOut, Event.key]),
    events_byId ha hr]
  cases a i <;> cases r i <;> rfl

end Classify

/-! ## Merging two lists of changes -/

/-- What one iteration of `merge_by_id_with_conflict` outputs without a conflict. -/
def noConflictOut : Event Point → List Point
  | .both p q => if p.eqv q then [p] else []
  | .left p => [p]
  | .right q => [q]

/-- What it outputs as a conflict. -/
def conflictOut : Event Point → List Point
  | .both p q => if p.eqv q then [] else [p, q]
  | _ => []

theorem mergeByIdWithConflict_eq (P Q : List Point) :
    mergeByIdWithConflict P Q =
      let es := events idCompare (parlaySort idCmp P) (parlaySort idCmp Q)
      (es.flatMap noConflictOut, es.flatMap conflictOut) := by
  have hloop : ∀ (es : List (Event Point)) (ret : List Point × List Point),
      es.foldl mergeByIdStep ret =
        (ret.1 ++ es.flatMap noConflictOut, ret.2 ++ es.flatMap conflictOut) := by
    intro es
    induction es with
    | nil => intro ret; simp
    | cons e es ih =>
      intro ret
      rw [List.foldl_cons, ih]
      cases e with
      | both p q => by_cases h : p.eqv q <;> simp [mergeByIdStep, noConflictOut, conflictOut, h]
      | left p => simp [mergeByIdStep, noConflictOut, conflictOut]
      | right q => simp [mergeByIdStep, noConflictOut, conflictOut]
  unfold mergeByIdWithConflict
  rw [hloop]
  rfl

/-- The change of one list, or the common change of both. -/
def noConflictAt : Option Point → Option Point → Option Point
  | some p, some q => if p.eqv q then some p else none
  | some p, none => some p
  | none, q => q

/-- Two different changes, first the one of the first list. -/
def conflictAt : Option Point → Option Point → List Point
  | some p, some q => if p.eqv q then [] else [p, q]
  | _, _ => []

section Merge

variable {P Q : List Point} {s t : ℕ → Option Point} (hP : ById P s) (hQ : ById Q t)

include hP hQ

theorem mergeByIdWithConflict_noConflict :
    ById (mergeByIdWithConflict P Q).1 fun i => noConflictAt (s i) (t i) := by
  intro i
  rw [mergeByIdWithConflict_eq]
  show (List.flatMap noConflictOut _).filter _ = (noConflictAt (s i) (t i)).toList
  rw [flatMap_filter_key ?_, events_byId hP hQ]
  · rcases s i with _ | p <;> rcases t i with _ | q
    · rfl
    · rfl
    · rfl
    · by_cases h : p.eqv q <;> simp [eventAt, noConflictOut, noConflictAt, h]
  · rintro (⟨p, q⟩ | p | q) _ x hx
    · by_cases h : p.eqv q <;> simp_all [noConflictOut, Event.key]
    · simp_all [noConflictOut, Event.key]
    · simp_all [noConflictOut, Event.key]

theorem mergeByIdWithConflict_conflict (i : Nat) :
    pointsOf (mergeByIdWithConflict P Q).2 i = conflictAt (s i) (t i) := by
  have hlt : ∀ {R : List Point} {u : ℕ → Option Point}, ById R u →
      (parlaySort idCmp R).Pairwise (fun x y => x.id < y.id) := fun hR =>
    (hR.perm (parlaySort_perm _ _)).pairwise_lt (parlaySort_sorted idCmp_iff _)
  rw [mergeByIdWithConflict_eq]
  show (List.flatMap conflictOut _).filter _ = conflictAt (s i) (t i)
  rw [flatMap_filter_key ?_, events_byId hP hQ]
  · rcases s i with _ | p <;> rcases t i with _ | q
    · rfl
    · rfl
    · rfl
    · by_cases h : p.eqv q <;> simp [eventAt, conflictOut, conflictAt, h]
  · rintro (⟨p, q⟩ | p | q) he x hx
    · have hid := ((mem_events_both idCompare_eq_compare (hlt hP) (hlt hQ)).mp he).2.2
      by_cases h : p.eqv q
      · simp_all [conflictOut]
      · rcases (by simpa [conflictOut, h] using hx : x = p ∨ x = q) with rfl | rfl
        · rfl
        · exact hid.symm
    · simp_all [conflictOut]
    · simp_all [conflictOut]

end Merge

end Silva
