import Silva.Bench.Runners
import Silva.Mvq.Proofs.RoundTripProofs

/-!
# Proofs: the engine and the commits of the quadtree runner

The live points as a map, what an operation does to the variables of the loop, and what a commit of
the two batches does to the records of the master version.
-/

namespace Silva

namespace Bench

variable {active : ActiveNodes} {id : ℕ} {p pt : Point}

/-! ## The live points -/

namespace ActiveNodes

theorem ext {a b : ActiveNodes} (h : a.points = b.points) : a = b := by
  cases a
  cases b
  cases h
  rfl

theorem find_eq_some : active.find id = some p ↔ p ∈ active.points ∧ p.id = id := by
  unfold find
  constructor
  · intro h
    exact ⟨List.mem_of_find?_eq_some h, by simpa using List.find?_some h⟩
  · rintro ⟨hp, rfl⟩
    cases hfind : active.points.find? fun q => q.id = p.id with
    | none => exact absurd (List.find?_eq_none.mp hfind p hp) (by simp)
    | some q =>
      have hq : q.id = p.id := by simpa using List.find?_some hfind
      rw [List.inj_on_of_nodup_map active.nodup (List.mem_of_find?_eq_some hfind) hp hq]

theorem find_eq_none : active.find id = none ↔ id ∉ active.points.map Point.id := by
  unfold find
  rw [List.find?_eq_none]
  simp

theorem mem_erase : p ∈ (active.erase id).points ↔ p ∈ active.points ∧ p.id ≠ id := by
  unfold erase
  rw [List.mem_filter, decide_eq_true_eq]

theorem mem_insert : p ∈ (active.insert pt).points ↔ (p ∈ active.points ∧ p.id ≠ pt.id) ∨ p = pt := by
  unfold insert
  rw [List.mem_append, List.mem_singleton, mem_erase]

/-- Erasing an identifier that is not there changes nothing. -/
theorem erase_of_not_mem (h : id ∉ active.points.map Point.id) : active.erase id = active := by
  refine ext (List.filter_eq_self.mpr fun p hp => decide_eq_true ?_)
  rintro rfl
  exact h (List.mem_map_of_mem hp)

theorem insert_of_not_mem (h : pt.id ∉ active.points.map Point.id) :
    (active.insert pt).points = active.points ++ [pt] := by
  show (active.erase pt.id).points ++ [pt] = _
  rw [erase_of_not_mem h]

end ActiveNodes

/-- The live points of a snapshot without repeated identifiers are its points. -/
theorem initActive_points {baseData : List Point} (h : (baseData.map Point.id).Nodup) :
    (initActive baseData).points = baseData := by
  have hloop : ∀ (P : List Point) (active : ActiveNodes),
      ((active.points ++ P).map Point.id).Nodup →
      (P.foldl ActiveNodes.insert active).points = active.points ++ P := by
    intro P
    induction P with
    | nil => simp
    | cons p P ih =>
      intro active hnd
      have hp : p.id ∉ active.points.map Point.id := by
        intro hmem
        rw [List.map_append, List.nodup_append'] at hnd
        exact hnd.2.2 hmem List.mem_cons_self
      have hins := ActiveNodes.insert_of_not_mem hp
      rw [List.foldl_cons, ih, hins, List.append_assoc, List.singleton_append]
      rwa [hins, List.append_assoc, List.singleton_append]
  exact hloop baseData .empty (by simpa [ActiveNodes.empty] using h)

/-! ## One operation -/

section Operations

variable {s : EventState} {op : Operation}

theorem applyOp_A (h : op.opType = 'A') : s.applyOp op =
    { s with adds := s.adds ++ [op.pt], active := s.active.insert op.pt } := by
  rw [EventState.applyOp, if_pos h]

theorem applyOp_M (h : op.opType = 'M') : s.applyOp op =
    { adds := s.adds ++ [op.pt], rems := s.rems ++ (s.active.find op.nodeId).toList,
      active := s.active.insert op.pt } := by
  rw [EventState.applyOp, if_neg (by rw [h]; decide), if_pos h]

theorem applyOp_D (h : op.opType = 'D') : s.applyOp op =
    { s with rems := s.rems ++ (s.active.find op.nodeId).toList,
             active := s.active.erase op.nodeId } := by
  rw [EventState.applyOp, if_neg (by rw [h]; decide), if_neg (by rw [h]; decide), if_pos h]
  cases hfind : s.active.find op.nodeId with
  | some old => rfl
  | none =>
    rw [ActiveNodes.erase_of_not_mem (ActiveNodes.find_eq_none.mp hfind)]
    simp

theorem applyOp_other (hA : op.opType ≠ 'A') (hM : op.opType ≠ 'M') (hD : op.opType ≠ 'D') :
    s.applyOp op = s := by
  rw [EventState.applyOp, if_neg hA, if_neg hM, if_neg hD]

end Operations

/-! ## One event -/

/-- The points that an event adds. -/
def Event.added (event : Event) : List Point :=
  (event.ops.filter fun op => op.opType = 'A' ∨ op.opType = 'M').map Operation.pt

theorem foldl_applyOp_adds (ops : List Operation) : ∀ s : EventState,
    (ops.foldl EventState.applyOp s).adds =
      s.adds ++ (ops.filter fun op => op.opType = 'A' ∨ op.opType = 'M').map Operation.pt := by
  induction ops with
  | nil => exact fun s => (List.append_nil _).symm
  | cons op ops ih =>
    intro s
    rw [List.foldl_cons, ih]
    by_cases hA : op.opType = 'A'
    · rw [applyOp_A hA, List.filter_cons_of_pos (by simp [hA]), List.append_assoc]
      rfl
    · by_cases hM : op.opType = 'M'
      · rw [applyOp_M hM, List.filter_cons_of_pos (by simp [hM]), List.append_assoc]
        rfl
      · rw [List.filter_cons_of_neg (by simp [hA, hM])]
        by_cases hD : op.opType = 'D'
        · rw [applyOp_D hD]
        · rw [applyOp_other hA hM hD]

theorem applyEvent_adds (active : ActiveNodes) (event : Event) :
    (applyEvent active event).adds = event.added := foldl_applyOp_adds event.ops _

/-- A live point is an added one, or it was live before and its identifier is not removed. -/
def EventState.Live (live : List Point) (s : EventState) : Prop :=
  ∀ p ∈ s.active.points, p ∈ s.adds ∨ (p ∈ live ∧ p.id ∉ s.rems.map Point.id)

theorem EventState.Live.applyOp {live : List Point} {s : EventState} (h : s.Live live)
    (op : Operation) : (s.applyOp op).Live live := by
  -- `D` and `M` remove what they find under the identifier that they take out of the live points
  have hrems : ∀ p : Point, p.id ≠ op.nodeId → p.id ∉ s.rems.map Point.id →
      p.id ∉ (s.rems ++ (s.active.find op.nodeId).toList).map Point.id := by
    intro p hne hp hmem
    rw [List.map_append, List.mem_append] at hmem
    obtain ⟨old, hold, hid⟩ := List.mem_map.mp (hmem.resolve_left hp)
    have hfind := ActiveNodes.find_eq_some.mp (Option.mem_toList.mp hold)
    exact hne (hid ▸ hfind.2)
  by_cases hA : op.opType = 'A'
  · rw [applyOp_A hA]
    intro p hp
    rcases ActiveNodes.mem_insert.mp hp with ⟨hp, -⟩ | rfl
    · exact (h p hp).imp_left fun hadd => List.mem_append_left _ hadd
    · exact Or.inl (List.mem_append_right _ List.mem_cons_self)
  · by_cases hM : op.opType = 'M'
    · rw [applyOp_M hM]
      intro p hp
      rcases ActiveNodes.mem_insert.mp hp with ⟨hp, hne⟩ | rfl
      · exact (h p hp).imp (fun hadd => List.mem_append_left _ hadd)
          fun ⟨hlive, hid⟩ => ⟨hlive, hrems p hne hid⟩
      · exact Or.inl (List.mem_append_right _ List.mem_cons_self)
    · by_cases hD : op.opType = 'D'
      · rw [applyOp_D hD]
        intro p hp
        obtain ⟨hp, hne⟩ := ActiveNodes.mem_erase.mp hp
        exact (h p hp).imp_right fun ⟨hlive, hid⟩ => ⟨hlive, hrems p hne hid⟩
      · rwa [applyOp_other hA hM hD]

theorem live_applyEvent (active : ActiveNodes) (event : Event) :
    (applyEvent active event).Live active.points := by
  have hloop : ∀ (ops : List Operation) {s : EventState}, s.Live active.points →
      (ops.foldl EventState.applyOp s).Live active.points := by
    intro ops
    induction ops with
    | nil => exact fun h => h
    | cons op ops ih => exact fun h => ih (h.applyOp op)
  exact hloop event.ops fun p hp => Or.inr ⟨hp, List.not_mem_nil⟩

/-! ## Runs -/

section Runs

variable {σ : Type*} {commit : σ → List Point → List Point → Option σ}

/-- A run over an event and further ones: the commit of the event comes first. -/
theorem runEvents_cons_iff {runner : σ} {active : ActiveNodes} {event : Event}
    {events : List Event} {states : List (σ × ActiveNodes)} :
    runEvents commit runner active (event :: events) = some states ↔
      ∃ next rest, commit runner (getSortedPoints (applyEvent active event).adds)
          (getSortedPoints (applyEvent active event).rems) = some next ∧
        runEvents commit next (applyEvent active event).active events = some rest ∧
        states = (next, (applyEvent active event).active) :: rest := by
  constructor
  · intro h
    obtain ⟨next, hnext, h⟩ := Option.bind_eq_some_iff.mp h
    obtain ⟨rest, hrest, h⟩ := Option.bind_eq_some_iff.mp h
    exact ⟨next, rest, hnext, hrest, (Option.some.inj h).symm⟩
  · rintro ⟨next, rest, hnext, hrest, rfl⟩
    simp only [runEvents, hnext, hrest, Option.bind_eq_bind, Option.bind_some]
    rfl

/-- A run goes through when every commit does. -/
theorem runEvents_total {inv : σ → Prop}
    (hcommit : ∀ runner adds rems, inv runner → ∃ next, commit runner adds rems = some next ∧ inv next)
    (events : List Event) : ∀ {runner : σ} {active : ActiveNodes}, inv runner →
      ∃ states, runEvents commit runner active events = some states := by
  induction events with
  | nil => exact fun _ => ⟨[], rfl⟩
  | cons event events ih =>
    intro runner active h
    obtain ⟨next, hnext, hinv⟩ := hcommit runner (getSortedPoints (applyEvent active event).adds)
      (getSortedPoints (applyEvent active event).rems) h
    obtain ⟨rest, hrest⟩ := @ih next (applyEvent active event).active hinv
    exact ⟨_, runEvents_cons_iff.mpr ⟨next, rest, hnext, hrest, rfl⟩⟩

end Runs

end Bench

end Silva
