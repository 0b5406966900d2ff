import Silva.Bench.Proofs.EngineProofs

/-!
# Proofs: replaying events on the quadtree

A batch forgets the order of the operations of its event. As long as no operation of an event touches
what an earlier one has added, and additions are of new identifiers, the commit of the batches leaves
the live points; any other operation leaves a point too many behind.
-/

namespace Silva

namespace Bench

/-! ## Clean events -/

/-- An addition names an identifier that is not live, and a modification or a deletion none that the
event has added before. -/
def CleanOp (s : EventState) (op : Operation) : Prop :=
  (op.opType = 'A' → op.nodeId ∉ s.active.points.map Point.id) ∧
    (op.opType = 'M' ∨ op.opType = 'D' → op.nodeId ∉ s.adds.map Point.id)

/-- All operations of an event are clean. -/
def CleanOps : EventState → List Operation → Prop
  | _, [] => True
  | s, op :: ops => CleanOp s op ∧ CleanOps (s.applyOp op) ops

/-- All events of a workload are clean. -/
def CleanEvents : ActiveNodes → List Event → Prop
  | _, [] => True
  | active, event :: events =>
    CleanOps ⟨[], [], active⟩ event.ops ∧ CleanEvents (applyEvent active event).active events

/-- What the batches leave of the points that were live before the event. -/
def kept (live rems : List Point) : List Point := live.filter fun p => p.id ∉ rems.map Point.id

/-- The batches of the event so far lead from `live` to the live points. -/
structure Batched (live : List Point) (s : EventState) : Prop where
  active : s.active.points.Perm (kept live s.rems ++ s.adds)
  rems : ∀ r ∈ s.rems, r ∈ live

/-- The batches of the event so far leave a point too many: one that is added twice, one that is added
and not live, or an old one that was not removed when its identifier was added. -/
inductive Surplus (live : List Point) (s : EventState) : Prop where
  | twice (h : ¬(s.adds.map Point.id).Nodup)
  | dropped {i : ℕ} (hadds : i ∈ s.adds.map Point.id) (hactive : i ∉ s.active.points.map Point.id)
  | doubled {p : Point} (hp : p ∈ live) (hrems : p.id ∉ s.rems.map Point.id)
      (hadds : p.id ∈ s.adds.map Point.id)

variable {live : List Point} {s : EventState} {op : Operation} {i : ℕ} {old pt : Point}

theorem kept_append_singleton (live rems : List Point) (old : Point) :
    kept live (rems ++ [old]) = (kept live rems).filter fun p => p.id ≠ old.id := by
  unfold kept
  rw [List.filter_filter]
  refine List.filter_congr fun p _ => ?_
  rw [← Bool.decide_and]
  refine decide_eq_decide.mpr ?_
  rw [List.map_append, List.mem_append, List.map_singleton, List.mem_singleton, not_or, and_comm]

theorem filter_ne_of_not_mem {P : List Point} (h : i ∉ P.map Point.id) :
    (P.filter fun p => p.id ≠ i) = P := by
  refine List.filter_eq_self.mpr fun p hp => decide_eq_true ?_
  rintro rfl
  exact h (List.mem_map_of_mem hp)

/-- A point that was live before the event is removed from both sides. -/
theorem Batched.erase (h : Batched live s) (hi : i ∉ s.adds.map Point.id) :
    (s.active.erase i).points.Perm (kept live (s.rems ++ (s.active.find i).toList) ++ s.adds) ∧
      ∀ r ∈ s.rems ++ (s.active.find i).toList, r ∈ live := by
  cases hfind : s.active.find i with
  | none =>
    rw [ActiveNodes.erase_of_not_mem (ActiveNodes.find_eq_none.mp hfind)]
    simp only [Option.toList_none, List.append_nil]
    exact ⟨h.active, h.rems⟩
  | some old =>
    obtain ⟨hold, rfl⟩ := ActiveNodes.find_eq_some.mp hfind
    rw [Option.toList_some, kept_append_singleton]
    constructor
    · have hfilter := h.active.filter fun p => p.id ≠ old.id
      rwa [List.filter_append, filter_ne_of_not_mem hi] at hfilter
    · intro r hr
      rcases List.mem_append.mp hr with hr | hr
      · exact h.rems r hr
      · obtain rfl := List.mem_singleton.mp hr
        rcases List.mem_append.mp (h.active.mem_iff.mp hold) with hmem | hmem
        · exact List.mem_of_mem_filter hmem
        · exact absurd (List.mem_map_of_mem hmem) hi

/-- A clean operation extends the batches correctly. -/
theorem Batched.applyOp (h : Batched live s) (hop : CleanOp s op) : Batched live (s.applyOp op) := by
  by_cases hA : op.opType = 'A'
  · rw [applyOp_A hA]
    refine ⟨?_, h.rems⟩
    rw [ActiveNodes.insert_of_not_mem (hop.1 hA), ← List.append_assoc]
    exact h.active.append_right _
  · by_cases hM : op.opType = 'M'
    · rw [applyOp_M hM]
      obtain ⟨hactive, hrems⟩ := h.erase (hop.2 (Or.inl hM))
      refine ⟨?_, hrems⟩
      rw [← List.append_assoc]
      exact hactive.append_right _
    · by_cases hD : op.opType = 'D'
      · rw [applyOp_D hD]
        obtain ⟨hactive, hrems⟩ := h.erase (hop.2 (Or.inr hD))
        exact ⟨hactive, hrems⟩
      · rwa [applyOp_other hA hM hD]

theorem not_mem_find {j : ℕ} (hj : j ≠ i) (h : j ∉ s.rems.map Point.id) :
    j ∉ (s.rems ++ (s.active.find i).toList).map Point.id := by
  rw [List.map_append, List.mem_append, not_or]
  refine ⟨h, fun hmem => hj ?_⟩
  obtain ⟨p, hp, rfl⟩ := List.mem_map.mp hmem
  exact (ActiveNodes.find_eq_some.mp (Option.mem_toList.mp hp)).2

theorem not_mem_insert {active : ActiveNodes} {j : ℕ} (hj : j ≠ pt.id)
    (h : j ∉ active.points.map Point.id) : j ∉ (active.insert pt).points.map Point.id := by
  intro hmem
  obtain ⟨p, hp, rfl⟩ := List.mem_map.mp hmem
  rcases ActiveNodes.mem_insert.mp hp with ⟨hp, -⟩ | rfl
  · exact h (List.mem_map_of_mem hp)
  · exact hj rfl

theorem not_mem_erase {active : ActiveNodes} {j : ℕ}
    (h : j = i ∨ j ∉ active.points.map Point.id) : j ∉ (active.erase i).points.map Point.id := by
  intro hmem
  obtain ⟨p, hp, rfl⟩ := List.mem_map.mp hmem
  obtain ⟨hp, hne⟩ := ActiveNodes.mem_erase.mp hp
  rcases h with h | h
  · exact hne h
  · exact h (List.mem_map_of_mem hp)

/-- Adding an identifier again makes it occur twice. -/
theorem Surplus.of_readd {s' : EventState} (hadds : s'.adds = s.adds ++ [pt])
    (h : pt.id ∈ s.adds.map Point.id) : Surplus live s' := by
  refine .twice fun hnd => ?_
  rw [hadds, List.map_append, List.nodup_append'] at hnd
  exact hnd.2.2 h List.mem_cons_self

/-- A surplus stays when a point is added. -/
theorem Surplus.add (h : Surplus live s) {s' : EventState} (hadds : s'.adds = s.adds ++ [pt])
    (hactive : s'.active = s.active.insert pt)
    (hrems : ∀ j, j ≠ pt.id → j ∉ s.rems.map Point.id → j ∉ s'.rems.map Point.id) :
    Surplus live s' := by
  by_cases hpt : pt.id ∈ s.adds.map Point.id
  · exact .of_readd hadds hpt
  · have hmem : ∀ {j}, j ∈ s.adds.map Point.id → j ∈ s'.adds.map Point.id ∧ j ≠ pt.id := by
      intro j hj
      rw [hadds, List.map_append]
      exact ⟨List.mem_append_left _ hj, fun heq => hpt (heq ▸ hj)⟩
    cases h with
    | twice h =>
      refine .twice fun hnd => h ?_
      rw [hadds, List.map_append] at hnd
      exact hnd.of_append_left
    | dropped hj hout =>
      obtain ⟨hj', hne⟩ := hmem hj
      exact .dropped hj' (by rw [hactive]; exact not_mem_insert hne hout)
    | doubled hp hout hj =>
      obtain ⟨hj', hne⟩ := hmem hj
      exact .doubled hp (hrems _ hne hout) hj'

/-- A surplus stays, whatever operation follows. -/
theorem Surplus.applyOp (h : Surplus live s) (op : Operation) : Surplus live (s.applyOp op) := by
  by_cases hA : op.opType = 'A'
  · rw [applyOp_A hA]
    exact h.add rfl rfl fun _ _ hout => hout
  · by_cases hM : op.opType = 'M'
    · rw [applyOp_M hM]
      exact h.add rfl rfl fun _ hne hout => not_mem_find hne hout
    · by_cases hD : op.opType = 'D'
      · rw [applyOp_D hD]
        cases h with
        | twice h => exact .twice h
        | dropped hj hout => exact .dropped hj (not_mem_erase (Or.inr hout))
        | @doubled p hp hout hj =>
          by_cases hi : p.id = op.nodeId
          · exact .dropped hj (not_mem_erase (Or.inl hi))
          · exact .doubled hp (not_mem_find hi hout) hj
      · rwa [applyOp_other hA hM hD]

/-- An operation that is not clean makes a surplus. -/
theorem Batched.surplus (h : Batched live s) (hop : ¬CleanOp s op) : Surplus live (s.applyOp op) := by
  rcases not_and_or.mp hop with hadd | htouch
  · obtain ⟨hA, hlive⟩ := Classical.not_imp.mp hadd
    rw [not_not] at hlive
    rw [applyOp_A hA]
    by_cases hadds : op.nodeId ∈ s.adds.map Point.id
    · exact .of_readd rfl hadds
    · obtain ⟨p, hp, hid⟩ := List.mem_map.mp hlive
      have hkept : p ∈ kept live s.rems := by
        refine (List.mem_append.mp (h.active.mem_iff.mp hp)).resolve_right fun hmem => hadds ?_
        rw [← hid]
        exact List.mem_map_of_mem hmem
      obtain ⟨hlive, hrems⟩ := List.mem_filter.mp hkept
      refine .doubled hlive (of_decide_eq_true hrems) ?_
      rw [hid, List.map_append]
      exact List.mem_append_right _ (List.mem_singleton_self _)
  · obtain ⟨hMD, hadded⟩ := Classical.not_imp.mp htouch
    rw [not_not] at hadded
    rcases hMD with hM | hD
    · rw [applyOp_M hM]
      exact .of_readd rfl hadded
    · rw [applyOp_D hD]
      exact .dropped hadded (not_mem_erase (Or.inl rfl))

/-! ## One event -/

theorem batched_nil (active : ActiveNodes) : Batched active.points ⟨[], [], active⟩ := by
  refine ⟨?_, fun r hr => absurd hr List.not_mem_nil⟩
  rw [List.append_nil]
  exact List.Perm.of_eq (List.filter_eq_self.mpr fun _ _ => rfl).symm

theorem Batched.foldl (ops : List Operation) : ∀ {s : EventState}, Batched live s →
    CleanOps s ops → Batched live (ops.foldl EventState.applyOp s) := by
  induction ops with
  | nil => exact fun h _ => h
  | cons op ops ih => exact fun h hops => ih (h.applyOp hops.1) hops.2

theorem Surplus.foldl (ops : List Operation) : ∀ {s : EventState}, Surplus live s →
    Surplus live (ops.foldl EventState.applyOp s) := by
  induction ops with
  | nil => exact fun h => h
  | cons op ops ih => exact fun h => ih (h.applyOp op)

theorem Batched.foldl_surplus (ops : List Operation) : ∀ {s : EventState}, Batched live s →
    ¬CleanOps s ops → Surplus live (ops.foldl EventState.applyOp s) := by
  induction ops with
  | nil => exact fun _ hops => absurd trivial hops
  | cons op ops ih =>
    intro s h hops
    by_cases hop : CleanOp s op
    · exact ih (h.applyOp hop) fun hrest => hops ⟨hop, hrest⟩
    · exact (h.surplus hop).foldl ops

/-! ## One commit -/

theorem withCodes_ids (P : List Point) : (withCodes P).map Point.id = P.map Point.id := by
  unfold withCodes
  rw [List.map_map]
  rfl

theorem getSortedPoints_ids (P : List Point) :
    ((getSortedPoints P).map Point.id).Perm (P.map Point.id) := by
  rw [← withCodes_ids P]
  exact (getSortedPoints_perm P).map _

/-- Batches that lead to the live points: the commit removes exactly what they do not keep. -/
theorem Batched.minus_eq (h : Batched live s) (hnd : (live.map Point.id).Nodup) :
    minus (withCodes live) (getSortedPoints s.rems) = withCodes (kept live s.rems) := by
  unfold minus kept withCodes
  rw [List.filter_map]
  refine congrArg _ (List.filter_congr fun p hp => ?_)
  refine decide_eq_decide.mpr (not_congr ?_)
  rw [((getSortedPoints_perm s.rems).map Point.key).mem_iff, List.map_map]
  constructor
  · intro hkey
    obtain ⟨r, hr, hrp⟩ := List.mem_map.mp hkey
    exact List.mem_map.mpr ⟨r, hr, (key_eq_iff.mp hrp).2⟩
  · intro hid
    obtain ⟨r, hr, hrp⟩ := List.mem_map.mp hid
    obtain rfl := List.inj_on_of_nodup_map hnd (h.rems r hr) hp hrp
    exact List.mem_map_of_mem hr

/-- A surplus shows in the records after the commit. -/
theorem Surplus.not_perm (h : Surplus live s) :
    ¬(minus (withCodes live) (getSortedPoints s.rems) ++ getSortedPoints s.adds).Perm
      (withCodes s.active.points) := by
  intro hperm
  have hids := hperm.map Point.id
  rw [List.map_append, withCodes_ids] at hids
  have hnd := hids.nodup_iff.mpr s.active.nodup
  obtain ⟨-, hadds, hdisj⟩ := List.nodup_append'.mp hnd
  have hmem := getSortedPoints_ids s.adds
  cases h with
  | twice h => exact h (hmem.nodup_iff.mp hadds)
  | dropped hj hout =>
    exact hout (hids.mem_iff.mp (List.mem_append_right _ (hmem.mem_iff.mpr hj)))
  | @doubled p hp hout hj =>
    refine hdisj (List.mem_map.mpr ⟨{ p with mortonId := p.interleaveBits }, ?_, rfl⟩)
      (hmem.mem_iff.mpr hj)
    refine List.mem_filter.mpr ⟨List.mem_map_of_mem hp, decide_eq_true fun hkey => hout ?_⟩
    obtain ⟨r, hr, hrp⟩ := List.mem_map.mp hkey
    exact (getSortedPoints_ids s.rems).mem_iff.mp
      (List.mem_map.mpr ⟨r, hr, (key_eq_iff.mp hrp).2⟩)

/-- One event: the records after the commit are the live points exactly when the event is clean. -/
theorem commit_perm_iff (active : ActiveNodes) (event : Event) :
    (minus (withCodes active.points) (getSortedPoints (applyEvent active event).rems) ++
        getSortedPoints (applyEvent active event).adds).Perm
      (withCodes (applyEvent active event).active.points) ↔
      CleanOps ⟨[], [], active⟩ event.ops := by
  constructor
  · intro hperm
    by_contra hops
    exact ((batched_nil active).foldl_surplus event.ops hops).not_perm hperm
  · intro hops
    have h := (batched_nil active).foldl event.ops hops
    have hmap := h.active.map fun p => { p with mortonId := p.interleaveBits }
    rw [List.map_append] at hmap
    show (minus _ (getSortedPoints (event.ops.foldl EventState.applyOp ⟨[], [], active⟩).rems) ++ _).Perm _
    rw [h.minus_eq active.nodup]
    exact ((getSortedPoints_perm _).append_left _).trans hmap.symm

/-! ## Workloads -/

theorem withCodes_getSortedPoints (P : List Point) :
    withCodes (getSortedPoints P) = getSortedPoints P :=
  map_code_eq_self (getSortedPoints_batch P).coded

theorem nodup_key_withCodes (active : ActiveNodes) :
    ((withCodes active.points).map Point.key).Nodup := by
  refine nodup_key_of_nodup_id ?_
  rw [withCodes_ids]
  exact active.nodup

/-- The commit of an event to a runner whose master version holds the live points. -/
theorem MVQRunner.commit_holds {runner : MVQRunner} {active : ActiveNodes}
    (h : Holds runner.leafSize runner.master (withCodes active.points)) (adds rems : List Point) :
    ∃ next, runner.commit (getSortedPoints adds) (getSortedPoints rems) = some next ∧
      next.leafSize = runner.leafSize ∧
      Holds runner.leafSize next.master
        (minus (withCodes active.points) (getSortedPoints rems) ++ getSortedPoints adds) := by
  obtain ⟨t, ht, hholds⟩ :=
    h.commit (nodup_key_withCodes active) (getSortedPoints adds) (getSortedPoints rems)
  rw [withCodes_getSortedPoints, withCodes_getSortedPoints] at hholds
  refine ⟨{ runner with master := t, history := runner.history ++ [t] }, ?_, rfl, hholds⟩
  unfold MVQRunner.commit
  rw [ht]
  rfl

/-- The base points come back from their conversion, with codes. -/
theorem withCodes_baseValues (data : DatasetLoader) :
    withCodes ((baseValues data).map toPoint) = withCodes data.baseData := by
  unfold baseValues withCodes
  rw [List.map_map, List.map_map]
  rfl

theorem MVQRunner.buildBase_holds (leafSize : ℕ) (data : DatasetLoader) :
    Holds leafSize (buildBase leafSize (baseValues data)).master (withCodes data.baseData) := by
  refine ⟨_, ?_, build_isVersion (getSortedPoints_batch _)⟩
  rw [← withCodes_baseValues]
  exact getSortedPoints_perm _

/-- The records of the master version after a commit. -/
theorem MVQRunner.commit_records {runner : MVQRunner} (h : Version runner.leafSize runner.master)
    (adds rems : List Point) :
    ∃ next, runner.commit adds rems = some next ∧ Version next.leafSize next.master ∧
      Tree.collectRecords next.master = parlayMerge mortonCmp
        (survivors (Tree.collectRecords runner.master) (getSortedPoints rems))
        (getSortedPoints adds) := by
  obtain ⟨t, ht, hw⟩ := IsVersion.commit h.isVersion adds rems
  refine ⟨{ runner with master := t, history := runner.history ++ [t] }, ?_, h.commit ht,
    hw.collectRecords⟩
  unfold MVQRunner.commit
  rw [ht]
  rfl

theorem MVQRunner.commit_total (runner : MVQRunner) (adds rems : List Point)
    (h : Version runner.leafSize runner.master) :
    ∃ next, runner.commit adds rems = some next ∧ Version next.leafSize next.master := by
  obtain ⟨next, hnext, hver, -⟩ := commit_records h adds rems
  exact ⟨next, hnext, hver⟩

theorem MVQRunner.version_commit {runner next : MVQRunner} {adds rems : List Point}
    (h : Version runner.leafSize runner.master) (hnext : runner.commit adds rems = some next) :
    Version next.leafSize next.master := by
  obtain ⟨next', hnext', hver⟩ := commit_total runner adds rems h
  cases hnext.symm.trans hnext'
  exact hver

/-- Sorting a sorted batch again changes nothing but the order. -/
theorem getSortedPoints_twice_perm (P : List Point) :
    (getSortedPoints (getSortedPoints P)).Perm (withCodes P) :=
  (getSortedPoints_perm_self (getSortedPoints_batch P).coded).trans (getSortedPoints_perm P)

/-- The events of a workload, from a runner whose master version holds the live points. -/
theorem runEvents_perm_iff (events : List Event) : ∀ {runner : MVQRunner} {active : ActiveNodes}
    {states : List (MVQRunner × ActiveNodes)},
    Holds runner.leafSize runner.master (withCodes active.points) →
    runEvents MVQRunner.commit runner active events = some states →
    ((∀ st ∈ states, (Tree.collectRecords st.1.master).Perm (withCodes st.2.points)) ↔
      CleanEvents active events) := by
  induction events with
  | nil =>
    intro runner active states _ hrun
    obtain rfl := Option.some.inj hrun
    exact iff_of_true (fun st hst => absurd hst List.not_mem_nil) trivial
  | cons event events ih =>
    intro runner active states h hrun
    obtain ⟨next, rest, hcommit, hrest, rfl⟩ := runEvents_cons_iff.mp hrun
    obtain ⟨next', hnext, hleaf, P, hP, hw⟩ :=
      MVQRunner.commit_holds h (applyEvent active event).adds (applyEvent active event).rems
    obtain rfl : next = next' := Option.some.inj (hcommit.symm.trans hnext)
    rw [List.forall_mem_cons, CleanEvents, ← commit_perm_iff, hw.collectRecords, hP.congr_left]
    -- once the two differ, the further events do not matter
    refine and_congr_right fun hperm => ih ?_ hrest
    rw [hleaf]
    exact ⟨P, hP.trans hperm, hw⟩

/-- Replay. The master version holds the live points after every commit of a workload exactly when all
its events are clean. -/
theorem replay_iff (leafSize : ℕ) {data : DatasetLoader} (hids : (data.baseData.map Point.id).Nodup) :
    ∃ states, runWorkload MVQRunner.commit (.buildBase leafSize (baseValues data)) data =
        some states ∧
      ((∀ st ∈ states, (Tree.collectRecords st.1.master).Perm (withCodes st.2.points)) ↔
        CleanEvents (initActive data.baseData) data.allEvents) := by
  have hbase := MVQRunner.buildBase_holds leafSize data
  obtain ⟨P, -, hw⟩ := id hbase
  obtain ⟨states, hrun⟩ := @runEvents_total _ MVQRunner.commit
    (fun runner => Version runner.leafSize runner.master) MVQRunner.commit_total data.allEvents
    (.buildBase leafSize (baseValues data)) (initActive data.baseData) hw.version
  refine ⟨states, hrun, runEvents_perm_iff data.allEvents ?_ hrun⟩
  rwa [initActive_points hids]

/-- A changeset that moves one point and adds another one. -/
theorem replay_iff_move :
    let data : DatasetLoader :=
      { baseData := [⟨1, 1, 1, 0⟩]
        allEvents := [⟨7, [⟨'M', 1, 5, 6⟩, ⟨'A', 2, 3, 1⟩]⟩]
        largestMbr := ⟨.ofXY 0 0, .ofXY 6 6⟩ }
    ∃ states, runWorkload MVQRunner.commit (.buildBase 32 (baseValues data)) data = some states ∧
      ∀ st ∈ states, (Tree.collectRecords st.1.master).Perm (withCodes st.2.points) := by
  intro data
  obtain ⟨states, hrun, hiff⟩ := @replay_iff 32 data (by decide)
  refine ⟨states, hrun, hiff.mpr ?_⟩
  simp [data, CleanEvents, CleanOps, CleanOp, initActive, ActiveNodes.insert,
    ActiveNodes.erase, ActiveNodes.empty, EventState.applyOp, Operation.pt]

/-- A changeset that adds a point and deletes it again leaves the point in the master version. -/
theorem added_and_deleted_stays :
    let data : DatasetLoader :=
      { baseData := []
        allEvents := [⟨7, [⟨'A', 1, 1, 1⟩, ⟨'D', 1, 0, 0⟩]⟩]
        largestMbr := ⟨.ofXY 0 0, .ofXY 6 6⟩ }
    ∃ states, runWorkload MVQRunner.commit (.buildBase 32 (baseValues data)) data = some states ∧
      ¬∀ st ∈ states, (Tree.collectRecords st.1.master).Perm (withCodes st.2.points) := by
  intro data
  have hbase : Holds (MVQRunner.buildBase 32 (baseValues data)).leafSize
      (MVQRunner.buildBase 32 (baseValues data)).master (withCodes ActiveNodes.empty.points) :=
    MVQRunner.buildBase_holds 32 data
  obtain ⟨next, hnext, -⟩ := MVQRunner.commit_holds hbase [⟨1, 1, 1, 0⟩] [⟨1, 1, 1, 0⟩]
  have hrun : runWorkload MVQRunner.commit (.buildBase 32 (baseValues data)) data =
      some [(next, (applyEvent .empty ⟨7, [⟨'A', 1, 1, 1⟩, ⟨'D', 1, 0, 0⟩]⟩).active)] := by
    show ((MVQRunner.buildBase 32 (baseValues data)).commit (getSortedPoints [⟨1, 1, 1, 0⟩])
      (getSortedPoints [⟨1, 1, 1, 0⟩]) >>= _) = _
    rw [hnext]
    rfl
  refine ⟨_, hrun, fun hall => ?_⟩
  have hclean := (runEvents_perm_iff data.allEvents hbase hrun).mp hall
  exact hclean.1.2.1.2 (Or.inr rfl) (by decide)

end Bench

end Silva
