import Silva.Bench.Proofs.ReplayProofs
import Silva.Mvq.Proofs.RangeProofs

/-!
# Proofs: the box that prunes the queries of the quadtree runner

The runner passes the box of the static `Config` to its queries. A commit keeps all points that it adds,
so the box covers the records of every master version exactly when it covers all points of the workload.
The box of the loader does; `verify_bench` leaves the one of `Config` at zero.
-/

namespace Silva

namespace Bench

/-- The points of a workload: the snapshot, and what the events add. -/
def DatasetLoader.points (data : DatasetLoader) : List Point :=
  data.baseData ++ data.allEvents.flatMap Event.added

/-- The box of the configuration contains the records of the master version. -/
def Covers (config : Config) (runner : MVQRunner) : Prop :=
  ∀ p ∈ Tree.collectRecords runner.master, pointInMbr p config.largestMbr = true

/-- The records of the master version include the live points. -/
def Stores (runner : MVQRunner) (active : ActiveNodes) : Prop :=
  ∀ p ∈ withCodes active.points, p ∈ Tree.collectRecords runner.master

/-- A range query reports every live point in its box, if `shared_out` has enough slots. -/
def ReportsActive (config : Config) (runner : MVQRunner) (active : ActiveNodes) : Prop :=
  ∀ (q : BoundingBox) (sharedOut : List Point) (h : ℕ),
    ((Tree.collectRecords runner.master).countP fun p => pointInMbr p q) ≤ sharedOut.length →
    ∀ p ∈ withCodes active.points, pointInMbr p q = true →
      ∃ out cnt h', MVQRunner.rangeQuery config runner q sharedOut h = (out, cnt, h') ∧
        p ∈ out.take cnt

variable {config : Config} {runner next : MVQRunner} {active : ActiveNodes}

/-! ## One commit -/

theorem forall_withCodes_inMbr {P : List Point} {mbr : BoundingBox} :
    (∀ p ∈ withCodes P, pointInMbr p mbr = true) ↔ ∀ p ∈ P, pointInMbr p mbr = true :=
  List.forall_mem_map

section Commit

variable {adds rems : List Point} (h : Version runner.leafSize runner.master)
  (hnext : runner.commit (getSortedPoints adds) (getSortedPoints rems) = some next)

include h hnext

theorem MVQRunner.mem_commit {p : Point} : p ∈ Tree.collectRecords next.master ↔
    p ∈ survivors (Tree.collectRecords runner.master) (getSortedPoints (getSortedPoints rems)) ∨
      p ∈ withCodes adds := by
  obtain ⟨next', hnext', -, hrecords⟩ :=
    commit_records h (getSortedPoints adds) (getSortedPoints rems)
  cases hnext.symm.trans hnext'
  rw [hrecords, mem_parlayMerge, (getSortedPoints_twice_perm adds).mem_iff]

/-- The box still covers the records when it covers the added points, and only then. -/
theorem Covers.commit_iff (hcov : Covers config runner) :
    Covers config next ↔ ∀ p ∈ adds, pointInMbr p config.largestMbr = true := by
  rw [← forall_withCodes_inMbr]
  constructor
  · intro hcov' p hp
    exact hcov' p ((MVQRunner.mem_commit h hnext).mpr (Or.inr hp))
  · intro hadds p hp
    rcases (MVQRunner.mem_commit h hnext).mp hp with hold | hadd
    · exact hcov p ((survivors_sublist _ _).subset hold)
    · exact hadds p hadd

theorem MVQRunner.mem_commit_of_id {p : Point} (hp : p ∈ Tree.collectRecords runner.master)
    (hid : p.id ∉ rems.map Point.id) : p ∈ Tree.collectRecords next.master := by
  refine (mem_commit h hnext).mpr (Or.inl (mem_survivors_of_key hp fun hkey => hid ?_))
  obtain ⟨r, hr, hrp⟩ := List.mem_map.mp hkey
  rw [← withCodes_ids rems]
  exact List.mem_map.mpr ⟨r, (getSortedPoints_twice_perm rems).mem_iff.mp hr, (key_eq_iff.mp hrp).2⟩

end Commit

theorem Stores.commit (h : Version runner.leafSize runner.master) (hst : Stores runner active)
    (event : Event)
    (hnext : runner.commit (getSortedPoints (applyEvent active event).adds)
      (getSortedPoints (applyEvent active event).rems) = some next) :
    Stores next (applyEvent active event).active := by
  intro p hp
  obtain ⟨q, hq, rfl⟩ := List.mem_map.mp hp
  rcases live_applyEvent active event q hq with hadd | ⟨hlive, hid⟩
  · exact (MVQRunner.mem_commit h hnext).mpr (Or.inr (List.mem_map_of_mem hadd))
  · exact MVQRunner.mem_commit_of_id h hnext (hst _ (List.mem_map_of_mem hlive)) hid

/-! ## Runs -/

/-- After every event the live points are stored. -/
theorem runEvents_stores (events : List Event) : ∀ {runner : MVQRunner} {active : ActiveNodes}
    {states : List (MVQRunner × ActiveNodes)}, Version runner.leafSize runner.master →
    Stores runner active → runEvents MVQRunner.commit runner active events = some states →
    ∀ st ∈ states, Version st.1.leafSize st.1.master ∧ Stores st.1 st.2 := by
  induction events with
  | nil =>
    intro runner active states _ _ hrun
    obtain rfl := Option.some.inj hrun
    exact fun st hst => absurd hst List.not_mem_nil
  | cons event events ih =>
    intro runner active states h hst hrun
    obtain ⟨next, rest, hnext, hrest, rfl⟩ := runEvents_cons_iff.mp hrun
    have hver := MVQRunner.version_commit h hnext
    have hst' := hst.commit h event hnext
    exact List.forall_mem_cons.mpr ⟨⟨hver, hst'⟩, ih hver hst' hrest⟩

/-- The box covers the records of all master versions exactly when it covers the added points. -/
theorem runEvents_covers_iff (events : List Event) : ∀ {runner : MVQRunner} {active : ActiveNodes}
    {states : List (MVQRunner × ActiveNodes)}, Version runner.leafSize runner.master →
    Covers config runner → runEvents MVQRunner.commit runner active events = some states →
    ((∀ st ∈ states, Covers config st.1) ↔
      ∀ p ∈ events.flatMap Event.added, pointInMbr p config.largestMbr = true) := by
  induction events with
  | nil =>
    intro runner active states _ _ hrun
    obtain rfl := Option.some.inj hrun
    simp
  | cons event events ih =>
    intro runner active states h hcov hrun
    obtain ⟨next, rest, hnext, hrest, rfl⟩ := runEvents_cons_iff.mp hrun
    have hver := MVQRunner.version_commit h hnext
    have hiff := hcov.commit_iff h hnext
    rw [applyEvent_adds] at hiff
    rw [List.forall_mem_cons, List.flatMap_cons, List.forall_mem_append, ← hiff]
    exact and_congr_right fun hcov' => ih hver hcov' hrest

/-- The live points of a snapshot are points of the snapshot. -/
theorem mem_initActive {baseData : List Point} {p : Point} (hp : p ∈ (initActive baseData).points) :
    p ∈ baseData := by
  have hloop : ∀ (P : List Point) (active : ActiveNodes),
      p ∈ (P.foldl ActiveNodes.insert active).points → p ∈ active.points ∨ p ∈ P := by
    intro P
    induction P with
    | nil => exact fun _ h => Or.inl h
    | cons q P ih =>
      intro active h
      rcases ih (active.insert q) h with hins | hP
      · rcases ActiveNodes.mem_insert.mp hins with ⟨hold, -⟩ | rfl
        · exact Or.inl hold
        · exact Or.inr List.mem_cons_self
      · exact Or.inr (List.mem_cons_of_mem q hP)
  exact (hloop baseData .empty hp).resolve_left List.not_mem_nil

/-- The base version has the base points as its records. -/
theorem MVQRunner.mem_buildBase (leafSize : ℕ) (data : DatasetLoader) {p : Point} :
    p ∈ Tree.collectRecords (buildBase leafSize (baseValues data)).master ↔
      p ∈ withCodes data.baseData := by
  obtain ⟨P, hP, hw⟩ := MVQRunner.buildBase_holds leafSize data
  rw [hw.collectRecords, hP.mem_iff]

/-- A whole workload, with any box. -/
theorem runWorkload_covers_iff (config : Config) (leafSize : ℕ) (data : DatasetLoader) :
    let runner := MVQRunner.buildBase leafSize (baseValues data)
    ∃ states, runWorkload MVQRunner.commit runner data = some states ∧
      (∀ st ∈ (runner, initActive data.baseData) :: states,
        Version st.1.leafSize st.1.master ∧ Stores st.1 st.2) ∧
      ((∀ st ∈ (runner, initActive data.baseData) :: states, Covers config st.1) ↔
        ∀ p ∈ data.points, pointInMbr p config.largestMbr = true) := by
  intro runner
  obtain ⟨P, -, hw⟩ := MVQRunner.buildBase_holds leafSize data
  have hver : Version runner.leafSize runner.master := hw.version
  have hst : Stores runner (initActive data.baseData) := by
    intro p hp
    obtain ⟨q, hq, rfl⟩ := List.mem_map.mp hp
    exact (MVQRunner.mem_buildBase leafSize data).mpr (List.mem_map_of_mem (mem_initActive hq))
  have hbase : Covers config runner ↔ ∀ p ∈ data.baseData, pointInMbr p config.largestMbr = true := by
    rw [← forall_withCodes_inMbr]
    exact forall_congr' fun p => imp_congr_left (MVQRunner.mem_buildBase leafSize data)
  obtain ⟨states, hrun⟩ := @runEvents_total _ MVQRunner.commit
    (fun runner => Version runner.leafSize runner.master) MVQRunner.commit_total data.allEvents
    runner (initActive data.baseData) hver
  refine ⟨states, hrun, ?_, ?_⟩
  · exact List.forall_mem_cons.mpr ⟨⟨hver, hst⟩, runEvents_stores data.allEvents hver hst hrun⟩
  · unfold DatasetLoader.points
    rw [List.forall_mem_cons, List.forall_mem_append, ← hbase]
    exact and_congr_right fun hcov => runEvents_covers_iff data.allEvents hver hcov hrun

/-! ## Queries -/

/-- In a covered version no live point is pruned away. -/
theorem Covers.reportsActive (h : Version runner.leafSize runner.master) (hcov : Covers config runner)
    (hgrid : ∀ p ∈ Tree.collectRecords runner.master, p.OnGrid) (hst : Stores runner active) :
    ReportsActive config runner active := by
  intro q sharedOut hash hout p hp hin
  have hreport := h.isVersion.rangeReportNode q (Located.root hcov hgrid) (0, sharedOut)
  rw [countP_pointInMbr] at hout
  refine ⟨_, _, _, rfl, ?_⟩
  rw [hreport]
  show p ∈ (Buffer.write sharedOut 0 _).take (0 + _)
  rw [Buffer.take_write (by rwa [Nat.zero_add])]
  exact List.mem_append_right _ (List.mem_filter.mpr ⟨hst p hp, hin⟩)

/-- A query box that is disjoint from the pruning box prunes everything. -/
theorem rangeReport_of_neg {t : BaseNode} {q curMbr : BoundingBox} (h : mbrMbrRelation curMbr q < 0)
    {cnt : ℕ} {out : List Point} : Tree.rangeReport t q curMbr cnt out = (cnt, out) := by
  unfold Tree.rangeReport
  cases t with
  | nullptr => rfl
  | leafNode records => rw [Tree.rangeReportNode, if_pos h]
  | inteNode lSon rSon numPts => rw [Tree.rangeReportNode, if_pos h]

/-! ## The box of the loader -/

/-- The coordinates of the point lie between the bounds. -/
def Extent.Contains (e : Extent) (p : Point) : Prop :=
  (e.minX ≤ p.x ∧ p.x ≤ e.maxX) ∧ e.minY ≤ p.y ∧ p.y ≤ e.maxY

theorem Extent.Contains.updateMbr {e : Extent} {p : Point} (h : e.Contains p) (lon lat : FT) :
    (e.updateMbr lon lat).Contains p := by
  obtain ⟨⟨hx, hx'⟩, hy, hy'⟩ := h
  unfold Extent.updateMbr Extent.Contains
  grind

theorem Extent.contains_updateMbr (e : Extent) (p : Point) : (e.updateMbr p.x p.y).Contains p := by
  unfold Extent.updateMbr Extent.Contains
  grind

theorem Extent.Contains.inMbr {e : Extent} {p : Point} (h : e.Contains p) :
    pointInMbr p e.largestMbr = true := by
  obtain ⟨⟨hx, hx'⟩, hy, hy'⟩ := h
  unfold pointInMbr Extent.largestMbr Point.ofXY
  rw [decide_eq_true_eq]
  refine ⟨?_, ?_, ?_, ?_⟩ <;> dsimp only <;> linarith

theorem contains_loadBaseRow {st : Extent × List Point} (h : ∀ p ∈ st.2, st.1.Contains p)
    (row : BaseRow) : ∀ p ∈ (loadBaseRow st row).2, (loadBaseRow st row).1.Contains p := by
  refine List.forall_mem_append.mpr ⟨fun p hp => (h p hp).updateMbr _ _, ?_⟩
  exact List.forall_mem_singleton.mpr (st.1.contains_updateMbr _)

/-- The points that the events of a year add so far, the current event included. -/
def YearState.points (st : YearState) : List Point :=
  (st.allEvents ++ [st.currentEvent]).flatMap Event.added

theorem points_loadCommitRow (st : YearState) (row : CommitRow) :
    (loadCommitRow st row).points = st.points ++ Event.added ⟨row.cs, [row.operation]⟩ := by
  have hsame : ∀ (cs cs' : ℕ) (ops : List Operation), Event.added ⟨cs, ops⟩ = Event.added ⟨cs', ops⟩ :=
    fun _ _ _ => rfl
  have hsnoc : ∀ (cs : ℕ) (ops : List Operation),
      Event.added ⟨cs, ops ++ [row.operation]⟩ =
        Event.added ⟨cs, ops⟩ ++ Event.added ⟨row.cs, [row.operation]⟩ := by
    intro cs ops
    unfold Event.added
    rw [List.filter_append, List.map_append]
  unfold loadCommitRow YearState.points
  by_cases hfirst : st.first = true
  · simp [hfirst, hsnoc, hsame row.cs st.currentEvent.changesetId]
  · by_cases hcs : st.currentEvent.changesetId = row.cs
    · simp [hfirst, hcs, hsnoc, hsame row.cs st.currentEvent.changesetId]
    · simp [hfirst, hcs]

theorem contains_loadCommitRow {st : YearState} {base : List Point}
    (h : ∀ p ∈ base ++ st.points, st.extent.Contains p) (row : CommitRow) :
    ∀ p ∈ base ++ (loadCommitRow st row).points, (loadCommitRow st row).extent.Contains p := by
  have hextent : (loadCommitRow st row).extent = if row.operation.opType ≠ 'D' then
      st.extent.updateMbr row.operation.lon row.operation.lat else st.extent := by
    unfold loadCommitRow
    rfl
  rw [points_loadCommitRow, ← List.append_assoc, List.forall_mem_append, hextent]
  constructor
  · intro p hp
    split
    · exact (h p hp).updateMbr _ _
    · exact h p hp
  · intro p hp
    obtain ⟨op, hop, rfl⟩ := List.mem_map.mp hp
    obtain ⟨hmem, htype⟩ := List.mem_filter.mp hop
    obtain rfl := List.mem_singleton.mp hmem
    have hD : row.operation.opType ≠ 'D' := by
      intro hD
      rw [hD] at htype
      exact absurd htype (by decide)
    rw [if_pos hD]
    exact st.extent.contains_updateMbr row.operation.pt

theorem contains_loadYear {st : Extent × List Event} {base : List Point}
    (h : ∀ p ∈ base ++ st.2.flatMap Event.added, st.1.Contains p) (rows : List CommitRow) :
    ∀ p ∈ base ++ (loadYear st rows).2.flatMap Event.added, (loadYear st rows).1.Contains p := by
  have hinit : ∀ p ∈ base ++ YearState.points
      { extent := st.1, allEvents := st.2, currentEvent := ⟨0, []⟩, first := true },
      st.1.Contains p := by
    simpa [YearState.points, Event.added] using h
  have hrows := List.foldlRecOn (motive := fun st => ∀ p ∈ base ++ st.points, st.extent.Contains p)
    rows loadCommitRow hinit fun st hst row _ => contains_loadCommitRow hst row
  unfold loadYear
  rw [List.forall_mem_append] at hrows ⊢
  refine ⟨hrows.1, fun p hp => hrows.2 p ?_⟩
  unfold YearState.points
  dsimp only at hp
  split at hp
  · exact hp
  · rw [List.flatMap_append]
    exact List.mem_append_left _ hp

/-- The box of the loader contains all points of the workload. -/
theorem inMbr_load (snapshot : List BaseRow) (years : List (List CommitRow)) :
    ∀ p ∈ (load snapshot years).points, pointInMbr p (load snapshot years).largestMbr = true := by
  have hbase := List.foldlRecOn (motive := fun st => ∀ p ∈ st.2, Extent.Contains st.1 p)
    snapshot loadBaseRow (b := ({}, [])) (fun p hp => absurd hp List.not_mem_nil)
    fun st hst row _ => contains_loadBaseRow hst row
  have hyears := List.foldlRecOn
    (motive := fun st => ∀ p ∈ (snapshot.foldl loadBaseRow ({}, [])).2 ++ st.2.flatMap Event.added,
      Extent.Contains st.1 p)
    years loadYear (b := ((snapshot.foldl loadBaseRow ({}, [])).1, []))
    (by simpa using hbase) fun st hst rows _ => contains_loadYear hst rows
  exact fun p hp => (hyears p hp).inMbr

/-- With that box in the configuration, every master version would be covered. -/
theorem loader_box_covers (leafSize : ℕ) (snapshot : List BaseRow) (years : List (List CommitRow)) :
    let data := load snapshot years
    let runner := MVQRunner.buildBase leafSize (baseValues data)
    ∃ states, runWorkload MVQRunner.commit runner data = some states ∧
      ∀ st ∈ (runner, initActive data.baseData) :: states,
        Covers { leafSize, largestMbr := data.largestMbr } st.1 := by
  intro data runner
  obtain ⟨states, hrun, -, hiff⟩ :=
    runWorkload_covers_iff { leafSize, largestMbr := data.largestMbr } leafSize data
  exact ⟨states, hrun, hiff.mpr (inMbr_load snapshot years)⟩

/-! ## The two boxes -/

/-- The zero box only contains the origin. -/
theorem pointInMbr_zero {p : Point} :
    pointInMbr p ⟨.ofXY 0 0, .ofXY 0 0⟩ = true ↔ p.x = 0 ∧ p.y = 0 := by
  unfold pointInMbr Point.ofXY
  rw [decide_eq_true_eq]
  constructor
  · rintro ⟨hx, hx', hy, hy'⟩
    exact ⟨le_antisymm hx' hx, le_antisymm hy' hy⟩
  · rintro ⟨hx, hy⟩
    simp [hx, hy]

theorem onGrid_zero {p : Point} (h : p.x = 0 ∧ p.y = 0) : p.OnGrid :=
  Point.IsInteger.onGrid ⟨0, 0, by norm_num, by norm_num, by simp [h.1], by simp [h.2]⟩

/-- The pruning box of `verify_bench`: it covers the records in every state of a run, and range queries
report all live points, exactly when all points of the workload are at the origin. -/
theorem pruning_box_covers_iff (data : DatasetLoader) :
    let config : Config := {}
    let runner := MVQRunner.buildBase config.leafSize (baseValues data)
    ∃ states, runWorkload MVQRunner.commit runner data = some states ∧
      ((∀ st ∈ (runner, initActive data.baseData) :: states,
          Covers config st.1 ∧ ReportsActive config st.1 st.2) ↔
        ∀ p ∈ data.points, p.x = 0 ∧ p.y = 0) := by
  intro config runner
  obtain ⟨states, hrun, hinv, hiff⟩ := runWorkload_covers_iff config config.leafSize data
  refine ⟨states, hrun, ?_⟩
  have horigin : (∀ p ∈ data.points, pointInMbr p config.largestMbr = true) ↔
      ∀ p ∈ data.points, p.x = 0 ∧ p.y = 0 := forall₂_congr fun p _ => pointInMbr_zero
  rw [← horigin, ← hiff]
  constructor
  · exact fun h st hst => (h st hst).1
  · intro h st hst
    obtain ⟨hver, hstored⟩ := hinv st hst
    exact ⟨h st hst, (h st hst).reportsActive hver
      (fun p hp => onGrid_zero (pointInMbr_zero.mp (h st hst p hp))) hstored⟩

/-- A query at the place of a live point outside the zero box reports nothing. -/
theorem not_reportsActive {p : Point} (hp : p ∈ withCodes active.points) (h : ¬(p.x = 0 ∧ p.y = 0)) :
    ¬ReportsActive {} runner active := by
  intro hreport
  have hneg : mbrMbrRelation ⟨.ofXY 0 0, .ofXY 0 0⟩ ⟨.ofXY p.x p.y, .ofXY p.x p.y⟩ < 0 := by
    unfold mbrMbrRelation Point.ofXY
    rw [if_neg]
    · decide
    · rintro ⟨hx, hy⟩
      simp only [max_le_iff, le_min_iff] at hx hy
      exact h ⟨le_antisymm hx.1.2 hx.2.1, le_antisymm hy.1.2 hy.2.1⟩
  have hin : pointInMbr p ⟨.ofXY p.x p.y, .ofXY p.x p.y⟩ = true := by simp [pointInMbr, Point.ofXY]
  obtain ⟨out, cnt, h', hquery, hmem⟩ := hreport ⟨.ofXY p.x p.y, .ofXY p.x p.y⟩
    (List.replicate (Tree.collectRecords runner.master).length default) 0
    (by rw [List.length_replicate]; exact List.countP_le_length) p hp hin
  have hnone : Tree.rangeReport runner.master ⟨.ofXY p.x p.y, .ofXY p.x p.y⟩ ⟨.ofXY 0 0, .ofXY 0 0⟩ 0
      (List.replicate (Tree.collectRecords runner.master).length default) = (0, _) :=
    rangeReport_of_neg hneg
  unfold MVQRunner.rangeQuery at hquery
  rw [hnone] at hquery
  cases hquery
  exact List.not_mem_nil hmem

/-- A point is added away from the origin. -/
theorem added_point_pruned :
    let data := load [] [[⟨7, 'A', 2, 3, 1⟩]]
    let config : Config := {}
    ∃ states, runWorkload MVQRunner.commit (.buildBase config.leafSize (baseValues data)) data =
        some states ∧
      ∃ st ∈ states, ¬Covers config st.1 ∧ ¬ReportsActive config st.1 st.2 := by
  intro data config
  have hver := (MVQRunner.buildBase_holds config.leafSize data).choose_spec.2.version
  obtain ⟨next, hnext, -⟩ := MVQRunner.commit_total
    (.buildBase config.leafSize (baseValues data)) (getSortedPoints [⟨2, 3 * 1000000, 1 * 1000000, 0⟩])
    (getSortedPoints []) hver
  have hrun : runWorkload MVQRunner.commit (.buildBase config.leafSize (baseValues data)) data =
      some [(next, ActiveNodes.empty.insert ⟨2, 3 * 1000000, 1 * 1000000, 0⟩)] := by
    show ((MVQRunner.buildBase config.leafSize (baseValues data)).commit
      (getSortedPoints [⟨2, 3 * 1000000, 1 * 1000000, 0⟩]) (getSortedPoints []) >>= _) = _
    rw [hnext]
    rfl
  refine ⟨_, hrun, _, List.mem_cons_self, fun hcov => ?_, ?_⟩
  · have hmem := (MVQRunner.mem_commit hver hnext).mpr (Or.inr List.mem_cons_self)
    exact absurd (hcov _ hmem) (by decide +kernel)
  · exact not_reportsActive (p := _) List.mem_cons_self (by decide +kernel)

end Bench

end Silva
