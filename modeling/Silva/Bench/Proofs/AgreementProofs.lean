import Silva.Bench.Proofs.ReplayProofs
import Silva.Pacz.Proofs.MapMergeProofs
import Silva.Rlog.Proofs.ViewProofs

/-!
# Proofs: the runners against each other

The three commits apply the batches in different orders and delete by different identities. They show
the same points as long as a batch adds no identifier that was ever removed, adds no point that shares
its key with another stored one, and removes only points that are stored once.
-/

namespace Silva

namespace Bench

open Rlog (Value RTree Logs)

/-! ## Harmless batches -/

/-- The operation changes the live points, if it finds its identifier. -/
def Operation.touches (op : Operation) : Bool :=
  op.opType = 'A' ∨ op.opType = 'M' ∨ op.opType = 'D'

/-- The event touches each identifier at most once. -/
def TouchesOnce (event : Event) : Prop :=
  ((event.ops.filter Operation.touches).map Operation.nodeId).Nodup

instance (event : Event) : Decidable (TouchesOnce event) := inferInstanceAs (Decidable (List.Nodup _))

/-- What the commits so far have stored, and the identifiers that they have removed. -/
structure Committed where
  stored : List Point
  removedIds : List ℕ

/-- The batches of the next event are committed. -/
def Committed.next (c : Committed) (adds rems : List Point) : Committed where
  stored := kept c.stored rems ++ withCodes adds
  removedIds := c.removedIds ++ rems.map Point.id

/-- No added identifier was ever removed, not even by the same event; a stored point with the key of an
added one is that point; and a removed point is the only stored one with its identifier. -/
structure Harmless (c : Committed) (adds rems : List Point) : Prop where
  fresh : ∀ a ∈ adds, a.id ∉ c.removedIds ++ rems.map Point.id
  unmoved : ∀ a ∈ withCodes adds, ∀ q ∈ c.stored, q.key = a.key → q = a
  single : ∀ r ∈ withCodes rems, pointsOf c.stored r.id = [r]

/-- The batches of all events are harmless. -/
def HarmlessEvents : Committed → ActiveNodes → List Event → Prop
  | _, _, [] => True
  | c, active, event :: events =>
    let s := applyEvent active event
    Harmless c s.adds s.rems ∧ HarmlessEvents (c.next s.adds s.rems) s.active events

variable {c : Committed} {adds rems : List Point}

/-- The identifiers that an event adds are among those that it touches. -/
theorem TouchesOnce.nodup_adds {event : Event} (h : TouchesOnce event) (active : ActiveNodes) :
    ((applyEvent active event).adds.map Point.id).Nodup := by
  rw [applyEvent_adds, Event.added, List.map_map]
  refine h.sublist (List.Sublist.map _ (List.monotone_filter_right event.ops fun op hop => ?_))
  unfold Operation.touches
  simp only [decide_eq_true_eq] at hop ⊢
  tauto

/-! ## One commit -/

theorem pointsOf_perm {P Q : List Point} (h : P.Perm Q) (i : ℕ) :
    (pointsOf P i).Perm (pointsOf Q i) := h.filter _

namespace Harmless

variable {Q : List Point} (h : Harmless c adds rems) (hQ : Q.Perm (withCodes rems))

include h hQ

/-- A stored point has a removed key exactly when it has a removed identifier. -/
theorem key_mem_iff {p : Point} (hp : p ∈ c.stored) :
    p.key ∈ Q.map Point.key ↔ p.id ∈ rems.map Point.id := by
  rw [(hQ.map Point.key).mem_iff, ← withCodes_ids rems]
  constructor
  · intro hkey
    obtain ⟨r, hr, hrp⟩ := List.mem_map.mp hkey
    exact List.mem_map.mpr ⟨r, hr, (key_eq_iff.mp hrp).2⟩
  · intro hid
    obtain ⟨r, hr, hrp⟩ := List.mem_map.mp hid
    have hmem : p ∈ pointsOf c.stored r.id := List.mem_filter.mpr ⟨hp, by simp [hrp]⟩
    rw [h.single r hr, List.mem_singleton] at hmem
    rw [hmem]
    exact List.mem_map_of_mem hr

theorem minus_eq : minus c.stored Q = kept c.stored rems :=
  List.filter_congr fun _ hp => decide_eq_decide.mpr (not_congr (h.key_mem_iff hQ hp))

/-- No removed key is stored twice. -/
theorem once {records : List Point} (hrecords : records.Perm c.stored) :
    records.Pairwise fun p q => p.key = q.key → p.key ∉ Q.map Point.key := by
  rw [List.pairwise_iff_getElem]
  intro i j hi hj hij hkey hmem
  have hpi : records[i] ∈ c.stored := hrecords.mem_iff.mp (List.getElem_mem hi)
  have hid := (h.key_mem_iff hQ hpi).mp hmem
  rw [← withCodes_ids] at hid
  obtain ⟨r, hr, hrp⟩ := List.mem_map.mp hid
  have hone : (pointsOf records r.id).Perm [r] :=
    (h.single r hr) ▸ pointsOf_perm hrecords r.id
  have hfalse : (pointsOf records r.id).Pairwise fun _ _ => False := by
    rw [List.perm_singleton.mp hone]
    exact List.pairwise_singleton _ _
  refine List.pairwise_iff_getElem.mp (List.pairwise_filter.mp hfalse) i j hi hj hij ?_ ?_
  · simp [hrp]
  · simp [hrp, ← (key_eq_iff.mp hkey).2]

end Harmless

/-- The quadtree runner: the records are what is stored. -/
theorem MVQRunner.commit_next {runner : MVQRunner} (hver : Version runner.leafSize runner.master)
    (hperm : (Tree.collectRecords runner.master).Perm c.stored) (h : Harmless c adds rems) :
    ∃ next, runner.commit (getSortedPoints adds) (getSortedPoints rems) = some next ∧
      Version next.leafSize next.master ∧
      (Tree.collectRecords next.master).Perm (c.next adds rems).stored := by
  obtain ⟨next, hnext, hver', hrecords⟩ :=
    commit_records hver (getSortedPoints adds) (getSortedPoints rems)
  have hrems := getSortedPoints_twice_perm rems
  refine ⟨next, hnext, hver', ?_⟩
  rw [hrecords, survivors_eq_filter_of_once hver.batch.sorted (getSortedPoints_sorted _)
    (h.once hrems hperm)]
  refine (parlayMerge_perm _ _ _).trans
    ((?_ : List.Perm _ _).append (getSortedPoints_twice_perm adds))
  rw [← h.minus_eq hrems]
  exact hperm.filter _

section Pacz

variable {M : Type*} {zmap : OrderedMap PACZ.KeyType Point M}

theorem values_delete_nonempty (hz : zmap.Lawful) {m : M} (hm : PACZ.Keyed zmap m) (rems : List Point) :
    PACZ.values zmap (if rems.length > 0 then PACZ.mapDelete zmap rems m else m) =
      minus (PACZ.values zmap m) (withCodes rems) := by
  by_cases hrems : rems.length > 0
  · rw [if_pos hrems, PACZ.values_mapDelete hz hm]
  · rw [if_neg hrems]
    obtain rfl : rems = [] := List.length_eq_zero_iff.mp (by omega)
    exact (List.filter_eq_self.mpr fun _ _ => rfl).symm

/-- The map runner: it shows what is stored, once for each key. -/
theorem PACZRunner.commit_next (hz : zmap.Lawful) {runner : PACZRunner M}
    (hm : PACZ.Keyed zmap runner.master)
    (hmem : ∀ p, p ∈ PACZ.values zmap runner.master ↔ p ∈ c.stored)
    (hnd : (adds.map Point.id).Nodup) (h : Harmless c adds rems) :
    ∃ next, runner.commit zmap (getSortedPoints adds) (getSortedPoints rems) = some next ∧
      PACZ.Keyed zmap next.master ∧
      ∀ p, p ∈ PACZ.values zmap next.master ↔ p ∈ (c.next adds rems).stored := by
  have hrems : (withCodes (getSortedPoints rems)).Perm (withCodes rems) := by
    rw [withCodes_getSortedPoints]
    exact getSortedPoints_perm rems
  have hadds : (withCodes (getSortedPoints adds)).Perm (withCodes adds) := by
    rw [withCodes_getSortedPoints]
    exact getSortedPoints_perm adds
  have hkeys : ((withCodes (getSortedPoints adds)).map Point.key).Nodup := by
    refine nodup_key_of_nodup_id ((hadds.map Point.id).nodup_iff.mpr ?_)
    rwa [withCodes_ids]
  refine ⟨_, rfl, ?_, fun p => ?_⟩
  · show PACZ.Keyed zmap (if _ then _ else _)
    split
    · exact (hm.mapInsert hz _).mapDelete hz _
    · exact hm.mapInsert hz _
  · show p ∈ PACZ.values zmap (if _ then _ else _) ↔ _
    rw [values_delete_nonempty hz (hm.mapInsert hz _)]
    unfold minus Committed.next kept
    rw [List.mem_filter, (PACZ.values_mapInsert hz hm hkeys).mem_iff, List.mem_append, hadds.mem_iff,
      List.mem_append, List.mem_filter, decide_eq_true_eq, decide_eq_true_eq]
    unfold minus
    rw [List.mem_filter, decide_eq_true_eq, hmem, (hadds.map Point.key).mem_iff]
    constructor
    · rintro ⟨⟨hp, -⟩ | hp, hkey⟩
      · exact Or.inl ⟨hp, fun hid => hkey ((h.key_mem_iff hrems hp).mpr hid)⟩
      · exact Or.inr hp
    · rintro (⟨hp, hid⟩ | hp)
      · refine ⟨?_, fun hkey => hid ((h.key_mem_iff hrems hp).mp hkey)⟩
        by_cases hkey : p.key ∈ (withCodes adds).map Point.key
        · obtain ⟨a, ha, hap⟩ := List.mem_map.mp hkey
          rw [h.unmoved a ha p hp hap.symm]
          exact Or.inr ha
        · exact Or.inl ⟨hp, hkey⟩
      · refine ⟨Or.inr hp, fun hkey => ?_⟩
        obtain ⟨r, hr, hrp⟩ := List.mem_map.mp hkey
        obtain ⟨a, ha, rfl⟩ := List.mem_map.mp hp
        refine h.fresh a ha (List.mem_append_right _ ?_)
        rw [← withCodes_ids rems]
        exact List.mem_map.mpr ⟨r, hrems.mem_iff.mp hr, (key_eq_iff.mp hrp).2⟩

end Pacz

section Log

variable {T : Type*} {rtree : RTree T}

theorem toValue_ids (P : List Point) : (P.map toValue).map Value.id = P.map Point.id := by
  rw [List.map_map]
  rfl

theorem kept_toValue (P rems : List Point) :
    (P.map toValue).filter (fun v => v.id ∉ (rems.map toValue).map Value.id) =
      (kept P rems).map toValue := by
  unfold kept
  rw [List.filter_map]
  refine congrArg _ (List.filter_congr fun p _ => decide_eq_decide.mpr ?_)
  rw [toValue_ids]
  exact Iff.rfl

theorem kept_congr (P : List Point) {rems rems' : List Point}
    (h : ∀ i, i ∈ rems.map Point.id ↔ i ∈ rems'.map Point.id) : kept P rems = kept P rems' :=
  List.filter_congr fun p _ => decide_eq_decide.mpr (not_congr (h p.id))

/-- The log runner: what is visible is what is stored. -/
theorem RlogRunner.commit_next {runner : RlogRunner T} {base : T}
    {log : List (DeltaLog.Delta Value)} (hlogs : Logs runner.tree base log)
    (hids : ∀ i, i ∈ DeltaLog.deletedKeys Value.id log ↔ i ∈ c.removedIds)
    (hperm : (Rlog.visible rtree runner.tree).Perm (c.stored.map toValue))
    (h : Harmless c adds rems) :
    ∃ next log', runner.commitUncompacted (getSortedPoints adds) (getSortedPoints rems) = some next ∧
      Logs next.tree base log' ∧
      (∀ i, i ∈ DeltaLog.deletedKeys Value.id log' ↔ i ∈ (c.next adds rems).removedIds) ∧
      (Rlog.visible rtree next.tree).Perm ((c.next adds rems).stored.map toValue) := by
  have hadds := getSortedPoints_ids adds
  have hrems := getSortedPoints_ids rems
  have hfresh : ((getSortedPoints adds).map toValue).filter
      (fun v => v.id ∉ DeltaLog.deletedKeys Value.id log) = (getSortedPoints adds).map toValue := by
    refine List.filter_eq_self.mpr fun v hv => decide_eq_true fun hdel => ?_
    have hid : v.id ∈ adds.map Point.id := by
      rw [← hadds.mem_iff, ← toValue_ids]
      exact List.mem_map_of_mem hv
    obtain ⟨a, ha, hav⟩ := List.mem_map.mp hid
    exact h.fresh a ha (List.mem_append_left _ ((hids _).mp (hav ▸ hdel)))
  have hkept : kept (getSortedPoints adds) (getSortedPoints rems) = getSortedPoints adds := by
    refine List.filter_eq_self.mpr fun p hp => decide_eq_true fun hdel => ?_
    obtain ⟨a, ha, hap⟩ := List.mem_map.mp (hadds.mem_iff.mp (List.mem_map_of_mem hp))
    exact h.fresh a ha (List.mem_append_right _ (hap ▸ hrems.mem_iff.mp hdel))
  have hlogs' := (hlogs.insertNode ((getSortedPoints adds).map toValue)).deleteNode
    ((getSortedPoints rems).map toValue)
  refine ⟨_, _, rfl, hlogs', fun i => ?_, ?_⟩
  · rw [DeltaLog.deletedKeys_append, DeltaLog.deletedKeys_append, DeltaLog.deletedKeys_insert,
      DeltaLog.deletedKeys_delete, List.append_nil, List.mem_append, toValue_ids, hrems.mem_iff, hids]
    exact List.mem_append.symm
  · show (Rlog.visible rtree _).Perm _
    rw [hlogs'.visible, DeltaLog.collapse_delete, DeltaLog.collapse_insert, hfresh,
      DeltaLog.Delta.apply_delete, List.filter_append, kept_toValue, hkept, ← hlogs.visible]
    unfold Committed.next
    rw [List.map_append, ← kept_congr c.stored (fun i => hrems.mem_iff), ← kept_toValue]
    refine (hperm.filter _).append ?_
    exact (getSortedPoints_perm adds).map toValue

end Log

/-! ## Runs -/

section Runs

variable {M T : Type*} (zmap : OrderedMap PACZ.KeyType Point M) (rtree : RTree T)

/-- The three runners hold what is stored, each in its own way. -/
structure Agree (c : Committed) (mvq : MVQRunner) (pacz : PACZRunner M) (rlog : RlogRunner T) :
    Prop where
  version : Version mvq.leafSize mvq.master
  records : (Tree.collectRecords mvq.master).Perm c.stored
  keyed : PACZ.Keyed zmap pacz.master
  values : ∀ p, p ∈ PACZ.values zmap pacz.master ↔ p ∈ c.stored
  logs : ∃ base log, Logs rlog.tree base log ∧
    ∀ i, i ∈ DeltaLog.deletedKeys Value.id log ↔ i ∈ c.removedIds
  visible : (Rlog.visible rtree rlog.tree).Perm (c.stored.map toValue)

variable {zmap rtree} {mvq : MVQRunner} {pacz : PACZRunner M} {rlog : RlogRunner T}

/-- Runners that hold the same show the same set of points. -/
theorem Agree.exposed (h : Agree zmap rtree c mvq pacz rlog) :
    mvq.exposed.toFinset = (pacz.exposed zmap).toFinset ∧
      (pacz.exposed zmap).toFinset = (rlog.exposed rtree).toFinset := by
  have hmvq : mvq.exposed.toFinset = (c.stored.map toValue).toFinset :=
    List.toFinset_eq_of_perm _ _ (h.records.map toValue)
  have hpacz : (pacz.exposed zmap).toFinset = (c.stored.map toValue).toFinset := by
    ext v
    unfold PACZRunner.exposed
    simp only [List.mem_toFinset, List.mem_map, h.values]
  have hrlog : (rlog.exposed rtree).toFinset = (c.stored.map toValue).toFinset :=
    List.toFinset_eq_of_perm _ _ h.visible
  exact ⟨hmvq.trans hpacz.symm, hpacz.trans hrlog.symm⟩

/-- One event with harmless batches. -/
theorem Agree.commit (hz : zmap.Lawful) (h : Agree zmap rtree c mvq pacz rlog)
    (hnd : (adds.map Point.id).Nodup) (hharmless : Harmless c adds rems) :
    ∃ mvq' pacz' rlog',
      mvq.commit (getSortedPoints adds) (getSortedPoints rems) = some mvq' ∧
      pacz.commit zmap (getSortedPoints adds) (getSortedPoints rems) = some pacz' ∧
      rlog.commitUncompacted (getSortedPoints adds) (getSortedPoints rems) = some rlog' ∧
      Agree zmap rtree (c.next adds rems) mvq' pacz' rlog' := by
  obtain ⟨base, log, hlogs, hids⟩ := h.logs
  obtain ⟨mvq', hmvq, hver, hrecords⟩ := MVQRunner.commit_next h.version h.records hharmless
  obtain ⟨pacz', hpacz, hkeyed, hvalues⟩ :=
    PACZRunner.commit_next hz h.keyed h.values hnd hharmless
  obtain ⟨rlog', log', hrlog, hlogs', hids', hvisible⟩ :=
    RlogRunner.commit_next hlogs hids h.visible hharmless
  exact ⟨mvq', pacz', rlog', hmvq, hpacz, hrlog,
    ⟨hver, hrecords, hkeyed, hvalues, ⟨base, log', hlogs', hids'⟩, hvisible⟩⟩

/-- The sets of points that a runner shows after every commit. -/
def shown {σ : Type*} (exposed : σ → List Value) (states : List (σ × ActiveNodes)) :
    List (Finset Value) :=
  states.map fun st => (exposed st.1).toFinset

/-- Whole runs, by induction on the events. -/
theorem Agree.runEvents (hz : zmap.Lawful) (events : List Event) :
    ∀ {c : Committed} {mvq : MVQRunner} {pacz : PACZRunner M} {rlog : RlogRunner T}
      {active : ActiveNodes}, Agree zmap rtree c mvq pacz rlog →
      (∀ event ∈ events, TouchesOnce event) → HarmlessEvents c active events →
      ∃ s1 s2 s3, runEvents MVQRunner.commit mvq active events = some s1 ∧
        runEvents (PACZRunner.commit zmap) pacz active events = some s2 ∧
        runEvents RlogRunner.commitUncompacted rlog active events = some s3 ∧
        shown MVQRunner.exposed s1 = shown (PACZRunner.exposed zmap) s2 ∧
        shown (PACZRunner.exposed zmap) s2 = shown (RlogRunner.exposed rtree) s3 := by
  induction events with
  | nil => exact fun _ _ _ => ⟨[], [], [], rfl, rfl, rfl, rfl, rfl⟩
  | cons event events ih =>
    intro c mvq pacz rlog active h honce hharmless
    obtain ⟨hstep, hrest⟩ := hharmless
    obtain ⟨mvq', pacz', rlog', hmvq, hpacz, hrlog, h'⟩ := h.commit hz
      ((honce event List.mem_cons_self).nodup_adds active) hstep
    obtain ⟨s1, s2, s3, h1, h2, h3, h12, h23⟩ := ih h'
      (fun e he => honce e (List.mem_cons_of_mem event he)) hrest
    obtain ⟨hset12, hset23⟩ := h'.exposed
    refine ⟨(mvq', (applyEvent active event).active) :: s1,
      (pacz', (applyEvent active event).active) :: s2,
      (rlog', (applyEvent active event).active) :: s3, ?_, ?_, ?_, ?_, ?_⟩
    · exact runEvents_cons_iff.mpr ⟨mvq', s1, hmvq, h1, rfl⟩
    · exact runEvents_cons_iff.mpr ⟨pacz', s2, hpacz, h2, rfl⟩
    · exact runEvents_cons_iff.mpr ⟨rlog', s3, hrlog, h3, rfl⟩
    · exact congrArg₂ List.cons hset12 h12
    · exact congrArg₂ List.cons hset23 h23

/-- The runners that are built from base points with distinct identifiers. -/
theorem agree_buildBase {ofEntries : List (PACZ.KeyType × Point) → M}
    (hof : ∀ es, (es.map Prod.fst).Nodup → (zmap.entries (ofEntries es)).Perm es)
    (hr : rtree.Faithful) (leafSize : ℕ) {data : DatasetLoader}
    (hids : (data.baseData.map Point.id).Nodup) :
    Agree zmap rtree ⟨withCodes data.baseData, []⟩ (.buildBase leafSize (baseValues data))
      (.buildBase ofEntries (baseValues data)) (.buildBase rtree (baseValues data)) := by
  have hconv : withCodes ((baseValues data).map toPoint) = withCodes data.baseData :=
    withCodes_baseValues data
  obtain ⟨P, hP, hw⟩ := MVQRunner.buildBase_holds leafSize data
  have hkeys : ((withCodes data.baseData).map Point.key).Nodup := by
    refine nodup_key_of_nodup_id ?_
    rwa [withCodes_ids]
  have hentries := hof (PACZ.toEntries ((baseValues data).map toPoint)) (by
    rwa [PACZ.toEntries_keys, hconv])
  have hlogs : Logs (Rlog.mapInit rtree (baseValues data)) (rtree.ofRange (baseValues data)) [] :=
    .base ..
  refine ⟨hw.version, ?_, fun e he => ?_, fun p => ?_, ⟨_, [], hlogs, fun _ => Iff.rfl⟩, ?_⟩
  · rw [hw.collectRecords]
    exact hP
  · obtain ⟨p, -, rfl⟩ := List.mem_map.mp (hentries.mem_iff.mp he)
    rfl
  · rw [← hconv, ← PACZ.toEntries_values]
    exact (hentries.map Prod.snd).mem_iff
  · show (Rlog.visible rtree (Rlog.mapInit rtree (baseValues data))).Perm _
    rw [hlogs.visible, DeltaLog.collapse_nil]
    refine (hr _).trans (List.Perm.of_eq ?_)
    show data.baseData.map toValue = (withCodes data.baseData).map toValue
    unfold withCodes
    rw [List.map_map]
    rfl

/-- Two versions that `check_compact` leaves alone make the commit an uncompacted one. -/
theorem RlogRunner.commit_of_small {runner : RlogRunner T} {adds rems : List Point}
    (hins : Rlog.checkCompact rtree (1 / 5) (Rlog.insertNode runner.tree (adds.map toValue)) =
      some (Rlog.insertNode runner.tree (adds.map toValue)))
    (hdel : Rlog.checkCompact rtree (1 / 5)
        (Rlog.deleteNode (Rlog.insertNode runner.tree (adds.map toValue)) (rems.map toValue)) =
      some (Rlog.deleteNode (Rlog.insertNode runner.tree (adds.map toValue)) (rems.map toValue))) :
    runner.commit rtree adds rems = runner.commitUncompacted adds rems := by
  unfold RlogRunner.commit Rlog.mapInsert
  rw [hins, Option.bind_eq_bind, Option.bind_some]
  unfold Rlog.mapDelete
  rw [hdel]
  rfl

/-- Runner agreement. Over a workload with harmless batches, from base points with distinct
identifiers, the three runners show the same set of points after every commit. -/
theorem runners_agree (hz : zmap.Lawful) {ofEntries : List (PACZ.KeyType × Point) → M}
    (hof : ∀ es, (es.map Prod.fst).Nodup → (zmap.entries (ofEntries es)).Perm es)
    (hr : rtree.Faithful) (leafSize : ℕ) {data : DatasetLoader}
    (hids : (data.baseData.map Point.id).Nodup) (honce : ∀ event ∈ data.allEvents, TouchesOnce event)
    (hharmless : HarmlessEvents ⟨withCodes data.baseData, []⟩ (initActive data.baseData)
      data.allEvents) :
    ∃ s1 s2 s3,
      runWorkload MVQRunner.commit (.buildBase leafSize (baseValues data)) data = some s1 ∧
      runWorkload (PACZRunner.commit zmap) (.buildBase ofEntries (baseValues data)) data = some s2 ∧
      runWorkload RlogRunner.commitUncompacted (.buildBase rtree (baseValues data)) data =
        some s3 ∧
      shown MVQRunner.exposed s1 = shown (PACZRunner.exposed zmap) s2 ∧
      shown (PACZRunner.exposed zmap) s2 = shown (RlogRunner.exposed rtree) s3 :=
  (agree_buildBase hof hr leafSize hids).runEvents hz data.allEvents honce hharmless

end Runs

/-- One point is added and then deleted, next to another one. -/
theorem runners_agree_deleted :
    let data : DatasetLoader :=
      { baseData := [⟨1, 1, 1, 0⟩]
        allEvents := [⟨7, [⟨'A', 2, 3, 1⟩]⟩, ⟨8, [⟨'D', 1, 0, 0⟩]⟩]
        largestMbr := ⟨.ofXY 0 0, .ofXY 6 6⟩ }
    ∃ s1 s2 s3,
      runWorkload MVQRunner.commit (.buildBase 32 (baseValues data)) data = some s1 ∧
      runWorkload (PACZRunner.commit PACZ.treeMaps) (.buildBase PACZ.treeMap (baseValues data)) data =
        some s2 ∧
      runWorkload RlogRunner.commitUncompacted (.buildBase Rlog.listTree (baseValues data)) data =
        some s3 ∧
      shown MVQRunner.exposed s1 = shown (PACZRunner.exposed PACZ.treeMaps) s2 ∧
      shown (PACZRunner.exposed PACZ.treeMaps) s2 = shown (RlogRunner.exposed Rlog.listTree) s3 := by
  intro data
  refine runners_agree PACZ.treeMaps_lawful PACZ.treeMap_perm
    Rlog.listTree_faithful 32 (by decide) ?_ ?_
  · simp only [data, List.forall_mem_cons]
    decide
  · refine ⟨⟨?_, ?_, ?_⟩, ⟨?_, ?_, ?_⟩, trivial⟩ <;> decide +kernel

open OrderedMap (SortedEntries)

/-- A point that is modified without being moved stays in the quadtree and leaves the other two. -/
theorem modified_point_differs :
    let data : DatasetLoader :=
      { baseData := [⟨1, 1, 1, 0⟩]
        allEvents := [⟨7, [⟨'M', 1, 1, 1⟩]⟩]
        largestMbr := ⟨.ofXY 0 0, .ofXY 6 6⟩ }
    (data.baseData.map Point.id).Nodup ∧ (∀ event ∈ data.allEvents, TouchesOnce event) ∧
    ∃ s1 s2 s3,
      runWorkload MVQRunner.commit (.buildBase 32 (baseValues data)) data = some s1 ∧
      runWorkload (PACZRunner.commit SortedEntries.ops)
        (.buildBase SortedEntries.ofEntries (baseValues data)) data = some s2 ∧
      runWorkload RlogRunner.commitUncompacted (.buildBase Rlog.listTree (baseValues data)) data =
        some s3 ∧
      shown MVQRunner.exposed s1 ≠ shown (PACZRunner.exposed SortedEntries.ops) s2 ∧
      shown MVQRunner.exposed s1 ≠ shown (RlogRunner.exposed Rlog.listTree) s3 := by
  intro data
  refine ⟨by decide, by simp only [data, List.forall_mem_cons]; decide, ?_⟩
  have hbase : Holds (MVQRunner.buildBase 32 (baseValues data)).leafSize
      (MVQRunner.buildBase 32 (baseValues data)).master
      (withCodes (initActive data.baseData).points) :=
    MVQRunner.buildBase_holds 32 data
  obtain ⟨next, hnext, -, P, hP, hw⟩ :=
    MVQRunner.commit_holds hbase [⟨1, 1, 1, 0⟩] [⟨1, 1, 1, 0⟩]
  have hmem : (⟨1, 1, 1⟩ : Value) ∈ next.exposed := by
    unfold MVQRunner.exposed
    rw [hw.collectRecords, (hP.map toValue).mem_iff, List.map_append]
    exact List.mem_append_right _ (by decide +kernel)
  have hrun : runWorkload MVQRunner.commit (.buildBase 32 (baseValues data)) data =
      some [(next, (applyEvent (initActive data.baseData) ⟨7, [⟨'M', 1, 1, 1⟩]⟩).active)] := by
    show ((MVQRunner.buildBase 32 (baseValues data)).commit (getSortedPoints [⟨1, 1, 1, 0⟩])
      (getSortedPoints [⟨1, 1, 1, 0⟩]) >>= _) = _
    rw [hnext]
    rfl
  refine ⟨_, _, _, hrun, rfl, rfl, fun heq => ?_, fun heq => ?_⟩
  · have hset : next.exposed.toFinset = _ := (List.cons.inj heq).1
    rw [← List.mem_toFinset, hset] at hmem
    exact absurd hmem (by decide +kernel)
  · have hset : next.exposed.toFinset = _ := (List.cons.inj heq).1
    rw [← List.mem_toFinset, hset] at hmem
    exact absurd hmem (by decide +kernel)

end Bench

end Silva
