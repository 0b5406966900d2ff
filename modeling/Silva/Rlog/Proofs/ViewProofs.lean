import Silva.Rlog.Version

/-!
# Proofs: what a version of a log shows

A query view is a collapsed log: the log since the last base, without its order. It shows the replay of
the chain as long as nothing is inserted again after its removal in that part of the log.
-/

namespace Silva

namespace Rlog

open DeltaLog

variable {T : Type*} {rtree : RTree T} {v next : VersionNode T} {base : T} {log : List (Delta Value)}

/-- The version has the base and, since then, the log. -/
inductive Logs : VersionNode T → T → List (Delta Value) → Prop where
  | base (parent : VersionNode T) (depth : ℕ) (ins rem : List Value) (base : T) (logSize baseSize : ℕ) :
      Logs (.node parent depth ins rem (some base) logSize baseSize) base []
  | insert {parent : VersionNode T} {base : T} {log : List (Delta Value)} (h : Logs parent base log)
      (depth : ℕ) (ins : List Value) (logSize baseSize : ℕ) :
      Logs (.node parent depth ins [] none logSize baseSize) base (log ++ [.insert ins])
  | delete {parent : VersionNode T} {base : T} {log : List (Delta Value)} (h : Logs parent base log)
      (depth : ℕ) (rem : List Value) (logSize baseSize : ℕ) :
      Logs (.node parent depth [] rem none logSize baseSize) base (log ++ [.delete rem])

/-! ## The query view -/

/-- The lists of the path, oldest first, get the lists of a version without a base at their end. -/
theorem path_flatMap {α : Type*} (f : VersionNode T → List α) {parent : VersionNode T}
    (depth : ℕ) (ins rem : List Value) (logSize baseSize : ℕ) :
    (VersionNode.node parent depth ins rem none logSize baseSize).path.1.reverse.flatMap f =
      parent.path.1.reverse.flatMap f ++ f (.node parent depth ins rem none logSize baseSize) := by
  rw [VersionNode.path, List.reverse_cons, List.flatMap_append, List.flatMap_singleton]

/-- The path of a version goes through its log, and ends at its base. -/
theorem Logs.path (h : Logs v base log) :
    v.path.2 = some base ∧
      (v.path.1.reverse.flatMap fun n => n.deltaRemoves.map Value.id) = deletedKeys Value.id log ∧
      v.path.1.reverse.flatMap VersionNode.deltaInserts = inserts log := by
  induction h with
  | base => exact ⟨rfl, rfl, rfl⟩
  | insert h depth ins logSize baseSize ih =>
    obtain ⟨hbase, hrem, hins⟩ := ih
    refine ⟨hbase, ?_, ?_⟩
    · rw [path_flatMap, hrem, deletedKeys_append, deletedKeys_insert]
      rfl
    · rw [path_flatMap, hins, inserts_append, inserts_insert]
      rfl
  | delete h depth rem logSize baseSize ih =>
    obtain ⟨hbase, hrem, hins⟩ := ih
    refine ⟨hbase, ?_, ?_⟩
    · rw [path_flatMap, hrem, deletedKeys_append, deletedKeys_delete]
      rfl
    · rw [path_flatMap, hins, inserts_append, inserts_delete]
      rfl

theorem Logs.getQueryView (h : Logs v base log) :
    getQueryView v = ⟨some base, (deletedKeys Value.id log).toFinset,
      (inserts log).filter fun w => w.id ∉ deletedKeys Value.id log⟩ := by
  obtain ⟨hbase, hrem, hins⟩ := h.path
  unfold Rlog.getQueryView
  simp only [hbase, hrem, hins, List.mem_toFinset]

/-- The visible points are those of the collapsed log. -/
theorem Logs.visible (h : Logs v base log) :
    visible rtree v = collapse Value.id (rtree.iterate base) log := by
  unfold Rlog.visible collapse aliveIn
  rw [h.getQueryView, List.filter_append]
  simp only [List.mem_toFinset]

theorem Logs.pendingRemovals (h : Logs v base log) :
    pendingRemovals v = deletedKeys Value.id log := by
  induction h with
  | base => rfl
  | insert h depth ins logSize baseSize ih => simp [Rlog.pendingRemovals, ih]
  | delete h depth rem logSize baseSize ih => simp [Rlog.pendingRemovals, ih]

/-! ## Growing a chain -/

/-- Compaction keeps the visible points. -/
theorem Logs.checkCompact (hr : rtree.Faithful) (h : Logs v base log) (p : FT) :
    ∃ next, checkCompact rtree p v = some next ∧ (∃ base' log', Logs next base' log') ∧
      (Rlog.visible rtree next).Perm (Rlog.visible rtree v) := by
  cases v with
  | nullptr => cases h
  | node parent depth ins rem cached logSize baseSize =>
    simp only [Rlog.checkCompact]
    by_cases hp : (logSize : FT) ≥ p * baseSize
    · simp only [if_pos hp, h.getQueryView, Option.bind_eq_bind, Option.bind_some]
      refine ⟨_, rfl, ⟨_, _, .base ..⟩, ?_⟩
      rw [(Logs.base ..).visible, DeltaLog.collapse_nil, h.visible, collapse, List.filter_append]
      refine (hr _).trans (List.Perm.of_eq ?_)
      simp only [aliveIn, List.mem_toFinset]
    · rw [if_neg hp]
      exact ⟨_, rfl, ⟨base, log, h⟩, List.Perm.refl _⟩

theorem Logs.insertNode (h : Logs v base log) (insertPts : List Value) :
    Logs (insertNode v insertPts) base (log ++ [.insert insertPts]) := by
  cases v with
  | nullptr => cases h
  | node parent depth ins rem cached logSize baseSize => exact h.insert _ _ _ _

theorem Logs.deleteNode (h : Logs v base log) (deletePts : List Value) :
    Logs (deleteNode v deletePts) base (log ++ [.delete deletePts]) := by
  cases v with
  | nullptr => cases h
  | node parent depth ins rem cached logSize baseSize => exact h.delete _ _ _ _

/-- One call extends the log by its delta, up to compaction. -/
theorem Logs.apply (hr : rtree.Faithful) (h : Logs v base log) (s : Step) :
    ∃ next, s.apply rtree v = some next ∧ (∃ base' log', Logs next base' log') ∧
      (Rlog.visible rtree next).Perm (collapse Value.id (rtree.iterate base) (log ++ [s.delta])) := by
  cases s with
  | mapInsert insertPts p =>
    obtain ⟨next, hnext, hlogs, hperm⟩ := (h.insertNode insertPts).checkCompact hr p
    rw [(h.insertNode insertPts).visible] at hperm
    exact ⟨next, hnext, hlogs, hperm⟩
  | mapDelete deletePts p =>
    obtain ⟨next, hnext, hlogs, hperm⟩ := (h.deleteNode deletePts).checkCompact hr p
    rw [(h.deleteNode deletePts).visible] at hperm
    exact ⟨next, hnext, hlogs, hperm⟩

/-- From a version that shows its replay, the next one does exactly when the call inserts nothing that
is pending as removed. -/
theorem Logs.apply_perm_iff (hr : rtree.Faithful) (h : Logs v base log) {C : List Value}
    (hC : (Rlog.visible rtree v).Perm C) {s : Step} (hnext : s.apply rtree v = some next) :
    (Rlog.visible rtree next).Perm (s.delta.apply Value.id C) ↔
      ∀ insertPts p, s = .mapInsert insertPts p → ∀ w ∈ insertPts, w.id ∉ Rlog.pendingRemovals v := by
  obtain ⟨next', hnext', -, hperm⟩ := h.apply hr s
  rw [hnext] at hnext'
  cases hnext'
  rw [h.visible] at hC
  rw [h.pendingRemovals]
  have hiff := DeltaLog.collapse_concat_perm_iff hC s.delta
  constructor
  · rintro hshow insertPts p rfl
    exact hiff.mp (hperm.symm.trans hshow) insertPts rfl
  · intro hcond
    refine hperm.trans (hiff.mpr fun xs hxs => ?_)
    cases s with
    | mapInsert insertPts p => cases hxs; exact hcond _ p rfl
    | mapDelete deletePts p => cases hxs

theorem exists_cons_of_grow {steps : List Step} {versions : List (VersionNode T)}
    (h : Rlog.grow rtree v steps = some versions) : ∃ rest, versions = v :: rest := by
  cases steps with
  | nil => cases h; exact ⟨[], rfl⟩
  | cons s steps =>
    obtain ⟨next, -, h⟩ := Option.bind_eq_some_iff.mp h
    obtain ⟨rest, -, h⟩ := Option.bind_eq_some_iff.mp h
    cases h
    exact ⟨rest, rfl⟩

theorem exists_cons_replays (C : List Value) (steps : List Step) :
    ∃ rest, replays C steps = C :: rest := by
  cases steps with
  | nil => exact ⟨[], rfl⟩
  | cons s steps => exact ⟨_, rfl⟩

/-- The contents of version `i` are the replay of the first `i` calls. -/
theorem getElem?_replays (steps : List Step) : ∀ (C : List Value) {i : ℕ}, i ≤ steps.length →
    (replays C steps)[i]? = some (DeltaLog.replay Value.id C ((steps.take i).map Step.delta)) := by
  induction steps with
  | nil =>
    intro C i hi
    obtain rfl : i = 0 := by simpa using hi
    rfl
  | cons s steps ih =>
    intro C i hi
    rcases i with _ | i
    · rfl
    · rw [replays, List.getElem?_cons_succ, List.take_succ_cons, List.map_cons, DeltaLog.replay_cons]
      exact ih _ (Nat.le_of_succ_le_succ hi)

/-- A chain whose first version shows its contents. -/
theorem Logs.grow (hr : rtree.Faithful) (steps : List Step) : ∀ {v : VersionNode T} {base : T}
    {log : List (Delta Value)} {C : List Value}, Logs v base log → (Rlog.visible rtree v).Perm C →
    ∃ versions, grow rtree v steps = some versions ∧
      (List.Forall₂ (fun v C => (Rlog.visible rtree v).Perm C) versions (replays C steps) ↔
        NoReinsertion rtree v steps) := by
  induction steps with
  | nil =>
    intro v base log C _ hC
    exact ⟨[v], rfl, fun _ => trivial, fun _ => .cons hC .nil⟩
  | cons s steps ih =>
    intro v base log C h hC
    obtain ⟨next, hnext, ⟨base', log', hlogs⟩, -⟩ := h.apply hr s
    have hiff := h.apply_perm_iff hr hC hnext
    by_cases hshow : (Rlog.visible rtree next).Perm (s.delta.apply Value.id C)
    · obtain ⟨versions, hgrow, hrest⟩ := ih hlogs hshow
      refine ⟨v :: versions, ?_, ?_⟩
      · rw [Rlog.grow, hnext, Option.bind_eq_bind, Option.bind_some, hgrow]
        rfl
      · rw [replays, List.forall₂_cons, hrest, NoReinsertion, hnext]
        constructor
        · rintro ⟨-, hno⟩
          exact ⟨hiff.mp hshow, fun next' heq => by cases heq; exact hno⟩
        · exact fun hno => ⟨hC, hno.2 next rfl⟩
    · obtain ⟨versions, hgrow, -⟩ := ih hlogs (List.Perm.refl (Rlog.visible rtree next))
      refine ⟨v :: versions, ?_, ?_⟩
      · rw [Rlog.grow, hnext, Option.bind_eq_bind, Option.bind_some, hgrow]
        rfl
      · obtain ⟨rest, rfl⟩ := exists_cons_of_grow hgrow
        obtain ⟨contents, hcontents⟩ := exists_cons_replays (s.delta.apply Value.id C) steps
        rw [replays, hcontents]
        constructor
        · intro hall
          obtain ⟨-, hall⟩ := List.forall₂_cons.mp hall
          exact absurd (List.forall₂_cons.mp hall).1 hshow
        · exact fun hno => absurd (hiff.mpr hno.1) hshow

/-- A delta-log version shows the replay of its history: in a chain that grows from `map_init`, all
versions do exactly when nothing is inserted again while its removal is pending. -/
theorem view_eq_replay_iff (hr : rtree.Faithful) (basePoints : List Value) (steps : List Step) :
    ∃ versions, grow rtree (mapInit rtree basePoints) steps = some versions ∧
      (List.Forall₂ (fun v C => (visible rtree v).Perm C) versions (replays basePoints steps) ↔
        NoReinsertion rtree (mapInit rtree basePoints) steps) := by
  have hinit : Logs (mapInit rtree basePoints) (rtree.ofRange basePoints) [] := .base ..
  refine hinit.grow hr steps ?_
  rw [hinit.visible, collapse_nil]
  exact hr basePoints

/-- An R-tree library whose trees are the lists of their values. -/
def listTree : RTree (List Value) := ⟨id, id⟩

theorem listTree_faithful : listTree.Faithful := fun _ => List.Perm.refl _

/-- A point is removed and inserted again, with a compaction in between. -/
theorem view_eq_replay_compacted :
    ∃ versions, grow listTree (mapInit listTree [⟨1, 1, 1⟩, ⟨2, 2, 2⟩])
        [.mapDelete [⟨1, 1, 1⟩] 0, .mapInsert [⟨3, 3, 1⟩] 5] = some versions ∧
      (List.Forall₂ (fun v C => (visible listTree v).Perm C) versions
          (replays [⟨1, 1, 1⟩, ⟨2, 2, 2⟩] [.mapDelete [⟨1, 1, 1⟩] 0, .mapInsert [⟨3, 3, 1⟩] 5]) ↔
        NoReinsertion listTree (mapInit listTree [⟨1, 1, 1⟩, ⟨2, 2, 2⟩])
          [.mapDelete [⟨1, 1, 1⟩] 0, .mapInsert [⟨3, 3, 1⟩] 5]) :=
  view_eq_replay_iff listTree_faithful _ _

/-- A point that is deleted and inserted again is not shown before the next compaction. -/
theorem reinserted_point_hidden :
    ∃ versions, grow listTree (mapInit listTree [⟨1, 1, 1⟩])
        [.mapDelete [⟨1, 1, 1⟩] 5, .mapInsert [⟨2, 2, 1⟩] 5] = some versions ∧
      ¬List.Forall₂ (fun v C => (visible listTree v).Perm C) versions
        (replays [⟨1, 1, 1⟩] [.mapDelete [⟨1, 1, 1⟩] 5, .mapInsert [⟨2, 2, 1⟩] 5]) := by
  apply Exists.intro
  constructor
  · norm_num [grow, Step.apply, mapInit, mapInsert, mapDelete, insertNode, deleteNode, checkCompact,
      VersionNode.cumulativeLogSize, VersionNode.currentBaseSize]
    rfl
  · intro hall
    obtain ⟨-, hall⟩ := List.forall₂_cons.mp hall
    obtain ⟨-, hall⟩ := List.forall₂_cons.mp hall
    have hshow := (List.forall₂_cons.mp hall).1
    exact absurd hshow.length_eq (by decide +kernel)

end Rlog

end Silva
