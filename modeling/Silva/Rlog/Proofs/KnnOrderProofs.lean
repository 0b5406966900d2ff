import Silva.Rlog.Proofs.TieProofs

/-!
# Proofs: nearest neighbours of a version in any order of its log

Without a tie among the pending inserts the heap is determined before the base comes, or all that is
left open is removed again. So a query depends on the order inside the insert lists exactly when one of
its ties is not settled.
-/

namespace Silva

namespace Rlog

open BoundedQueue

variable {k : ℕ} {d : FT} {W W' base : List (FT × Value)} {lists lists' : List (List (FT × Value))}

/-! ## Without a tie -/

/-- With distinct identifiers a heap is determined by what is in it. -/
theorem heap_eq_of_perm {Q Q' : List (FT × Value)}
    (hQ : Q.Pairwise fun a b => heapKey b ≤ heapKey a)
    (hQ' : Q'.Pairwise fun a b => heapKey b ≤ heapKey a) (hperm : Q.Perm Q')
    (hnd : (Q.map fun c => c.2.id).Nodup) : Q = Q' := by
  refine List.Perm.eq_of_pairwise (fun a b ha hb hab hba => ?_) hQ hQ' hperm
  have hid : a.2.id = b.2.id := congrArg (fun key => (ofLex key).2) (le_antisymm hba hab)
  exact List.inj_on_of_nodup_map hnd ha (hperm.mem_iff.mpr hb) hid

/-- A distance within which the heap is filled. -/
theorem exists_distance (hk : 0 < k) (hlen : k < W.length) :
    ∃ d, nearer d W < k ∧ k ≤ within d W := by
  have h := heap_run hk W
  have hfull : (run k W).length = k := h.nearest.length.trans (min_eq_left hlen.le)
  obtain ⟨t, r, hQ⟩ := List.exists_cons_of_length_pos (hk.trans_le hfull.ge)
  rw [hQ] at h hfull
  refine ⟨t.1, h.nearest.countP_lt_of_mem List.mem_cons_self, ?_⟩
  obtain ⟨rest, hperm, -⟩ := h.nearest.rest
  have hall : within t.1 (t :: r) = (t :: r).length := by
    refine List.countP_eq_length.mpr fun c hc => decide_eq_true ?_
    rcases List.mem_cons.mp hc with rfl | hc
    · exact le_rfl
    · exact h.le_top c hc
  have hsplit : within t.1 (t :: r) + within t.1 rest = within t.1 W := by
    rw [← within_append, within_perm hperm]
  omega

/-- The list with which the values within a distance get too many. -/
theorem exists_crossing (h : k < within d lists.flatten) :
    ∃ as p zs, lists = as ++ p :: zs ∧ within d as.flatten ≤ k ∧
      k < within d (as.flatten ++ p) := by
  induction lists using List.reverseRecOn with
  | nil => exact absurd h (Nat.not_lt_zero k)
  | append_singleton lists p ih =>
    by_cases hlt : k < within d lists.flatten
    · obtain ⟨as, p', zs, rfl, hroom, hfull⟩ := ih hlt
      exact ⟨as, p', zs ++ [p], by simp, hroom, hfull⟩
    · refine ⟨lists, p, [], rfl, not_lt.mp hlt, ?_⟩
      rwa [List.flatten_append, List.flatten_singleton] at h

/-- Without a tie the answer does not depend on the order. -/
theorem answer_eq_of_no_tie (hk : 0 < k)
    (hnd : ((lists.flatten ++ base).map fun c => c.2.id).Nodup)
    (hsorted : base.Pairwise fun a b => a.1 ≤ b.1) (hno : IsEmpty (Tie k lists base))
    (hlists : List.Forall₂ List.Perm lists lists') :
    answer k lists base = answer k lists' base := by
  have hperm := List.Perm.flatten_congr hlists
  rw [List.map_append] at hnd
  have hflat := hnd.of_append_left
  have h := heap_run hk lists.flatten
  have h' := heap_run hk lists'.flatten
  -- the same values fill the heap in the same order
  have hdone : (run k lists.flatten).Perm (run k lists'.flatten) →
      answer k lists base = answer k lists' base := by
    intro hQ
    have hndQ : ((run k lists.flatten).map fun c => c.2.id).Nodup := by
      obtain ⟨rest, hrest, -⟩ := h.nearest.rest
      have hall := (hrest.map fun c => c.2.id).nodup_iff.mpr hflat
      rw [List.map_append] at hall
      exact hall.of_append_left
    unfold answer
    rw [heap_eq_of_perm h.sorted h'.sorted hQ hndQ]
  rcases Nat.lt_or_ge k lists.flatten.length with hlen | hlen
  · obtain ⟨d, hlt, hle⟩ := exists_distance hk hlen
    have hlt' : nearer d lists'.flatten < k := nearer_perm hperm d ▸ hlt
    have hle' : k ≤ within d lists'.flatten := within_perm hperm d ▸ hle
    obtain ⟨T, N, hrun, hfull, hN, hT⟩ := run_split hk hlt hle
    obtain ⟨T', N', hrun', hfull', hN', hT'⟩ := run_split hk hlt' hle'
    have hNN' : N.Perm N' := hN.trans ((hperm.filter _).trans hN'.symm)
    rcases hle.lt_or_eq with hmany | hexact
    · -- the nearer values of the base remove all tied ones
      have hnear : k ≤ nearer d (lists.flatten ++ base) := by
        by_contra hshort
        obtain ⟨as, p, zs, hsplit, hroom, hcross⟩ := exists_crossing hmany
        exact hno.false ⟨d, as, p, zs, hsplit, hroom, hcross, not_le.mp hshort⟩
      have hndN : (N.map fun c => c.2.id).Nodup :=
        (hN.map _).nodup_iff.mpr (hflat.sublist (List.filter_sublist.map _))
      obtain rfl : N = N' := heap_eq_of_perm (List.pairwise_append.mp hfull.sorted).2.1
        (List.pairwise_append.mp hfull'.sorted).2.1 hNN' hndN
      have hlen := hfull.length
      rw [List.length_append, hN.length_eq, nearer_filter] at hlen
      rw [nearer_append] at hnear
      obtain ⟨hbase, -⟩ := base_split (d := d) hsorted
      unfold answer
      rw [hrun, hrun', hbase]
      refine hfull.checkBase_agree _ _ hfull' (fun c hc => ?_) ?_
      · exact of_decide_eq_true (List.mem_filter.mp hc).2
      · rw [nearer_filter]
        omega
    · refine hdone ?_
      rw [hrun, hrun']
      refine List.Perm.append ((hT hexact.symm).trans ?_) hNN'
      refine ((hperm.filter _).trans (hT' ?_).symm)
      exact (within_perm hperm d).symm.trans hexact.symm
  · refine hdone ?_
    have hall : ∀ {W : List (FT × Value)}, Heap k W (run k W) → W.length ≤ k →
        (run k W).Perm W := by
      intro W h hle
      obtain ⟨rest, hrest, -⟩ := h.nearest.rest
      have hQ := h.nearest.length
      have hlen := hrest.length_eq
      rw [List.length_append] at hlen
      obtain rfl : rest = [] := List.length_eq_zero_iff.mp (by omega)
      rwa [List.append_nil] at hrest
    exact (hall h hlen).trans (hperm.trans (hall h' (hperm.length_eq ▸ hlen)).symm)

/-- The answer is the same in every order of the lists exactly when every tie is settled. -/
theorem answer_same_iff (hk : 0 < k)
    (hnd : ((lists.flatten ++ base).map fun c => c.2.id).Nodup)
    (hsorted : base.Pairwise fun a b => a.1 ≤ b.1) :
    (∀ lists', List.Forall₂ List.Perm lists lists' → ∀ id,
      id ∈ (answer k lists base).map (fun c => c.2.id) ↔
        id ∈ (answer k lists' base).map fun c => c.2.id) ↔
      ∀ tie : Tie k lists base, tie.Settled := by
  constructor
  · exact fun hsame tie => tie.settled_of_same hnd hsorted hsame
  · intro hset lists' hlists id
    rcases isEmpty_or_nonempty (Tie k lists base) with hno | ⟨⟨tie⟩⟩
    · rw [answer_eq_of_no_tie hk hnd hsorted hno hlists]
    · exact (hset tie).same hnd hsorted hlists id

/-! ## When ties are settled -/

/-- There is no tie unless the pending inserts themselves tie at the last place. -/
theorem isEmpty_tie (h : NoTie Prod.fst k lists.flatten) : IsEmpty (Tie k lists base) := by
  refine ⟨fun tie => ?_⟩
  have hshort := tie.short
  have hfull := tie.full
  rw [nearer_append] at hshort
  have hwithin := h tie.d (Nat.lt_of_le_of_lt (Nat.le_add_right _ _) hshort)
  have heq := congrArg (within tie.d) tie.flatten_eq
  rw [within_append, within_append] at heq
  rw [within_append] at hfull
  unfold within at *
  omega

/-- With room for one value all ties are settled. -/
theorem Tie.settled_one (tie : Tie 1 lists base) : tie.Settled := by
  have hshort := tie.short
  have hplaces : tie.places ≤ 1 := Nat.sub_le 1 _
  refine ⟨fun _ _ _ _ => by omega, .inl ?_⟩
  rw [tie.flatten_eq] at hshort
  unfold Tie.NoneNearer
  simp only [nearer_append] at hshort ⊢
  omega

/-! ## Versions -/

section Versions

variable {T : Type*} {rtree : NearestTree T} {v v' : VersionNode T} {q : Point}

theorem withDist_perm {vals vals' : List Value} (h : vals.Perm vals') :
    (withDist q vals).Perm (withDist q vals') := h.map _

/-- Another order of values with distances comes from another order of the values. -/
theorem exists_withDist {vals : List Value} {X : List (FT × Value)}
    (h : (withDist q vals).Perm X) : ∃ vals', X = withDist q vals' ∧ vals'.Perm vals := by
  have hdist : ∀ c ∈ X, (calcSqrDist q c.2, c.2) = c := by
    intro c hc
    obtain ⟨val, -, rfl⟩ := List.mem_map.mp (h.mem_iff.mpr hc)
    rfl
  have hsnd : (withDist q vals).map Prod.snd = vals := by
    unfold withDist
    rw [List.map_map]
    exact List.map_id vals
  refine ⟨X.map Prod.snd, ?_, (h.symm.map Prod.snd).trans (List.Perm.of_eq hsnd)⟩
  unfold withDist
  rw [List.map_map]
  exact ((List.map_congr_left hdist).trans (List.map_id X)).symm

/-- The pending inserts of a version, list by list, for any set of removed identifiers. -/
def pendingOf (removedIds : Finset ℕ) (q : Point) (v : VersionNode T) :
    List (List (FT × Value)) :=
  v.path.1.reverse.map fun n => withDist q (n.deltaInserts.filter fun ins => ins.id ∉ removedIds)

/-- The order inside the insert lists changes the order of the pending inserts and nothing else. -/
theorem SameUpToOrder.getQueryView (h : SameUpToOrder v v') :
    (Rlog.getQueryView v').outBase = (Rlog.getQueryView v).outBase ∧
      (Rlog.getQueryView v').outRemovedIds = (Rlog.getQueryView v).outRemovedIds ∧
      (Rlog.getQueryView v').outPendingInserts.Perm (Rlog.getQueryView v).outPendingInserts := by
  have hpath : v'.path.2 = v.path.2 ∧
      (v'.path.1.reverse.flatMap fun n => n.deltaRemoves.map Value.id) =
        (v.path.1.reverse.flatMap fun n => n.deltaRemoves.map Value.id) ∧
      (v'.path.1.reverse.flatMap VersionNode.deltaInserts).Perm
        (v.path.1.reverse.flatMap VersionNode.deltaInserts) := by
    induction h with
    | nullptr => exact ⟨rfl, rfl, List.Perm.refl _⟩
    | node hparent hins depth rem cachedBase logSize baseSize ih =>
      cases cachedBase with
      | some base => exact ⟨rfl, rfl, List.Perm.refl _⟩
      | none =>
        obtain ⟨hbase, hrem, hperm⟩ := ih
        simp only [VersionNode.path, List.reverse_cons, List.flatMap_append, List.flatMap_singleton]
        exact ⟨hbase, congrArg (· ++ rem.map Value.id) hrem, hperm.append hins.symm⟩
  obtain ⟨hbase, hrem, hperm⟩ := hpath
  unfold Rlog.getQueryView
  simp only [hbase, hrem]
  exact ⟨trivial, trivial, hperm.filter _⟩

theorem SameUpToOrder.liveBase (h : SameUpToOrder v v') (rtree : NearestTree T) (q : Point)
    (k : ℕ) : liveBase rtree v' q k = liveBase rtree v q k := by
  obtain ⟨hbase, hrem, -⟩ := h.getQueryView
  unfold Rlog.liveBase
  simp only [hbase, hrem]

/-- Versions that differ in the order of their inserts have lists that differ in their order. -/
theorem SameUpToOrder.pendingOf (h : SameUpToOrder v v') (removedIds : Finset ℕ) (q : Point) :
    List.Forall₂ List.Perm (pendingOf removedIds q v) (pendingOf removedIds q v') := by
  unfold Rlog.pendingOf
  induction h with
  | nullptr => exact .nil
  | node hparent hins depth rem cachedBase logSize baseSize ih =>
    cases cachedBase with
    | some base => exact .nil
    | none =>
      simp only [VersionNode.path, List.reverse_cons, List.map_append, List.map_cons, List.map_nil]
      exact List.rel_append ih (.cons (withDist_perm (hins.filter _)) .nil)

theorem SameUpToOrder.refl (v : VersionNode T) : SameUpToOrder v v := by
  induction v with
  | nullptr => exact .nullptr
  | node parent depth ins rem cachedBase logSize baseSize ih =>
    exact .node ih (List.Perm.refl ins) ..

/-- Every order of the lists is the one of some version. -/
theorem exists_sameUpToOrder (removedIds : Finset ℕ) (q : Point) (v : VersionNode T) :
    ∀ {lists : List (List (FT × Value))},
      List.Forall₂ List.Perm (pendingOf removedIds q v) lists →
      ∃ v', SameUpToOrder v v' ∧ pendingOf removedIds q v' = lists := by
  induction v with
  | nullptr =>
    intro lists h
    exact ⟨.nullptr, .nullptr, (List.forall₂_nil_left_iff.mp h).symm⟩
  | node parent depth ins rem cachedBase logSize baseSize ih =>
    intro lists h
    cases cachedBase with
    | some base => exact ⟨_, SameUpToOrder.refl _, (List.forall₂_nil_left_iff.mp h).symm⟩
    | none =>
      have hpending : ∀ (parent : VersionNode T) ins,
          pendingOf removedIds q (.node parent depth ins rem none logSize baseSize) =
            pendingOf removedIds q parent ++
              [withDist q (ins.filter fun ins => ins.id ∉ removedIds)] := by
        intro parent ins
        simp only [pendingOf, VersionNode.path, List.reverse_cons, List.map_append, List.map_cons,
          List.map_nil, VersionNode.deltaInserts]
      rw [hpending] at h
      obtain ⟨xs, X, ys, rfl, hxs, hX, hys⟩ := forall₂_block h
      obtain rfl := List.forall₂_nil_left_iff.mp hys
      obtain ⟨parent', hparent, rfl⟩ := ih hxs
      -- the list in the new order, and behind it what is removed
      obtain ⟨alive, rfl, halive⟩ := exists_withDist hX
      have hfilter : (alive ++ ins.filter fun ins => !decide (ins.id ∉ removedIds)).filter
          (fun ins => ins.id ∉ removedIds) = alive := by
        rw [List.filter_append, List.filter_eq_self.mpr, List.filter_eq_nil_iff.mpr,
          List.append_nil]
        · intro w hw
          have := (List.mem_filter.mp hw).2
          simpa using this
        · exact fun w hw => (List.mem_filter.mp (halive.mem_iff.mp hw)).2
      refine ⟨.node parent' depth (alive ++ ins.filter fun ins => !decide (ins.id ∉ removedIds)) rem
        none logSize baseSize, .node hparent ?_ .., ?_⟩
      · exact (List.filter_append_perm _ ins).symm.trans (halive.symm.append_right _)
      · rw [hpending, hfilter]

/-- The pending inserts of a query view, list by list. -/
theorem flatten_pendingLists (v : VersionNode T) (q : Point) :
    (pendingLists v q).flatten = withDist q (getQueryView v).outPendingInserts := by
  unfold pendingLists withDist
  simp only [getQueryView, List.filter_flatMap, List.map_flatMap]
  rfl

theorem SameUpToOrder.pendingLists (h : SameUpToOrder v v') (q : Point) :
    List.Forall₂ List.Perm (pendingLists v q) (pendingLists v' q) := by
  have hpending := h.pendingOf (Rlog.getQueryView v).outRemovedIds q
  rw [← h.getQueryView.2.1] at hpending
  have hleft : Rlog.pendingLists v q = Rlog.pendingOf (Rlog.getQueryView v).outRemovedIds q v := rfl
  rw [hleft, ← h.getQueryView.2.1]
  exact hpending

theorem knnReport_eq (v : VersionNode T) (q : Point) (k : ℕ) :
    (knnReport rtree v q k).map Value.id =
      (answer k (pendingLists v q) (withDist q (liveBase rtree v q k))).map fun c => c.2.id := by
  unfold answer
  rw [flatten_pendingLists]
  exact List.map_map

theorem liveBase_sorted (hr : rtree.Answers) (v : VersionNode T) (q : Point) (k : ℕ) :
    (withDist q (liveBase rtree v q k)).Pairwise fun a b => a.1 ≤ b.1 := by
  refine List.pairwise_map.mpr ?_
  unfold liveBase
  cases hbase : (getQueryView v).outBase with
  | none => simp only [hbase, List.Pairwise.nil]
  | some base =>
    simp only [hbase]
    exact hr.sorted ..

/-- What a query looks at is visible, each point once. -/
theorem seen_nodup (hr : rtree.Answers) (q : Point) (k : ℕ)
    (hid : ((visible rtree.toRTree v).map Value.id).Nodup) :
    (((pendingLists v q).flatten ++ withDist q (liveBase rtree v q k)).map
      fun c => c.2.id).Nodup := by
  have hids : ∀ vals : List Value, (withDist q vals).map (fun c => c.2.id) = vals.map Value.id :=
    fun vals => List.map_map
  rw [List.map_append, flatten_pendingLists, hids, hids]
  unfold visible at hid
  unfold liveBase
  cases hbase : (getQueryView v).outBase with
  | none =>
    simp only [hbase, List.nil_append, List.map_nil, List.append_nil] at hid ⊢
    exact hid
  | some base =>
    simp only [hbase, List.map_append] at hid ⊢
    obtain ⟨rest, hrest, -⟩ := (hr.kNearest base q (k % 2 ^ 32)
      fun w => w.id ∉ (getQueryView v).outRemovedIds).rest
    have hperm := (hrest.map Value.id).append_right
      ((getQueryView v).outPendingInserts.map Value.id)
    have hall := List.perm_append_comm.nodup_iff.mp (hperm.nodup_iff.mpr hid)
    rw [List.map_append, ← List.append_assoc] at hall
    exact hall.of_append_left

/-- **Nearest neighbours and the order of the log.** For a version whose visible points have distinct
identifiers, the identifiers of a query do not depend on the order inside its insert lists exactly when
every tie of its pending inserts is settled. -/
theorem knn_order_independent_iff (hr : rtree.Answers) (v : VersionNode T) (q : Point) (hk : 0 < k)
    (hid : ((visible rtree.toRTree v).map Value.id).Nodup) :
    (∀ v', SameUpToOrder v v' → ∀ i, i ∈ (knnReport rtree v q k).map Value.id ↔
        i ∈ (knnReport rtree v' q k).map Value.id) ↔
      ∀ tie : Tie k (pendingLists v q) (withDist q (liveBase rtree v q k)), tie.Settled := by
  rw [← answer_same_iff hk (seen_nodup hr q k hid) (liveBase_sorted hr v q k)]
  constructor
  · intro hsame lists' hlists i
    obtain ⟨v', hv', heq⟩ := exists_sameUpToOrder (getQueryView v).outRemovedIds q v hlists
    have hlists' : pendingLists v' q = lists' := by
      rw [← heq, ← hv'.getQueryView.2.1]
      rfl
    have hi := hsame v' hv' i
    rwa [knnReport_eq, knnReport_eq, hlists', hv'.liveBase] at hi
  · intro hsame v' hv' i
    rw [knnReport_eq, knnReport_eq, hv'.liveBase]
    exact hsame _ (hv'.pendingLists q) i

/-- The values in the order of their distance. -/
def byDist (q : Point) (vals : List Value) : List Value :=
  vals.insertionSort fun v w => calcSqrDist q v ≤ calcSqrDist q w

theorem byDist_sorted (q : Point) (vals : List Value) :
    (byDist q vals).Pairwise fun v w => calcSqrDist q v ≤ calcSqrDist q w := by
  have : Std.Total fun v w => calcSqrDist q v ≤ calcSqrDist q w := ⟨fun _ _ => le_total _ _⟩
  have : IsTrans Value fun v w => calcSqrDist q v ≤ calcSqrDist q w :=
    ⟨fun _ _ _ h1 h2 => h1.trans h2⟩
  exact List.pairwise_insertionSort _ _

/-- Lists as R-trees, with a nearest query that sorts. -/
def sortedList : NearestTree (List Value) :=
  { listTree with nearest := fun base q k alive => (byDist q (base.filter alive)).take k }

theorem sortedList_answers : sortedList.Answers where
  faithful := listTree_faithful
  kNearest base q k alive := by
    have hperm : (byDist q (base.filter alive)).Perm (base.filter alive) :=
      List.perm_insertionSort _ _
    have hsorted := byDist_sorted q (base.filter alive)
    refine ⟨List.length_take.trans (congrArg (min k) hperm.length_eq),
      (byDist q (base.filter alive)).drop k, ?_, fun v hv w hw => ?_⟩
    · exact (List.Perm.of_eq (List.take_append_drop k _)).trans hperm
    · rw [← List.take_append_drop k (byDist q (base.filter alive))] at hsorted
      exact (List.pairwise_append.mp hsorted).2.2 v hv w hw
  sorted base q k alive := (byDist_sorted q _).sublist (List.take_sublist k _)

/-! ## Three points at one distance -/

/-- A base of one point that is deleted again, and one insertion. -/
def pendingVersion (rtree : RTree T) (z : Value) (W : List Value) : VersionNode T :=
  .node (.node (mapInit rtree [z]) 1 [] [z] none 1 1) 2 W [] none (1 + W.length) 1

theorem grown_pendingVersion (rtree : RTree T) (z : Value) (W : List Value) :
    Grown rtree (pendingVersion rtree z W) := by
  have hdelete : Step.apply rtree (mapInit rtree [z]) (.mapDelete [z] (W.length + 2)) =
      some (.node (mapInit rtree [z]) 1 [] [z] none 1 1) := by
    refine if_neg ?_
    simp only [mapInit, VersionNode.cumulativeLogSize, VersionNode.currentBaseSize,
      List.length_singleton]
    push_cast
    have : (0 : FT) ≤ W.length := Nat.cast_nonneg _
    linarith
  have hinsert : Step.apply rtree (.node (mapInit rtree [z]) 1 [] [z] none 1 1)
      (.mapInsert W (W.length + 2)) = some (pendingVersion rtree z W) := by
    refine if_neg ?_
    simp only [VersionNode.cumulativeLogSize, VersionNode.currentBaseSize]
    push_cast
    linarith
  exact ((Grown.mapInit [z]).apply _ hdelete).apply _ hinsert

theorem pendingVersion_sameUpToOrder (rtree : RTree T) (z : Value) {W W' : List Value}
    (h : W.Perm W') : SameUpToOrder (pendingVersion rtree z W) (pendingVersion rtree z W') := by
  unfold pendingVersion mapInit
  rw [h.length_eq]
  exact .node (.node (.node .nullptr (List.Perm.refl _) ..) (List.Perm.refl _) ..) h ..

/-- Three pending points at one distance from the origin. -/
def threeTied : VersionNode (List Value) :=
  pendingVersion listTree ⟨5, 5, 4⟩ [⟨1, 0, 1⟩, ⟨-1, 0, 2⟩, ⟨0, 1, 3⟩]

/-- Asked for one of them or for all three, a query has the same answer in every order. -/
theorem knn_order_independent_iff_three :
    (∀ v', SameUpToOrder threeTied v' → ∀ i,
      i ∈ (knnReport sortedList threeTied (.ofXY 0 0) 1).map Value.id ↔
        i ∈ (knnReport sortedList v' (.ofXY 0 0) 1).map Value.id) ∧
    ∀ v', SameUpToOrder threeTied v' → ∀ i,
      i ∈ (knnReport sortedList threeTied (.ofXY 0 0) 3).map Value.id ↔
        i ∈ (knnReport sortedList v' (.ofXY 0 0) 3).map Value.id := by
  have hid : ((visible listTree threeTied).map Value.id).Nodup := by decide +kernel
  constructor
  · exact (knn_order_independent_iff sortedList_answers threeTied (.ofXY 0 0) Nat.one_pos hid).mpr
      fun tie => tie.settled_one
  · have hno : NoTie Prod.fst 3 (pendingLists threeTied (.ofXY 0 0)).flatten := fun d _ =>
      List.countP_le_length.trans (by decide +kernel)
    exact (knn_order_independent_iff sortedList_answers threeTied (.ofXY 0 0)
      (Nat.succ_pos 2) hid).mpr fun tie => ((isEmpty_tie hno).false tie).elim

/-- Three pending points at the same distance: the order of their insertion decides which two of
them are the nearest. -/
theorem knn_depends_on_order :
    let W : List Value := [⟨1, 0, 1⟩, ⟨-1, 0, 2⟩, ⟨0, 1, 3⟩]
    let W' : List Value := [⟨-1, 0, 2⟩, ⟨0, 1, 3⟩, ⟨1, 0, 1⟩]
    let v := pendingVersion listTree ⟨5, 5, 4⟩ W
    let v' := pendingVersion listTree ⟨5, 5, 4⟩ W'
    Grown listTree v ∧ Grown listTree v' ∧ SameUpToOrder v v' ∧
      ((visible listTree v).map Value.id).Nodup ∧
      (knnReport sortedList v (.ofXY 0 0) 2).map Value.id = [3, 1] ∧
      (knnReport sortedList v' (.ofXY 0 0) 2).map Value.id = [3, 2] :=
  ⟨grown_pendingVersion .., grown_pendingVersion ..,
    pendingVersion_sameUpToOrder _ _ (by decide), by decide +kernel, by decide +kernel,
    by decide +kernel⟩

end Versions

end Rlog

end Silva
