import Silva.Pacz.Commits
import Silva.Pacz.Proofs.MapMergeProofs
import Silva.Pacz.Proofs.TreeProofs
import Silva.Mvq.Proofs.RangeProofs

/-!
# Proofs: runs of commits on both indexes

A commit keeps the two contents equal as long as it inserts fresh keys. A key that is already there is
stored a second time by the tree and replaced by the map.
-/

namespace Silva

open BaseNode PACZ

variable {leafSize : Nat} {t t' : BaseNode} {C I D : List Point}

/-! ## Single commits -/

/-- The keys of the new contents are distinct exactly when the inserted ones are fresh. -/
theorem nodup_commit_iff (hnd : (C.map Point.key).Nodup) :
    ((minus C D ++ I).map Point.key).Nodup ↔
      (I.map Point.key).Nodup ∧ ∀ p ∈ minus C D, p.key ∉ I.map Point.key := by
  have hminus : ((minus C D).map Point.key).Nodup := hnd.sublist (List.filter_sublist.map _)
  rw [List.map_append, List.nodup_append']
  constructor
  · rintro ⟨-, hI, hdisj⟩
    exact ⟨hI, fun p hp hkey => hdisj (List.mem_map_of_mem hp) hkey⟩
  · rintro ⟨hI, hnew⟩
    refine ⟨hminus, hI, fun k hk hkI => ?_⟩
    obtain ⟨p, hp, rfl⟩ := List.mem_map.mp hk
    exact hnew p hp hkI

theorem buildNode_ne_nullptr (leafSize : Nat) (P : List Point) (b : Nat) :
    Tree.buildNode leafSize P b ≠ nullptr := by
  cases b with
  | zero => rw [buildNode_zero]; simp
  | succ b =>
    unfold Tree.buildNode Tree.createInternal
    split <;> simp

/-- A version that was inserted into has a root, also after an empty insertion. -/
theorem multiVersionBatchInsertSorted_ne_nullptr (leafSize : Nat) (P : List Point) (t : BaseNode) :
    Tree.multiVersionBatchInsertSorted leafSize P t ≠ nullptr := by
  unfold Tree.multiVersionBatchInsertSorted
  cases t with
  | nullptr => exact buildNode_ne_nullptr _ _ _
  | leafNode records =>
    rw [Tree.multiVersionBatchInsertSortedNode]
    split
    · simp
    · exact buildNode_ne_nullptr _ _ _
  | inteNode l r n => simp [Tree.multiVersionBatchInsertSortedNode]

theorem commit_ne_nullptr (h : Tree.commit leafSize t I D = some t') : t' ≠ nullptr := by
  obtain ⟨tmp, -, hins⟩ := Option.bind_eq_some_iff.mp h
  obtain rfl := Option.some.inj hins
  exact multiVersionBatchInsertSorted_ne_nullptr _ _ _

/-- Every commit runs through, whatever the version holds. -/
theorem Version.commit_total (ht : Version leafSize t) (I D : List Point) :
    ∃ t', Tree.commit leafSize t I D = some t' ∧ Version leafSize t' := by
  obtain ⟨t', ht', -⟩ := IsVersion.commit ht.isVersion I D
  exact ⟨t', ht', ht.commit ht'⟩

theorem Version.commits_total (cs : List Commit) : ∀ {t : BaseNode}, Version leafSize t →
    ∃ versions, Tree.commits leafSize t cs = some versions := by
  induction cs with
  | nil => exact fun _ => ⟨[], rfl⟩
  | cons c cs ih =>
    intro t ht
    obtain ⟨t', hcommit, ht'⟩ := ht.commit_total c.PInsert c.PDelete
    obtain ⟨versions, hrest⟩ := ih ht'
    refine ⟨t' :: versions, ?_⟩
    rw [Tree.commits, hcommit, Option.bind_eq_bind, Option.bind_some, hrest]
    rfl

theorem isInteger_withCodes {P : List Point} (hP : ∀ p ∈ P, p.IsInteger) :
    ∀ p ∈ withCodes P, p.IsInteger := by
  intro p hp
  obtain ⟨q, hq, rfl⟩ := List.mem_map.mp hp
  exact hP q hq

theorem isInteger_commit (hC : ∀ p ∈ C, p.IsInteger) {c : Commit} (hc : c.IsInteger) :
    ∀ p ∈ minus C (withCodes c.PDelete) ++ withCodes c.PInsert, p.IsInteger := by
  intro p hp
  rcases List.mem_append.mp hp with hp | hp
  · exact hC p (List.mem_of_mem_filter hp)
  · exact isInteger_withCodes (fun q hq => hc q (List.mem_append_left _ hq)) p hp

/-! ## Agreement -/

namespace PACZ

variable {M : Type*} {zmap : OrderedMap KeyType Point M} {m : M}

/-- Two versions with the same points give the same counts: both queries are exact. -/
theorem samePoints_of_perm (hw : IsVersion leafSize t (Tree.collectRecords t)) (hne : t ≠ nullptr)
    (hint : ∀ p ∈ Tree.collectRecords t, p.IsInteger)
    (hperm : (values zmap m).Perm (Tree.collectRecords t)) : SamePoints zmap m t where
  values := hperm
  rangeCount tree htree queryMbr curMbr hmbr := by
    have hloc : Located 64 curMbr 0 0 true (Tree.collectRecords t) :=
      Located.root hmbr fun p hp => (hint p hp).onGrid
    have hmap : rangeCount tree queryMbr =
        (values zmap m).countP fun p => pointInMbr p queryMbr := htree.rangeCount queryMbr
    unfold Tree.rangeCount
    rw [hw.rangeCountNode queryMbr hloc hne, hmap, hperm.countP_eq, countP_pointInMbr]

/-- Whole runs. Before a commit both versions hold the contents `C`; the commit keeps that exactly when
its keys are fresh, for the tree then holds a key twice and a map never does. -/
theorem commits_agree (hz : zmap.Lawful) (cs : List Commit) :
    ∀ {t : BaseNode} {m : M} {C : List Point} {versions : List BaseNode}, Holds leafSize t C →
      Keyed zmap m → (values zmap m).Perm C → (∀ p ∈ C, p.IsInteger) → (∀ c ∈ cs, c.IsInteger) →
      Tree.commits leafSize t cs = some versions →
      (List.Forall₂ (SamePoints zmap) (mapCommits zmap m cs) versions ↔ FreshInserts C cs) := by
  induction cs with
  | nil =>
    intro t m C versions _ _ _ _ _ hrun
    obtain rfl := Option.some.inj hrun
    exact iff_of_true .nil trivial
  | cons c cs ih =>
    intro t m C versions ht hm hC hint hcs hrun
    have hnd : (C.map Point.key).Nodup :=
      ((hC.map Point.key).nodup_iff).mp
        (List.pairwise_map.mpr ((hm.sorted hz).imp fun hab => hab.ne))
    obtain ⟨t', hcommit, ht'⟩ := ht.commit hnd c.PInsert c.PDelete
    rw [Tree.commits, hcommit, Option.bind_eq_bind, Option.bind_some] at hrun
    obtain ⟨rest, hrest, hversions⟩ := Option.bind_eq_some_iff.mp hrun
    obtain rfl := Option.some.inj hversions
    have hm' := hm.mapCommit hz c.PInsert c.PDelete
    have hint' := isInteger_commit hint (hcs c List.mem_cons_self)
    have hcs' : ∀ d ∈ cs, d.IsInteger := fun d hd => hcs d (List.mem_cons_of_mem c hd)
    obtain ⟨P, hP, hw⟩ := ht'
    have hrec : Tree.collectRecords t' = P := hw.collectRecords
    rw [mapCommits, List.forall₂_cons, FreshInserts]
    constructor
    · rintro ⟨hsame, hall⟩
      have hperm := hsame.values.trans (hrec ▸ hP)
      obtain ⟨hI, hnew⟩ := (nodup_commit_iff hnd).mp
        (((hperm.map Point.key).nodup_iff).mp
          (List.pairwise_map.mpr ((hm'.sorted hz).imp fun hab => hab.ne)))
      exact ⟨hI, hnew, (ih ⟨P, hP, hw⟩ hm' hperm hint' hcs' hrest).mp hall⟩
    · rintro ⟨hI, hnew, hfresh⟩
      have hperm := hm.values_mapCommit hz hC hI hnew
      refine ⟨?_, (ih ⟨P, hP, hw⟩ hm' hperm hint' hcs' hrest).mpr hfresh⟩
      refine samePoints_of_perm (hrec ▸ hw) (commit_ne_nullptr hcommit) ?_
        (hperm.trans (hrec ▸ hP.symm))
      rw [hrec]
      exact fun p hp => hint' p (hP.mem_iff.mp hp)

/-- From the same contents, the two indexes hold the same points after every commit of a run, and count
the same number of them, exactly when every commit inserts keys that are distinct and that its
deletions leave none of. Deletions of absent points make no difference. -/
theorem commits_agree_iff (hz : zmap.Lawful) (ht : Version leafSize t) (h : SameContents zmap m t)
    (hint : ∀ p ∈ Tree.collectRecords t, p.IsInteger) {cs : List Commit}
    (hcs : ∀ c ∈ cs, c.IsInteger) :
    ∃ versions, Tree.commits leafSize t cs = some versions ∧
      (List.Forall₂ (SamePoints zmap) (mapCommits zmap m cs) versions ↔
        FreshInserts (Tree.collectRecords t) cs) := by
  obtain ⟨versions, hrun⟩ := ht.commits_total cs
  have hold : Holds leafSize t (Tree.collectRecords t) := ⟨_, List.Perm.refl _, ht.isVersion⟩
  exact ⟨versions, hrun, commits_agree hz cs hold h.keyed h.values hint hcs hrun⟩

theorem isInteger_one_one (i mortonId : Nat) : (⟨i, 1, 1, mortonId⟩ : Point).IsInteger :=
  ⟨1, 1, by norm_num, by norm_num, by norm_num, by norm_num⟩

/-- A commit that deletes the only point, and one that is not there, and inserts the point again. -/
theorem commits_agree_iff_replaced :
    ∃ versions, Tree.commits 16 (Tree.build 16 [⟨1, 1, 1, 3⟩])
        [⟨[⟨1, 1, 1, 0⟩], [⟨1, 1, 1, 0⟩, ⟨7, 1, 1, 0⟩]⟩] = some versions ∧
      (List.Forall₂ (SamePoints treeMaps)
          (mapCommits treeMaps (treeMap ([⟨1, 1, 1, 3⟩].map fun p => (p.key, p)))
            [⟨[⟨1, 1, 1, 0⟩], [⟨1, 1, 1, 0⟩, ⟨7, 1, 1, 0⟩]⟩]) versions ↔
        FreshInserts (Tree.collectRecords (Tree.build 16 [⟨1, 1, 1, 3⟩]))
          [⟨[⟨1, 1, 1, 0⟩], [⟨1, 1, 1, 0⟩, ⟨7, 1, 1, 0⟩]⟩]) := by
  have hrecords : Tree.collectRecords (Tree.build 16 [⟨1, 1, 1, 3⟩]) = [⟨1, 1, 1, 3⟩] := by
    decide +kernel
  refine commits_agree_iff treeMaps_lawful (.build ⟨by decide +kernel, by decide +kernel⟩)
    (sameContents_treeMap (List.pairwise_singleton _ _) (by decide +kernel)) ?_ ?_
  · intro p hp
    rw [hrecords, List.mem_singleton] at hp
    rw [hp]
    exact isInteger_one_one 1 3
  · intro c hc p hp
    rw [List.mem_singleton.mp hc] at hp
    fin_cases hp
    · exact isInteger_one_one 1 0
    · exact isInteger_one_one 1 0
    · exact isInteger_one_one 7 0

/-- Inserting a point that is present: the tree holds it twice, the map once. -/
theorem present_point_doubled :
    SameContents OrderedMap.SortedEntries.ops (ofBatch [⟨1, 1, 1, 3⟩] (List.pairwise_singleton _ _))
        (Tree.build 16 [⟨1, 1, 1, 3⟩]) ∧
      ∃ versions, Tree.commits 16 (Tree.build 16 [⟨1, 1, 1, 3⟩]) [⟨[⟨1, 1, 1, 3⟩], []⟩] =
          some versions ∧
        ¬List.Forall₂ (SamePoints OrderedMap.SortedEntries.ops)
          (mapCommits OrderedMap.SortedEntries.ops (ofBatch [⟨1, 1, 1, 3⟩] (List.pairwise_singleton _ _))
            [⟨[⟨1, 1, 1, 3⟩], []⟩]) versions := by
  refine ⟨sameContents_ofBatch _ (by decide +kernel), [leafNode [⟨1, 1, 1, 3⟩, ⟨1, 1, 1, 3⟩]],
    by decide +kernel, fun hall => ?_⟩
  have hsame := (List.forall₂_cons.mp hall).1
  exact absurd hsame.values.length_eq (by decide +kernel)

end PACZ

end Silva
