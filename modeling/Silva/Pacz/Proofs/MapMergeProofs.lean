import Silva.Pacz.Tree
import Silva.Cpam.Proofs.MapProofs
import Silva.Mvq.Proofs.MergeProofs

/-!
# Proofs: maps and trees merge alike

A map and a tree with the same contents have the same differences, so the merge resolves them alike.
The two commits agree on a resolution because it inserts only identifiers that the base does not have.
-/

namespace Silva

namespace PACZ

variable {M : Type*} {zmap : OrderedMap KeyType Point M} {leafSize : Nat}
  {base node1 node2 t t1 t2 : BaseNode} {m m1 m2 mb : M}

/-- The map stores every point under the point's own key. -/
def Keyed (zmap : OrderedMap KeyType Point M) (m : M) : Prop := ∀ e ∈ zmap.entries m, e.1 = e.2.key

/-- The map holds the points of the version, each one under its key. -/
structure SameContents (zmap : OrderedMap KeyType Point M) (m : M) (t : BaseNode) : Prop where
  keyed : Keyed zmap m
  values : (values zmap m).Perm (Tree.collectRecords t)

/-! ## Values of a map -/

theorem Keyed.map_key (h : Keyed zmap m) :
    (zmap.entries m).map Prod.fst = (PACZ.values zmap m).map Point.key := by
  unfold PACZ.values
  rw [List.map_map]
  exact List.map_congr_left h

/-- Removing keys from the entries removes them from the values. -/
theorem Keyed.values_filter (h : Keyed zmap m) (Q : List Point)
    {_ : DecidablePred fun e : KeyType × Point => e.1 ∉ Q.map Point.key} :
    ((zmap.entries m).filter fun e => e.1 ∉ Q.map Point.key).map Prod.snd =
      minus (PACZ.values zmap m) Q := by
  unfold PACZ.values minus
  rw [List.filter_map]
  refine congrArg _ (List.filter_congr fun e he => ?_)
  exact decide_eq_decide.mpr (by rw [h e he])

theorem Keyed.sorted (h : Keyed zmap m) (hz : zmap.Lawful) :
    (PACZ.values zmap m).Pairwise (·.key < ·.key) := by
  refine List.pairwise_map.mpr ((hz.sorted m).imp_of_mem fun {a b} ha hb hlt => ?_)
  rwa [← h a ha, ← h b hb]

theorem values_difference (hz : zmap.Lawful) (h1 : Keyed zmap m1) (h2 : Keyed zmap m2) :
    PACZ.values zmap (zmap.mapDifference m1 m2) =
      minus (PACZ.values zmap m1) (PACZ.values zmap m2) := by
  show (zmap.entries (zmap.mapDifference m1 m2)).map Prod.snd = _
  rw [hz.entries_difference, h2.map_key]
  exact h1.values_filter (PACZ.values zmap m2)

theorem toEntries_keys (P : List Point) :
    (toEntries P).map Prod.fst = (withCodes P).map Point.key := by
  unfold toEntries
  rw [List.map_map]
  rfl

theorem toEntries_values (P : List Point) : (toEntries P).map Prod.snd = withCodes P := by
  unfold toEntries
  rw [List.map_map]
  exact List.map_id _

theorem values_mapDelete (hz : zmap.Lawful) (h : Keyed zmap m) (P : List Point) :
    PACZ.values zmap (mapDelete zmap P m) = minus (PACZ.values zmap m) (withCodes P) := by
  show (zmap.entries (zmap.multiDelete m (toEntries P))).map Prod.snd = _
  rw [hz.entries_delete, toEntries_keys]
  exact h.values_filter (withCodes P)

theorem values_mapInsert (hz : zmap.Lawful) (h : Keyed zmap m) {P : List Point}
    (hP : ((withCodes P).map Point.key).Nodup) :
    (PACZ.values zmap (mapInsert zmap P m)).Perm
      (minus (PACZ.values zmap m) (withCodes P) ++ withCodes P) := by
  have hperm := (hz.entries_insert_perm m (by rwa [toEntries_keys])).map Prod.snd
  rw [List.map_append, toEntries_values, toEntries_keys] at hperm
  exact hperm.trans ((List.Perm.of_eq (h.values_filter (withCodes P))).append_right _)

theorem Keyed.mapDelete (hz : zmap.Lawful) (h : Keyed zmap m) (P : List Point) :
    Keyed zmap (mapDelete zmap P m) :=
  fun e he => h e ((hz.mem_delete m (toEntries P) e).mp he).1

theorem Keyed.mapInsert (hz : zmap.Lawful) (h : Keyed zmap m) (P : List Point) :
    Keyed zmap (mapInsert zmap P m) := by
  intro e he
  rcases hz.of_mem_insert m (toEntries P) e he with hP | ⟨hold, -⟩
  · obtain ⟨p, -, rfl⟩ := List.mem_map.mp hP
    rfl
  · exact h e hold

theorem Keyed.mapCommit (hz : zmap.Lawful) (h : Keyed zmap m) (PInsert PDelete : List Point) :
    Keyed zmap (mapCommit zmap m PInsert PDelete) :=
  (h.mapDelete hz PDelete).mapInsert hz PInsert

/-- With fresh keys a commit to the map appends the batch to what the deletion leaves. -/
theorem Keyed.values_mapCommit (hz : zmap.Lawful) (h : Keyed zmap m) {C I D : List Point}
    (hC : (values zmap m).Perm C) (hnd : ((withCodes I).map Point.key).Nodup)
    (hnew : ∀ p ∈ minus C (withCodes D), p.key ∉ (withCodes I).map Point.key) :
    (values zmap (PACZ.mapCommit zmap m I D)).Perm (minus C (withCodes D) ++ withCodes I) := by
  have hins := values_mapInsert hz (h.mapDelete hz D) hnd
  rw [values_mapDelete hz h] at hins
  have hdel : (minus (values zmap m) (withCodes D)).Perm (minus C (withCodes D)) := minus_perm hC _
  have hsame : minus (minus (values zmap m) (withCodes D)) (withCodes I) =
      minus (values zmap m) (withCodes D) :=
    List.filter_eq_self.mpr fun p hp => decide_eq_true (hnew p (hdel.mem_iff.mp hp))
  rw [hsame] at hins
  exact hins.trans (hdel.append_right _)

/-! ## A map and a tree with the same contents -/

/-- The map lists the records in the order of the tree. -/
theorem SameContents.values_eq (hz : zmap.Lawful) (h : SameContents zmap m t)
    (ht : Version leafSize t) : PACZ.values zmap m = Tree.collectRecords t := by
  have hlt := h.keyed.sorted hz
  have hnd : ((Tree.collectRecords t).map Point.key).Nodup :=
    ((h.values.map Point.key).nodup_iff).mp (List.pairwise_map.mpr (hlt.imp fun hab => hab.ne))
  have hlt' : (Tree.collectRecords t).Pairwise (·.key < ·.key) :=
    ht.batch.sorted.imp₂ (fun _ _ hle hne => lt_of_le_of_ne hle hne) (List.pairwise_map.mp hnd)
  exact h.values.eq_of_pairwise (fun _ _ _ _ hab hba => absurd hab hba.not_gt) hlt hlt'

theorem SameContents.mapDiff_eq (hz : zmap.Lawful) (h1 : SameContents zmap m1 t1)
    (h2 : SameContents zmap m2 t2) (ht1 : PlainVersion leafSize t1)
    (ht2 : PlainVersion leafSize t2) (ptr : PtrEq t1 t2) :
    mapDiff zmap m1 m2 = Tree.twoVersionDiff t1 t2 ptr := by
  unfold mapDiff
  rw [twoVersionDiff_eq_minus ht1.version ht2.version ht1.uniqueIds ht2.uniqueIds,
    values_difference hz h2.keyed h1.keyed, values_difference hz h1.keyed h2.keyed,
    h1.values_eq hz ht1.version, h2.values_eq hz ht2.version]

/-- Both commits give the same contents when the inserted keys are new and distinct. -/
theorem SameContents.mapCommit (hz : zmap.Lawful) (h : SameContents zmap m t)
    (ht : Version leafSize t) {I D : List Point} (hI : ∀ p ∈ I, p.Coded) (hD : ∀ p ∈ D, p.Coded)
    (hnd : (I.map Point.key).Nodup)
    (hnew : ∀ p ∈ Tree.collectRecords t, p.key ∉ I.map Point.key) :
    ∃ t', Tree.commit leafSize t I D = some t' ∧ SameContents zmap (mapCommit zmap m I D) t' := by
  have hvalues := h.values_eq hz ht
  have hkeys : ((Tree.collectRecords t).map Point.key).Nodup := by
    rw [← hvalues]
    exact List.pairwise_map.mpr ((h.keyed.sorted hz).imp fun hab => hab.ne)
  obtain ⟨t', ht', -, hperm⟩ := ht.commit_contents hkeys hI hD
  have hI' : withCodes I = I := map_code_eq_self hI
  have hD' : withCodes D = D := map_code_eq_self hD
  have hvalues' := h.keyed.values_mapCommit hz h.values (I := I) (D := D) (by rwa [hI']) fun p hp => by
    rw [hI']
    exact hnew p (List.mem_of_mem_filter hp)
  rw [hI', hD'] at hvalues'
  exact ⟨t', ht', h.keyed.mapCommit hz I D, hvalues'.trans hperm.symm⟩

/-- A batch with distinct keys as a sorted list of entries. -/
def ofBatch (P : List Point) (hP : P.Pairwise (·.key < ·.key)) :
    OrderedMap.SortedEntries KeyType Point :=
  ⟨P.map fun p => (p.key, p), List.pairwise_map.mpr hP⟩

theorem sameContents_ofBatch {P : List Point} (hP : P.Pairwise (·.key < ·.key))
    (hcoded : ∀ p ∈ P, p.Coded) :
    SameContents OrderedMap.SortedEntries.ops (ofBatch P hP) (Tree.build leafSize P) := by
  have hbatch : Batch P := ⟨hP.imp le_of_lt, hcoded⟩
  refine ⟨fun e he => ?_, ?_⟩
  · obtain ⟨p, -, rfl⟩ := List.mem_map.mp he
    rfl
  · show ((P.map fun p => (p.key, p)).map Prod.snd).Perm _
    rw [List.map_map, (build_isVersion hbatch).collectRecords]
    exact List.Perm.of_eq (List.map_id _)

/-- The trees of the library as the maps of the index. -/
def treeMaps : OrderedMap KeyType Point (Cpam.PacMap entry blockSize) :=
  Cpam.pacMaps (by decide) Cpam.sortsByKey_sortByKey

theorem treeMaps_lawful : treeMaps.Lawful := Cpam.lawful_pacMaps (by decide) Cpam.sortsByKey_sortByKey

/-- The tree that the constructor makes of entries. -/
def treeMap (es : List (KeyType × Point)) : Cpam.PacMap entry blockSize :=
  .ofSeq (by decide) Cpam.sortsByKey_sortByKey es

theorem treeMap_perm (es : List (KeyType × Point)) (hes : (es.map Prod.fst).Nodup) :
    (treeMaps.entries (treeMap es)).Perm es :=
  Cpam.ofSeq_perm (by decide) Cpam.sortsByKey_sortByKey hes

theorem sameContents_treeMap {P : List Point} (hP : P.Pairwise (·.key < ·.key))
    (hcoded : ∀ p ∈ P, p.Coded) :
    SameContents treeMaps (treeMap (P.map fun p => (p.key, p))) (Tree.build leafSize P) := by
  have hbatch : Batch P := ⟨hP.imp le_of_lt, hcoded⟩
  have hperm := treeMap_perm (P.map fun p => (p.key, p))
    (List.pairwise_map.mpr (List.pairwise_map.mpr (hP.imp fun hlt => hlt.ne)))
  refine ⟨fun e he => ?_, ?_⟩
  · obtain ⟨p, -, rfl⟩ := List.mem_map.mp (hperm.mem_iff.mp he)
    rfl
  · refine (hperm.map Prod.snd).trans ?_
    rw [List.map_map, (build_isVersion hbatch).collectRecords]
    exact List.Perm.of_eq (List.map_id _)

/-! ## The merge -/

/-- What `map_merge` returns once the commit has made the new version. -/
def ofResolution (res : Resolution) (newVer : M) : MergeResult M :=
  { newVer, conflictInsert := res.conflictInsert, conflictUpdate := res.conflictUpdate,
    conflictDelete := res.conflictDelete }

theorem mapMerge_eq (zmap : OrderedMap KeyType Point M) (mb m1 m2 : M) {res : Resolution}
    (hres : res = resolve (mapDiff zmap mb m1) (mapDiff zmap mb m2)) :
    mapMerge zmap mb m1 m2 = ofResolution res (mapCommit zmap mb res.inserts res.deletes) := by
  rw [hres]
  rfl

/-- Both merges return the same points and the same lists of conflicts. -/
structure SameResult (zmap : OrderedMap KeyType Point M) (r : MergeResult M)
    (ret : Tree.MergeResult) : Prop where
  newVer : SameContents zmap r.newVer ret.newVer
  conflictInsert : r.conflictInsert = ret.conflictInsert
  conflictUpdate : r.conflictUpdate = ret.conflictUpdate
  conflictDelete : r.conflictDelete = ret.conflictDelete

/-- An identifier that a resolution inserts is not in the base. -/
theorem base_eq_none_of_mem_inserts {b s1 s2 : ℕ → Option Point}
    {diff1 diff2 : List Point × List Point} (hc1 : Changes b s1 diff1) (hc2 : Changes b s2 diff2)
    {p : Point} (hp : p ∈ (resolve diff1 diff2).inserts) : b p.id = none := by
  have hins := (hc1.inserts hc2).mem_iff.mp hp
  cases hb : b p.id with
  | none => rfl
  | some c =>
    rw [hb] at hins
    cases hins

/-- The two indexes merge alike: the same points, and the same three lists of conflicts. -/
theorem map_merge_eq_merge (hz : zmap.Lawful) (hb : PlainVersion leafSize base)
    (h1 : PlainVersion leafSize node1) (h2 : PlainVersion leafSize node2)
    (hmb : SameContents zmap mb base) (hm1 : SameContents zmap m1 node1)
    (hm2 : SameContents zmap m2 node2) (ptr1 : PtrEq base node1) (ptr2 : PtrEq base node2) :
    ∃ ret, Tree.merge leafSize base node1 node2 ptr1 ptr2 = some ret ∧
      SameResult zmap (mapMerge zmap mb m1 m2) ret := by
  have hc1 := hb.changes h1 ptr1
  have hc2 := hb.changes h2 ptr2
  have hst := states hb h1 h2
  have hmap := mapMerge_eq zmap mb m1 m2 rfl
  rw [hmb.mapDiff_eq hz hm1 hb h1 ptr1, hmb.mapDiff_eq hz hm2 hb h2 ptr2] at hmap
  have hnew : ∀ p ∈ Tree.collectRecords base, p.key ∉ (resolve (Tree.twoVersionDiff base node1 ptr1)
      (Tree.twoVersionDiff base node2 ptr2)).inserts.map Point.key := by
    intro p hp hkey
    obtain ⟨q, hq, hqp⟩ := List.mem_map.mp hkey
    have hnone := base_eq_none_of_mem_inserts hc1 hc2 hq
    rw [(key_eq_iff.mp hqp).2, hb.byId.mem_iff.mp hp] at hnone
    cases hnone
  obtain ⟨newVer, hcommit, hsame⟩ := hmb.mapCommit hz hb.version
    (fun p hp => (hc1.inserts_plain hc2 hst p hp).coded)
    (fun p hp => (hc1.deletes_plain hc2 hst p hp).coded)
    (nodup_key_of_nodup_id (hc1.inserts hc2).nodup) hnew
  have hmerge := merge_eq leafSize ptr1 ptr2 rfl
  rw [hcommit] at hmerge
  refine ⟨_, hmerge, ?_⟩
  rw [hmap]
  exact ⟨hsame, rfl, rfl, rfl⟩

/-- One branch moves the only point, the other one deletes it: both indexes report the deletion
conflict and keep the base. -/
theorem map_merge_eq_merge_conflict :
    ∃ ret, Tree.merge 16 (Tree.build 16 [⟨1, 1, 1, 3⟩]) (Tree.build 16 [⟨1, 5, 6, 54⟩])
        (Tree.build 16 []) (.distinct _ _) (.distinct _ _) = some ret ∧
      SameResult treeMaps (mapMerge treeMaps
        (treeMap ([⟨1, 1, 1, 3⟩].map fun p => (p.key, p)))
        (treeMap ([⟨1, 5, 6, 54⟩].map fun p => (p.key, p)))
        (treeMap ([].map fun p : Point => (p.key, p)))) ret := by
  have hb : PlainVersion 16 (Tree.build 16 [⟨1, 1, 1, 3⟩]) :=
    plainVersion_singleton (by decide +kernel)
      ⟨1, 1, by norm_num, by norm_num, by norm_num, by norm_num⟩
  have h1 : PlainVersion 16 (Tree.build 16 [⟨1, 5, 6, 54⟩]) :=
    plainVersion_singleton (by decide +kernel)
      ⟨5, 6, by norm_num, by norm_num, by norm_num, by norm_num⟩
  have h2 : PlainVersion 16 (Tree.build 16 []) :=
    plainVersion_build Batch.nil (by decide) (by simp)
  exact map_merge_eq_merge treeMaps_lawful hb h1 h2
    (sameContents_treeMap (List.pairwise_singleton _ _) (by decide +kernel))
    (sameContents_treeMap (List.pairwise_singleton _ _) (by decide +kernel))
    (sameContents_treeMap .nil (by simp)) (.distinct _ _) (.distinct _ _)

end PACZ

end Silva
