import Silva.Cpam.Proofs.AugmentedProofs
import Silva.Cpam.Proofs.VersionsProofs
import Silva.Pacz.Index
import Silva.Pacz.Proofs.KnnAgreementProofs
import Silva.Pacz.Proofs.TreeProofs

/-!
# Proofs: the index on the trees of the library

The trees that the index makes are maps of points under their own keys, so every query on them is
exact, and no call fails, in any run.
-/

namespace Silva

namespace PACZ

namespace Index

open Cpam (IsPacMap Valid PaC SortsByKey encode)

variable {t t1 t2 v lhs rhs : Node} {P PInsert PDelete C s : List Point} {queryMbr : BoundingBox}
  {sampleSort : List (KeyType × Point) → List (KeyType × Point)}

/-! ## Versions -/

theorem combine_assoc (a b c : AugType) :
    entry.combine (entry.combine a b) c = entry.combine a (entry.combine b c) := by
  simp [entry, mergeMbr, Point.ofXY, min_assoc, max_assoc, Nat.add_assoc]

/-- A version is well formed, so the queries on it are exact. -/
theorem IsVersion.isMap (h : IsVersion t) : IsMap t t.entries :=
  ⟨h.isPacMap.valid.wellFormed combine_assoc (by decide), h.isPacMap.sorted, h.keyed⟩

theorem IsVersion.mem_iff (h : IsVersion t) {p : Point} :
    p ∈ treeValues t ↔ t.value p.key = some p := by
  have hentry : p ∈ treeValues t ↔ (p.key, p) ∈ t.entries := by
    constructor
    · intro hp
      obtain ⟨e, he, rfl⟩ := List.mem_map.mp hp
      have hkey : (e.2.key, e.2) = e := Prod.ext (h.keyed e he).symm rfl
      rwa [hkey]
    · exact fun hp => List.mem_map_of_mem hp
  rw [hentry, Cpam.mem_entries_iff h.isPacMap.sorted]

theorem IsVersion.map_key (h : IsVersion t) : (treeValues t).map Point.key = t.entries.map Prod.fst := by
  unfold treeValues
  rw [List.map_map]
  exact List.map_congr_left fun e he => (h.keyed e he).symm

theorem IsVersion.sorted (h : IsVersion t) : (treeValues t).Pairwise (·.key < ·.key) :=
  h.isMap.values_sorted

/-- Leaving out keys of a version. -/
theorem treeValues_filter (h : IsVersion t) {Q : List Point} {ks : List KeyType}
    {_ : DecidablePred fun e : KeyType × Point => e.1 ∉ ks} (hks : ks = Q.map Point.key)
    (hv : v.entries = t.entries.filter fun e => e.1 ∉ ks) :
    treeValues v = minus (treeValues t) Q := by
  unfold treeValues minus
  rw [hv, List.filter_map]
  refine congrArg _ (List.filter_congr fun e he => decide_eq_decide.mpr ?_)
  rw [hks, h.keyed e he]

theorem IsVersion.of_entries (h : IsVersion t) (hv : IsPacMap entry blockSize v)
    (hsub : ∀ e ∈ v.entries, e ∈ t.entries) : IsVersion v :=
  ⟨hv, fun e he => h.keyed e (hsub e he)⟩

theorem keyed_toEntries {e : KeyType × Point} (he : e ∈ toEntries P) :
    e.1 = e.2.key ∧ e.2 ∈ withCodes P := by
  obtain ⟨p, hp, rfl⟩ := List.mem_map.mp he
  exact ⟨rfl, hp⟩

theorem map_fst_toEntries (P : List Point) :
    (toEntries P).map Prod.fst = (withCodes P).map Point.key := by
  unfold toEntries
  rw [List.map_map]
  rfl

theorem isVersion_null : IsVersion (.null : Node) :=
  ⟨⟨Or.inl .null, .nil⟩, fun _ he => nomatch he⟩

/-! ## Calls -/

/-- A map that has the values of a batch, and under other keys those of a version. -/
theorem inserted_of_value (h : IsVersion t) (hv : IsPacMap entry blockSize v)
    (hval : ∀ k, (∃ p, (k, p) ∈ toEntries P ∧ v.value k = some p) ∨
      (k ∉ (toEntries P).map Prod.fst ∧ v.value k = t.value k)) :
    IsVersion v ∧ Inserted (treeValues t) P (treeValues v) := by
  rw [map_fst_toEntries] at hval
  have hversion : IsVersion v := by
    refine ⟨hv, fun e he => ?_⟩
    have hvalue := (Cpam.mem_entries_iff hv.sorted).mp he
    rcases hval e.1 with ⟨p, hp, hvp⟩ | ⟨-, hvp⟩
    · rw [hvalue] at hvp
      rw [Option.some.inj hvp]
      exact (keyed_toEntries hp).1
    · exact h.keyed e ((Cpam.mem_entries_iff h.isPacMap.sorted).mpr (hvp ▸ hvalue))
  refine ⟨hversion, hversion.sorted, fun p hp => ?_, fun p hp => ?_, fun p hp hno => ?_⟩
  · have hvalue := hversion.mem_iff.mp hp
    rcases hval p.key with ⟨q, hq, hvq⟩ | ⟨hno, hvp⟩
    · rw [hvalue] at hvq
      exact Or.inl (Option.some.inj hvq ▸ (keyed_toEntries hq).2)
    · exact Or.inr ⟨h.mem_iff.mpr (hvp ▸ hvalue), hno⟩
  · rw [hversion.map_key, ← Cpam.lookup_map_isSome]
    rcases hval p.key with ⟨q, -, hvq⟩ | ⟨hno, -⟩
    · rw [hvq]
      rfl
    · exact absurd (List.mem_map_of_mem hp) hno
  · rcases hval p.key with ⟨q, hq, -⟩ | ⟨-, hvp⟩
    · refine absurd ?_ hno
      have hkey : p.key = q.key := (keyed_toEntries hq).1
      rw [hkey]
      exact List.mem_map_of_mem (keyed_toEntries hq).2
    · exact hversion.mem_iff.mpr (hvp.trans (h.mem_iff.mp hp))

theorem blockSize_gt : 1 < blockSize := by decide

section Calls

variable (hsort : SortsByKey sampleSort)

include hsort

theorem mapInit_spec (P : List Point) : ∃ v, mapInit sampleSort P = some v ∧ IsVersion v ∧
    Inserted [] P (treeValues v) := by
  obtain ⟨v, hv, hp, hval⟩ : ∃ v, mapInit sampleSort P = some v ∧ IsPacMap entry blockSize v ∧ _ :=
    Cpam.mapOf_spec blockSize_gt hsort (toEntries P)
  exact ⟨v, hv, inserted_of_value isVersion_null hp hval⟩

theorem mapInsert_spec (h : IsVersion t) (P : List Point) :
    ∃ v, mapInsert sampleSort P t = some v ∧ IsVersion v ∧
      Inserted (treeValues t) P (treeValues v) := by
  obtain ⟨v, hv, hp, hval⟩ := Cpam.multiInsert_spec blockSize_gt hsort h.isPacMap (toEntries P)
  exact ⟨v, hv, inserted_of_value h hp hval⟩

theorem mapDelete_spec (h : IsVersion t) (P : List Point) :
    ∃ v, mapDelete sampleSort P t = some v ∧ IsVersion v ∧
      treeValues v = minus (treeValues t) (withCodes P) := by
  obtain ⟨v, hv, hp, hes⟩ := Cpam.multiDelete_spec blockSize_gt hsort h.isPacMap (toEntries P)
  refine ⟨v, hv, h.of_entries hp fun e he => ?_, treeValues_filter h (map_fst_toEntries P) hes⟩
  rw [hes] at he
  exact (List.mem_filter.mp he).1

theorem mapCommit_spec (h : IsVersion t) (PInsert PDelete : List Point) :
    ∃ v, mapCommit sampleSort t PInsert PDelete = some v ∧ IsVersion v ∧
      Inserted (minus (treeValues t) (withCodes PDelete)) PInsert (treeValues v) := by
  obtain ⟨t', ht', hversion, hvalues⟩ := mapDelete_spec hsort h PDelete
  obtain ⟨v, hv, hv', hins⟩ := mapInsert_spec hsort hversion PInsert
  rw [hvalues] at hins
  exact ⟨v, by rw [mapCommit, ht', Option.bind_some, hv], hv', hins⟩

omit hsort in
theorem mapDifference_spec (h1 : IsVersion t1) (h2 : IsVersion t2) :
    ∃ v, Cpam.mapDifference entry blockSize t1 t2 = some v ∧ IsVersion v ∧
      treeValues v = minus (treeValues t1) (treeValues t2) := by
  obtain ⟨v, hv, hp, hes⟩ := Cpam.mapDifference_spec blockSize_gt h1.isPacMap h2.isPacMap
  refine ⟨v, hv, h1.of_entries hp fun e he => ?_, treeValues_filter h1 h2.map_key.symm hes⟩
  rw [hes] at he
  exact (List.mem_filter.mp he).1

omit hsort in
theorem mapDiff_spec (h1 : IsVersion t1) (h2 : IsVersion t2) : mapDiff t1 t2 =
    some (minus (treeValues t2) (treeValues t1), minus (treeValues t1) (treeValues t2)) := by
  obtain ⟨add, hadd, -, hvalues⟩ := mapDifference_spec h2 h1
  obtain ⟨remove, hremove, -, hvalues'⟩ := mapDifference_spec h1 h2
  rw [mapDiff, hadd, Option.bind_some, hremove, Option.map_some, hvalues, hvalues']

theorem mapMerge_spec (h : IsVersion t) (h1 : IsVersion t1) (h2 : IsVersion t2) :
    ∃ r, mapMerge sampleSort t t1 t2 = some r ∧ IsVersion r.newVer ∧
      let res := resolveVersions (treeValues t) (treeValues t1) (treeValues t2)
      Inserted (minus (treeValues t) (withCodes res.delete)) res.insert (treeValues r.newVer) ∧
        r.conflictInsert = res.conflictInsert ∧ r.conflictUpdate = res.conflictUpdate ∧
          r.conflictDelete = res.conflictDelete := by
  obtain ⟨v, hv, hversion, hins⟩ := mapCommit_spec hsort h
    (resolveVersions (treeValues t) (treeValues t1) (treeValues t2)).insert
    (resolveVersions (treeValues t) (treeValues t1) (treeValues t2)).delete
  refine ⟨⟨v, _, _, _⟩, ?_, hversion, hins, rfl, rfl, rfl⟩
  rw [mapMerge, mapDiff_spec h h1, mapDiff_spec h h2]
  exact congrArg (Option.map _) hv

/-! ## Runs -/

omit hsort in
/-- A version that a call names. -/
theorem exists_version {vs : List Node} (hvs : ∀ v ∈ vs, IsVersion v) {i : ℕ} (hi : i < vs.length) :
    ∃ t, vs[i]? = some t ∧ IsVersion t ∧ version (vs.map treeValues) i = treeValues t := by
  refine ⟨vs[i], List.getElem?_eq_getElem hi, hvs _ (List.getElem_mem hi), ?_⟩
  rw [version, List.getD_eq_getElem?_getD, List.getElem?_map, List.getElem?_eq_getElem hi]
  rfl

theorem exec_spec {vs : List Node} (hvs : ∀ v ∈ vs, IsVersion v) {c : Call}
    (hin : c.InRange vs.length) : ∃ v, c.exec sampleSort vs = some v ∧ IsVersion v ∧
      c.Allows (version (vs.map treeValues)) (treeValues v) := by
  cases c with
  | mapInit P => exact mapInit_spec hsort P
  | mapInsert m P =>
    obtain ⟨t, ht, hversion, hvalues⟩ := exists_version hvs hin
    obtain ⟨v, hv, hversion', hins⟩ := mapInsert_spec hsort hversion P
    refine ⟨v, by rw [Call.exec, ht, Option.bind_some, hv], hversion', ?_⟩
    show Inserted (version _ m) P _
    rwa [hvalues]
  | mapDelete m P =>
    obtain ⟨t, ht, hversion, hvalues⟩ := exists_version hvs hin
    obtain ⟨v, hv, hversion', hdel⟩ := mapDelete_spec hsort hversion P
    refine ⟨v, by rw [Call.exec, ht, Option.bind_some, hv], hversion', ?_⟩
    show treeValues v = minus (version _ m) _
    rwa [hvalues]
  | mapCommit m PInsert PDelete =>
    obtain ⟨t, ht, hversion, hvalues⟩ := exists_version hvs hin
    obtain ⟨v, hv, hversion', hins⟩ := mapCommit_spec hsort hversion PInsert PDelete
    refine ⟨v, by rw [Call.exec, ht, Option.bind_some, hv], hversion', ?_⟩
    show Inserted (minus (version _ m) _) PInsert _
    rwa [hvalues]
  | mapMerge base v1 v2 =>
    obtain ⟨t, ht, hversion, hvalues⟩ := exists_version hvs hin.1
    obtain ⟨t1, ht1, hversion1, hvalues1⟩ := exists_version hvs hin.2.1
    obtain ⟨t2, ht2, hversion2, hvalues2⟩ := exists_version hvs hin.2.2
    obtain ⟨r, hr, hv, hins, -⟩ := mapMerge_spec hsort hversion hversion1 hversion2
    refine ⟨r.newVer, by simp only [Call.exec, ht, ht1, ht2, Option.bind_some, hr, Option.map_some],
      hv, ?_⟩
    simp only [Call.Allows, hvalues, hvalues1, hvalues2]
    exact hins

/-- A whole run: no call fails, every version, old and new, is one on which all queries are exact, and the
versions are a run on lists of points. -/
theorem run_spec {cs : List Call} {vs : List Node} (hvs : ∀ v ∈ vs, IsVersion v)
    (hin : Call.InRangeRun vs.length cs) :
    ∃ vs', Call.run sampleSort cs vs = some vs' ∧ (∀ v ∈ vs', IsVersion v) ∧
      AllowsRun cs (vs.map treeValues) (vs'.map treeValues) := by
  induction cs generalizing vs with
  | nil => exact ⟨vs, rfl, hvs, .nil _⟩
  | cons c cs ih =>
    obtain ⟨v, hv, hversion, hallows⟩ := exec_spec hsort hvs hin.1
    have hvs' : ∀ u ∈ vs ++ [v], IsVersion u := fun u hu => by
      rcases List.mem_append.mp hu with hu | hu
      · exact hvs u hu
      · exact List.mem_singleton.mp hu ▸ hversion
    obtain ⟨vs', hrun, hall, htail⟩ := ih hvs' (by rw [List.length_append]; exact hin.2)
    refine ⟨vs', by rw [Call.run, hv, Option.bind_some, hrun], hall, .cons hallows ?_⟩
    rwa [List.map_append] at htail

end Calls

/-! ## Differences inside a query box -/

theorem difference_spec (h1 : IsVersion t1) (h2 : IsVersion t2) : IsVersion (difference t1 t2) ∧
    treeValues (difference t1 t2) = minus (treeValues t1) (treeValues t2) := by
  obtain ⟨v, hv, hversion, hvalues⟩ := mapDifference_spec h1 h2
  rw [difference, hv]
  exact ⟨hversion, hvalues⟩

/-- `filter_range` with the joins of the library makes a version again. -/
theorem filterRange_spec (h : IsVersion t) (queryMbr : BoundingBox) :
    IsVersion (filterRange (Cpam.pacJoins entry blockSize) t queryMbr) ∧
      treeValues (filterRange (Cpam.pacJoins entry blockSize) t queryMbr) =
        (treeValues t).filter fun p => pointInMbr p queryMbr := by
  obtain ⟨hpac, hentries⟩ : PaC entry blockSize (filterRange (Cpam.pacJoins entry blockSize) t queryMbr) ∧
      (filterRange (Cpam.pacJoins entry blockSize) t queryMbr).entries =
        t.entries.filter fun e => pointInMbr e.2 queryMbr :=
    Cpam.augFilter2_spec blockSize_gt combine_assoc (fun es _ hbb e he =>
      not_pointInMbr_of_exclude (by simpa using hbb) (pointInMbr_encode he)) h.isPacMap.valid
  have hversion : IsVersion (filterRange (Cpam.pacJoins entry blockSize) t queryMbr) := by
    refine h.of_entries ⟨hpac.valid, ?_⟩ fun e he => ?_
    · rw [hentries]
      exact h.isPacMap.sorted.filter _
    · rw [hentries] at he
      exact (List.mem_filter.mp he).1
  refine ⟨hversion, ?_⟩
  unfold treeValues
  rw [List.filter_map]
  exact congrArg _ hentries

/-- Whether a difference inside a query box is computed by filtering both versions or by merging two
reports, it is the list, in key order, of the points inside the box on one side whose key is not inside
it on the other side. -/
theorem index_spatial_diff_exact (hl : IsVersion lhs) (hr : IsVersion rhs) (query : BoundingBox)
    (retDiff : DiffType) (lPts rPts : List Point) (hadd : retDiff.addCnt = 0)
    (hremove : retDiff.removeCnt = 0)
    (hroom : (pointsIn query lhs.entries).length ≤ lPts.length ∧
      (pointsIn query lhs.entries).length ≤ retDiff.remove.length ∧
      (pointsIn query rhs.entries).length ≤ rPts.length ∧
      (pointsIn query rhs.entries).length ≤ retDiff.add.length) :
    let diff := mapSpatialDiff lhs rhs query
    let plain := plainMapSpatialDiff lhs rhs query retDiff lPts rPts
    diff.add = minus (pointsIn query rhs.entries) (pointsIn query lhs.entries) ∧
      diff.remove = minus (pointsIn query lhs.entries) (pointsIn query rhs.entries) ∧
      diff.addCnt = diff.add.length ∧ diff.removeCnt = diff.remove.length ∧
      plain.add.take plain.addCnt = diff.add ∧ plain.remove.take plain.removeCnt = diff.remove := by
  intro diff plain
  obtain ⟨hfl, hvl⟩ := filterRange_spec hl query
  obtain ⟨hfr, hvr⟩ := filterRange_spec hr query
  have hda : diff.add = minus (pointsIn query rhs.entries) (pointsIn query lhs.entries) := by
    have := (difference_spec hfr hfl).2
    rwa [hvl, hvr] at this
  have hdr : diff.remove = minus (pointsIn query lhs.entries) (pointsIn query rhs.entries) := by
    have := (difference_spec hfl hfr).2
    rwa [hvl, hvr] at this
  have hplain : plain = retDiff.write diff.add diff.remove := by
    show mergePtsInto ((rangeReport lhs query lPts).2.takeD (rangeReport lhs query lPts).1 default)
      ((rangeReport rhs query rPts).2.takeD (rangeReport rhs query rPts).1 default) _ retDiff false = _
    rw [hl.isMap.takeD_rangeReport hroom.1, hr.isMap.takeD_rangeReport hroom.2.2.1, mergePtsInto_eq,
      if_neg Bool.false_ne_true, addsOf_eq_removesOf, hr.isMap.removesOf_pointsIn hl.isMap,
      hl.isMap.removesOf_pointsIn hr.isMap, hda, hdr]
    simp [minus]
  have hlenA : diff.add.length ≤ retDiff.add.length := by
    rw [hda]
    exact (List.length_filter_le _ _).trans hroom.2.2.2
  have hlenR : diff.remove.length ≤ retDiff.remove.length := by
    rw [hdr]
    exact (List.length_filter_le _ _).trans hroom.2.1
  refine ⟨hda, hdr, rfl, rfl, ?_, ?_⟩
  · rw [hplain, DiffType.write, hadd]
    exact @Buffer.take_write _ retDiff.add 0 diff.add (by rwa [Nat.zero_add])
  · rw [hplain, DiffType.write, hremove]
    exact @Buffer.take_write _ retDiff.remove 0 diff.remove (by rwa [Nat.zero_add])

theorem isVersion_block {es : List (KeyType × Point)} (hne : es ≠ []) (hlen : es.length < blockSize)
    (hs : es.Pairwise (·.1 < ·.1)) (hkeyed : ∀ e ∈ es, e.1 = e.2.key) :
    IsVersion (Cpam.makeSingleCompressedNode entry es) :=
  ⟨⟨.inr ⟨rfl, es, hne, hlen, rfl⟩, hs⟩, hkeyed⟩

/-- One shared point, and one that only the second version has. -/
theorem index_spatial_diff_exact_two :
    let e : KeyType × Point := (toLex (0, 1), ⟨1, 0, 0, 0⟩)
    let e' : KeyType × Point := (toLex (3, 7), ⟨7, 1, 1, 3⟩)
    let lhs : Node := Cpam.makeSingleCompressedNode entry [e]
    let rhs : Node := Cpam.makeSingleCompressedNode entry [e, e']
    let query : BoundingBox := ⟨.ofXY 0 0, .ofXY 1 1⟩
    (mapSpatialDiff lhs rhs query).add =
      minus (pointsIn query rhs.entries) (pointsIn query lhs.entries) := by
  intro e e' lhs rhs query
  have hlhs : IsVersion lhs := isVersion_block (by decide) (by decide) (by decide) (by decide)
  have hrhs : IsVersion rhs := isVersion_block (by decide) (by decide) (by decide) (by decide)
  have hpointsL : pointsIn query lhs.entries = [⟨1, 0, 0, 0⟩] := by decide +kernel
  have hpointsR : pointsIn query rhs.entries = [⟨1, 0, 0, 0⟩, ⟨7, 1, 1, 3⟩] := by decide +kernel
  exact (index_spatial_diff_exact hlhs hrhs query (.ofSize 2 2) [default, default] [default, default]
    rfl rfl (by rw [hpointsL, hpointsR]; decide)).1

/-! ## Whole runs -/

theorem coded_withCodes {p : Point} (hp : p ∈ withCodes P) : p.Coded := by
  obtain ⟨q, -, rfl⟩ := List.mem_map.mp hp
  rfl

theorem Inserted.coded (h : Inserted C P s) (hC : ∀ p ∈ C, p.Coded) : ∀ p ∈ s, p.Coded := fun p hp =>
  (h.of_mem p hp).elim coded_withCodes fun hmem => hC p hmem.1

/-- The points of all versions of a run carry their codes. -/
theorem AllowsRun.coded {cs : List Call} {ss ss' : List (List Point)} (h : AllowsRun cs ss ss')
    (hss : ∀ s ∈ ss, ∀ p ∈ s, p.Coded) : ∀ s ∈ ss', ∀ p ∈ s, p.Coded := by
  induction h with
  | nil ss => exact hss
  | @cons c cs ss ss' s head tail ih =>
    refine ih fun u hu => ?_
    rcases List.mem_append.mp hu with hu | hu
    · exact hss u hu
    · obtain rfl := List.mem_singleton.mp hu
      have hversion : ∀ i, ∀ p ∈ version ss i, p.Coded := fun i p hp => by
        rw [version, List.getD_eq_getElem?_getD] at hp
        cases hi : ss[i]? with
        | none => rw [hi] at hp; exact absurd hp List.not_mem_nil
        | some u => rw [hi] at hp; exact hss u (List.mem_of_getElem? hi) p hp
      have hminus : ∀ i D, ∀ p ∈ minus (version ss i) D, p.Coded := fun i D p hp =>
        hversion i p (List.mem_filter.mp hp).1
      cases c with
      | mapInit P => exact Inserted.coded head fun p hp => absurd hp List.not_mem_nil
      | mapInsert m P => exact Inserted.coded head (hversion m)
      | mapDelete m P =>
        intro p hp
        rw [show u = minus (version ss m) (withCodes P) from head] at hp
        exact hminus m _ p hp
      | mapCommit m PInsert PDelete => exact Inserted.coded head (hminus m _)
      | mapMerge base v1 v2 => exact Inserted.coded head (hminus base _)

theorem mem_minus {D : List Point} {p : Point} :
    p ∈ minus C D ↔ p ∈ C ∧ p.key ∉ D.map Point.key := by
  rw [minus, List.mem_filter, decide_eq_true_iff]

theorem IsVersion.eq_of_key (h : IsVersion t) {p q : Point} (hp : p ∈ treeValues t)
    (hq : q ∈ treeValues t) (hkey : p.key = q.key) : p = q := by
  rw [h.mem_iff] at hp hq
  rw [hkey, hq] at hp
  exact (Option.some.inj hp).symm

/-- What a commit of a difference leaves: the new points of the second version, and those of the first one
under the keys of both. -/
theorem mem_of_inserted_diff (h2 : IsVersion t2) (hins : Inserted
      (minus (treeValues t1) (minus (treeValues t1) (treeValues t2)))
      (minus (treeValues t2) (treeValues t1)) s)
    (hcodes : withCodes (minus (treeValues t2) (treeValues t1)) = minus (treeValues t2) (treeValues t1))
    {p : Point} : p ∈ s ↔ (p ∈ treeValues t2 ∧ p.key ∉ (treeValues t1).map Point.key) ∨
      (p ∈ treeValues t1 ∧ p.key ∈ (treeValues t2).map Point.key) := by
  have hkept : ∀ p ∈ treeValues t1, p ∈ minus (treeValues t1) (minus (treeValues t1) (treeValues t2)) ↔
      p.key ∈ (treeValues t2).map Point.key := by
    intro p hp
    rw [mem_minus, and_iff_right hp]
    constructor
    · intro hno
      by_contra hk
      exact hno (List.mem_map_of_mem (mem_minus.mpr ⟨hp, hk⟩))
    · intro hk hmem
      obtain ⟨q, hq, hqk⟩ := List.mem_map.mp hmem
      exact (mem_minus.mp hq).2 (hqk ▸ hk)
  constructor
  · intro hp
    rcases hins.of_mem p hp with hnew | ⟨hold, -⟩
    · rw [hcodes] at hnew
      exact Or.inl (mem_minus.mp hnew)
    · have hp1 := (mem_minus.mp hold).1
      exact Or.inr ⟨hp1, (hkept p hp1).mp hold⟩
  · rintro (⟨hp2, hno⟩ | ⟨hp1, hk⟩)
    · obtain ⟨q, hq, hqk⟩ := List.mem_map.mp
        (hins.key_mem p (by rw [hcodes]; exact mem_minus.mpr ⟨hp2, hno⟩))
      rcases hins.of_mem q hq with hnew | ⟨hold, -⟩
      · rw [hcodes] at hnew
        rwa [h2.eq_of_key hp2 (mem_minus.mp hnew).1 hqk.symm]
      · exact absurd (hqk ▸ List.mem_map_of_mem (mem_minus.mp hold).1) hno
    · refine hins.mem p ((hkept p hp1).mpr hk) fun hmem => ?_
      rw [hcodes] at hmem
      obtain ⟨q, hq, hqk⟩ := List.mem_map.mp hmem
      exact (mem_minus.mp hq).2 (hqk ▸ List.mem_map_of_mem hp1)

/-- The difference of two versions, committed to the first one, gives the keys of the second one, and its
points unless a key has stayed and its point has changed. -/
theorem index_diff_replays (hsort : SortsByKey sampleSort) {cs : List Call}
    (hin : Call.InRangeRun 0 cs) :
    ∃ vs, Call.run sampleSort cs [] = some vs ∧ ∀ lhs ∈ vs, ∀ rhs ∈ vs, ∃ add remove v,
      mapDiff lhs rhs = some (add, remove) ∧ mapCommit sampleSort lhs add remove = some v ∧
      (treeValues v).map Point.key = (treeValues rhs).map Point.key ∧
      (treeValues v = treeValues rhs ↔
        ∀ p ∈ treeValues lhs, ∀ q ∈ treeValues rhs, p.key = q.key → p = q) := by
  obtain ⟨vs, hrun, hvs, hallows⟩ := run_spec hsort (fun v (hv : v ∈ []) => absurd hv List.not_mem_nil) hin
  refine ⟨vs, hrun, fun lhs hl rhs hr => ?_⟩
  have hcoded : ∀ v ∈ vs, ∀ p ∈ treeValues v, p.Coded := fun v hv =>
    hallows.coded (fun s hs => absurd hs List.not_mem_nil) _ (List.mem_map_of_mem hv)
  obtain ⟨v, hv, hversion, hins⟩ := mapCommit_spec hsort (hvs lhs hl)
    (minus (treeValues rhs) (treeValues lhs)) (minus (treeValues lhs) (treeValues rhs))
  have hself : ∀ a ∈ vs, ∀ D, withCodes (minus (treeValues a) D) = minus (treeValues a) D :=
    fun a ha D => map_code_eq_self fun p hp => hcoded a ha p (List.mem_filter.mp hp).1
  rw [hself lhs hl] at hins
  have hmem := fun p => mem_of_inserted_diff (p := p) (hvs rhs hr) hins (hself rhs hr _)
  refine ⟨_, _, v, mapDiff_spec (hvs lhs hl) (hvs rhs hr), hv, ?_, ?_⟩
  · refine (List.pairwise_map.mpr hversion.sorted).eq_of_mem_iff
      (List.pairwise_map.mpr (hvs rhs hr).sorted) fun k => ?_
    constructor
    · intro hk
      obtain ⟨p, hp, rfl⟩ := List.mem_map.mp hk
      exact ((hmem p).mp hp).elim (fun h => List.mem_map_of_mem h.1) fun h => h.2
    · intro hk
      by_cases hold : k ∈ (treeValues lhs).map Point.key
      · obtain ⟨p, hp, rfl⟩ := List.mem_map.mp hold
        exact List.mem_map_of_mem ((hmem p).mpr (Or.inr ⟨hp, hk⟩))
      · obtain ⟨p, hp, rfl⟩ := List.mem_map.mp hk
        exact List.mem_map_of_mem ((hmem p).mpr (Or.inl ⟨hp, hold⟩))
  · constructor
    · intro heq p hp q hq hkey
      have hpv := (hmem p).mpr (Or.inr ⟨hp, hkey ▸ List.mem_map_of_mem hq⟩)
      rw [heq] at hpv
      exact (hvs rhs hr).eq_of_key hpv hq hkey
    · intro hsame
      refine hversion.sorted.eq_of_mem_iff (hvs rhs hr).sorted fun p => ?_
      rw [hmem p]
      constructor
      · rintro (⟨hp, -⟩ | ⟨hp, hk⟩)
        · exact hp
        · obtain ⟨q, hq, hqk⟩ := List.mem_map.mp hk
          rwa [hsame p hp q hq hqk.symm]
      · intro hp
        by_cases hold : p.key ∈ (treeValues lhs).map Point.key
        · obtain ⟨q, hq, hqk⟩ := List.mem_map.mp hold
          obtain rfl := hsame q hq p hp hqk
          exact Or.inr ⟨hq, List.mem_map_of_mem hp⟩
        · exact Or.inl ⟨hp, hold⟩

theorem index_diff_replays_two :
    let cs : List Call :=
      [.mapInit [⟨1, 0, 0, 0⟩, ⟨7, 1, 1, 0⟩], .mapCommit 0 [⟨9, 2, 2, 0⟩] [⟨1, 0, 0, 0⟩]]
    ∃ vs, Call.run Cpam.sortByKey cs [] = some vs ∧ ∀ lhs ∈ vs, ∀ rhs ∈ vs, ∃ add remove v,
      mapDiff lhs rhs = some (add, remove) ∧ mapCommit Cpam.sortByKey lhs add remove = some v ∧
      (treeValues v).map Point.key = (treeValues rhs).map Point.key ∧
      (treeValues v = treeValues rhs ↔
        ∀ p ∈ treeValues lhs, ∀ q ∈ treeValues rhs, p.key = q.key → p = q) :=
  index_diff_replays Cpam.sortsByKey_sortByKey ⟨trivial, (by decide : 0 < 1), trivial⟩
end Index

end PACZ

end Silva
