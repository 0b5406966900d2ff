import Silva.Pkdlog.Version
import Silva.Rlog.Proofs.ViewProofs

/-!
# Proofs: what a kd-tree base loses

The identifier of a point of the tree is an `int`, so only some identifiers come back as they went in.
Compaction copies the pending inserts into its buffer and not the points that it keeps of the base.
-/

namespace Silva

namespace PKDLog

open Rlog (Value VersionNode QueryView Logs)
open DeltaLog (Delta deletedKeys inserts)

variable {T : Type*} {kd : KdTree T} {v : VersionNode T} {base : T} {log : List (Delta Value)}

/-! ## Identifiers -/

/-- The identifiers that an `int` keeps: those of its non-negative numbers, and those that are its
negative ones as `size_t`. -/
def FitsInt (id : ℕ) : Prop := id < 2 ^ 31 ∨ (2 ^ 64 - 2 ^ 31 ≤ id ∧ id < 2 ^ 64)

instance (id : ℕ) : Decidable (FitsInt id) := inferInstanceAs (Decidable (_ ∨ _))

theorem ofIdType_toIdType_iff (id : ℕ) : ofIdType (toIdType id) = id ↔ FitsInt id := by
  unfold ofIdType toIdType FitsInt
  rw [BitVec.toNat_signExtend, BitVec.msb_eq_decide, BitVec.toNat_setWidth, BitVec.toNat_ofNat]
  simp only [decide_eq_true_eq]
  split <;> omega

theorem toIdType_ofIdType (a : IdType) : toIdType (ofIdType a) = a := by
  unfold ofIdType toIdType
  apply BitVec.eq_of_toNat_eq
  have := a.isLt
  rw [BitVec.toNat_ofNat, BitVec.toNat_signExtend, BitVec.toNat_setWidth]
  split <;> omega

theorem fitsInt_ofIdType (a : IdType) : FitsInt (ofIdType a) := by
  rw [← ofIdType_toIdType_iff, toIdType_ofIdType]

/-- What becomes of a value that is stored in the tree. -/
theorem toValue_ofValue (w : Value) :
    (PointT.ofValue w).toValue = { w with id := ofIdType (toIdType w.id) } := rfl

theorem toValue_ofValue_eq_iff (w : Value) : (PointT.ofValue w).toValue = w ↔ FitsInt w.id := by
  rw [← ofIdType_toIdType_iff, toValue_ofValue]
  constructor
  · intro h
    exact congrArg Value.id h
  · intro h
    rw [h]

/-! ## Compaction -/

/-- A kd-tree library whose trees are the lists of their points. -/
def listTree : KdTree (List PointT) where
  build ps := ps
  flatten ps := ps
  empty ps := ps.isEmpty
  rangeQuery ps box := ps.filter (·.inBox box)

theorem listTree_faithful : listTree.Faithful where
  flatten _ := List.Perm.refl _
  empty _ := rfl
  rangeQuery _ _ := List.Perm.refl _

/-- Deletions that fire no compaction extend the log. -/
theorem deleteAll_logs (kd : KdTree T) (memory : ℕ → PointT) {baseSize : ℕ}
    (calls : List (List Value × FT)) : ∀ {v : VersionNode T} {log : List (Delta Value)},
      Logs v base log → v.currentBaseSize = baseSize →
      Quiet baseSize v.cumulativeLogSize calls →
      ∃ node, deleteAll kd memory calls v = some node ∧
        Logs node base (log ++ calls.map fun call => .delete call.1) := by
  induction calls with
  | nil =>
    intro v log h _ _
    exact ⟨v, rfl, by simpa using h⟩
  | cons call calls ih =>
    intro v log h hbase hquiet
    obtain ⟨deletePts, p⟩ := call
    obtain ⟨hp, hquiet⟩ := hquiet
    cases v with
    | nullptr => cases h
    | node parent depth ins rem cached logSize size =>
      obtain rfl : size = baseSize := hbase
      have hnext := h.deleteNode deletePts
      have hstep : mapDelete kd memory (.node parent depth ins rem cached logSize size) deletePts p =
          some (Rlog.deleteNode (.node parent depth ins rem cached logSize size) deletePts) :=
        if_neg hp
      obtain ⟨node, hrun, hlogs⟩ := ih hnext rfl hquiet
      refine ⟨node, ?_, ?_⟩
      · rw [deleteAll, hstep]
        exact hrun
      · rwa [List.append_assoc] at hlogs

theorem deletedKeys_calls (calls : List (List Value × FT)) :
    deletedKeys Value.id (calls.map fun call => Delta.delete call.1) = deletedIds calls := by
  unfold deletedKeys deletedIds
  rw [List.flatMap_map]

theorem inserts_calls (calls : List (List Value × FT)) :
    inserts (calls.map fun call => Delta.delete call.1) = [] := by
  unfold inserts
  rw [List.flatMap_map]
  simp

/-- The report of a version with a base and deletions since then. -/
theorem rangeReport_deleted (hk : kd.Faithful) (PBase : List Value) {node : VersionNode T}
    {calls : List (List Value × FT)}
    (h : Logs node (kd.build (PBase.map .ofValue)) (calls.map fun call => .delete call.1))
    {q : BoundingBox} (hq : ∀ w ∈ PBase, intersects w q = true) :
    (rangeReport kd node q).Perm
      ((PBase.filter fun w => ofIdType (toIdType w.id) ∉ deletedIds calls).map fun w =>
        (PointT.ofValue w).toValue) := by
  have hview : getQueryView node =
      ⟨some (kd.build (PBase.map .ofValue)), (deletedIds calls).toFinset, []⟩ := by
    unfold getQueryView
    rw [h.getQueryView, deletedKeys_calls, inserts_calls]
    rfl
  have hall : (PBase.map PointT.ofValue).filter (·.inBox q) = PBase.map PointT.ofValue := by
    refine List.filter_eq_self.mpr fun pt hpt => ?_
    obtain ⟨w, hw, rfl⟩ := List.mem_map.mp hpt
    exact hq w hw
  have hquery := hk.rangeQuery (PBase.map PointT.ofValue) q
  rw [hall] at hquery
  have hreport : (rangeReport kd node q) =
      ((kd.rangeQuery (kd.build (PBase.map .ofValue)) q).filter
        (isAlive (deletedIds calls).toFinset)).map PointT.toValue := by
    unfold rangeReport
    simp only [hview, hk.empty, List.filter_nil, List.append_nil]
    cases PBase with
    | nil => simp [show kd.rangeQuery (kd.build []) q = [] from hquery.eq_nil]
    | cons w ws => rfl
  rw [hreport]
  refine ((hquery.filter _).map _).trans (List.Perm.of_eq ?_)
  rw [List.filter_map, List.map_map]
  refine congrArg _ (List.filter_congr fun w _ => ?_)
  simp [isAlive, PointT.ofValue]

/-- The identifiers of the base come back from a report over all points exactly when the tree keeps
each of them, or both it and what the tree makes of it are deleted. -/
theorem range_report_ids_iff (hk : kd.Faithful) (memory : ℕ → PointT) (PBase : List Value)
    (calls : List (List Value × FT)) (hquiet : Quiet PBase.length 0 calls) {q : BoundingBox}
    (hq : ∀ w ∈ PBase, intersects w q = true) :
    ∃ node, deleteAll kd memory calls (mapInit kd PBase) = some node ∧
      ((rangeReport kd node q).Perm (PBase.filter fun w => w.id ∉ deletedIds calls) ↔
        ∀ w ∈ PBase, FitsInt w.id ∨
          (w.id ∈ deletedIds calls ∧ ofIdType (toIdType w.id) ∈ deletedIds calls)) := by
  have hinit : Logs (mapInit kd PBase) (kd.build (PBase.map .ofValue)) [] := .base ..
  obtain ⟨node, hrun, hlogs⟩ := deleteAll_logs kd memory calls hinit rfl hquiet
  refine ⟨node, hrun, ?_⟩
  have hreport := rangeReport_deleted hk PBase hlogs hq
  generalize deletedIds calls = D at hreport ⊢
  constructor
  · intro hperm
    have hAB := hreport.symm.trans hperm
    -- what is reported has come out of the tree
    have hfits : ∀ w ∈ PBase, w.id ∉ D → FitsInt w.id := by
      intro w hw hD
      have hmem := hAB.mem_iff.mpr (List.mem_filter.mpr ⟨hw, by simpa using hD⟩)
      obtain ⟨w', -, rfl⟩ := List.mem_map.mp hmem
      exact fitsInt_ofIdType _
    intro w hw
    by_contra hno
    push Not at hno
    obtain ⟨hw1, hw2⟩ := hno
    have hD : w.id ∈ D := by
      by_contra hD
      exact hw1 (hfits w hw hD)
    -- so everything that is reported was to be, and the report has this point in addition
    have hsub : (PBase.filter fun w => w.id ∉ D) =
        (PBase.filter fun w => ofIdType (toIdType w.id) ∉ D).filter fun w => w.id ∉ D := by
      rw [List.filter_filter]
      refine List.filter_congr fun w' hw' => ?_
      by_cases hD' : w'.id ∈ D
      · simp [hD']
      · simp [hD', (ofIdType_toIdType_iff _).mpr (hfits w' hw' hD')]
    have hlen := hAB.length_eq
    rw [List.length_map, hsub] at hlen
    have hall := List.length_filter_eq_length_iff.mp hlen.symm w
      (List.mem_filter.mpr ⟨hw, by simpa using hw2 hD⟩)
    exact absurd hD (by simpa using hall)
  · intro hids
    refine hreport.trans (List.Perm.of_eq ?_)
    have hfilter : (PBase.filter fun w => ofIdType (toIdType w.id) ∉ D) =
        PBase.filter fun w => w.id ∉ D := by
      refine List.filter_congr fun w hw => decide_eq_decide.mpr ?_
      rcases hids w hw with h | ⟨h1, h2⟩
      · rw [(ofIdType_toIdType_iff _).mpr h]
      · simp [h1, h2]
    rw [hfilter]
    have hback : ∀ w ∈ PBase.filter fun w => w.id ∉ D, (PointT.ofValue w).toValue = w := by
      intro w hw
      obtain ⟨hw, hD⟩ := List.mem_filter.mp hw
      refine (toValue_ofValue_eq_iff w).mpr ((hids w hw).resolve_right fun h => ?_)
      exact (of_decide_eq_true hD) h.1
    exact (List.map_congr_left hback).trans (List.map_id _)

/-- Identifiers up to 31 bits and one that is as `size_t` what a negative `int` is, one of them
deleted. -/
theorem range_report_ids_iff_kept :
    let PBase : List Value := [⟨1, 1, 5⟩, ⟨2, 2, 2 ^ 31 - 1⟩, ⟨3, 3, 2 ^ 64 - 1⟩]
    let calls : List (List Value × FT) := [([⟨1, 1, 5⟩], 2)]
    ∃ node, deleteAll listTree default calls (mapInit listTree PBase) = some node ∧
      ((rangeReport listTree node ⟨.ofXY 0 0, .ofXY 4 4⟩).Perm
          (PBase.filter fun w => w.id ∉ deletedIds calls) ↔
        ∀ w ∈ PBase, FitsInt w.id ∨
          (w.id ∈ deletedIds calls ∧ ofIdType (toIdType w.id) ∈ deletedIds calls)) := by
  intro PBase calls
  exact range_report_ids_iff listTree_faithful default PBase calls
    ⟨by norm_num [fires, PBase], trivial⟩ (by decide +kernel)

/-- An identifier above 32 bits comes back without its upper half. -/
theorem large_id_truncated :
    rangeReport listTree (mapInit listTree [⟨1, 1, 2 ^ 32 + 5⟩]) ⟨.ofXY 0 0, .ofXY 4 4⟩ =
        [⟨1, 1, 5⟩] ∧
      ¬(rangeReport listTree (mapInit listTree [⟨1, 1, 2 ^ 32 + 5⟩]) ⟨.ofXY 0 0, .ofXY 4 4⟩).Perm
        [⟨1, 1, 2 ^ 32 + 5⟩] := by
  have hreport : rangeReport listTree (mapInit listTree [⟨1, 1, 2 ^ 32 + 5⟩])
      ⟨.ofXY 0 0, .ofXY 4 4⟩ = [⟨1, 1, 5⟩] := by decide +kernel
  refine ⟨hreport, fun hperm => ?_⟩
  rw [hreport, List.singleton_perm_singleton] at hperm
  exact absurd (congrArg Value.id hperm) (by norm_num)

end PKDLog

end Silva
