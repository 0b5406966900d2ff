import Silva.Mvq.Collect
import Silva.Mvq.Proofs.HistoryProofs

/-!
# Proofs: collecting records into a buffer

Every record gets its slot, in whatever order the assignments happen, since the offsets are sums of
exact counts. The counter of the caller only goes down the left sons.
-/

namespace Silva

open BaseNode
open Silva.Tree (collectRecordsOut rCnt)

variable {leafSize b c cnt cnt' : Nat} {t : BaseNode} {P : List Point} {ws : List (Nat × Point)}

/-- What is added to the counter: the calls on right sons count elsewhere. -/
def counted : BaseNode → Nat
  | nullptr => 0
  | leafNode records => records.length
  | inteNode lSon _ _ => counted lSon

/-! ## Slots -/

theorem WellFormed.rCnt_eq (h : WellFormed leafSize b c t P) (cnt : Nat) :
    rCnt t cnt = cnt + P.length := by
  unfold rCnt
  by_cases ht : t = nullptr
  · subst ht
    rw [if_neg (not_not_intro rfl), h.nullptr_iff, List.length_nil, Nat.add_zero]
  · rw [if_pos ht, h.getNumPoints]

/-- A run assigns each record to its own slot. -/
theorem WellFormed.collects_perm (h : WellFormed leafSize b c t P) : ∀ {cnt cnt' : Nat}
    {ws : List (Nat × Point)}, Collects t cnt ws cnt' → ws.Perm (Buffer.slots cnt P) := by
  induction h with
  | null b c =>
    intro cnt cnt' ws hrun
    cases hrun
    exact List.Perm.refl _
  | leaf cell fits =>
    intro cnt cnt' ws hrun
    cases hrun
    exact List.Perm.refl _
  | @inte b c l r A B left right hl hr large ihl ihr =>
    intro cnt cnt' ws hrun
    cases hrun with
    | inteNode hleft hright order =>
      have hrs := ihr hright
      rw [left.rCnt_eq] at hrs
      rw [Buffer.slots_append]
      exact order.perm.trans ((ihl hleft).append hrs)

/-- So does the run that finishes the left call first. -/
theorem WellFormed.collectRecordsOut (h : WellFormed leafSize b c t P) :
    ∀ (out : List Point) (cnt : Nat),
      Tree.collectRecordsOut t (out, cnt) = (Buffer.write out cnt P, cnt + counted t) := by
  induction h with
  | null b c => exact fun _ _ => rfl
  | leaf cell fits => exact fun _ _ => rfl
  | @inte b c l r A B left right hl hr large ihl ihr =>
    intro out cnt
    rw [Tree.collectRecordsOut, left.rCnt_eq, ihl]
    dsimp only
    rw [ihr, Buffer.write_append]
    rfl

/-! ## The counter -/

theorem Collects.counter (h : Collects t cnt ws cnt') : cnt' = cnt + counted t := by
  induction h with
  | nullptr cnt => rfl
  | leafNode records cnt => rfl
  | inteNode left right order numPts ihl ihr => exact ihl

theorem WellFormed.counted_le (h : WellFormed leafSize b c t P) : counted t ≤ P.length := by
  induction h with
  | null b c => exact le_rfl
  | leaf cell fits => exact le_rfl
  | @inte b c l r A B left right hl hr large ihl ihr =>
    rw [List.length_append]
    exact ihl.trans (Nat.le_add_right A.length B.length)

/-- All records are counted when there is no right son on the way. -/
theorem WellFormed.counted_eq_iff (h : WellFormed leafSize b c t P) :
    counted t = P.length ↔ LeftOnly t := by
  induction h with
  | null b c => exact iff_of_true rfl trivial
  | leaf cell fits => exact iff_of_true rfl trivial
  | @inte b c l r A B left right hl hr large ihl ihr =>
    have hle := left.counted_le
    rw [counted, LeftOnly, ← ihl, List.length_append]
    constructor
    · intro heq
      have hB : B.length = 0 := by omega
      exact ⟨hr (List.length_eq_zero_iff.mp hB), by omega⟩
    · rintro ⟨rfl, heq⟩
      rw [heq, right.nullptr_iff, List.length_nil, Nat.add_zero]

/-! ## Whole versions -/

theorem exists_collects (t : BaseNode) : ∀ cnt, ∃ ws cnt', Collects t cnt ws cnt' := by
  induction t with
  | nullptr => exact fun cnt => ⟨_, _, .nullptr cnt⟩
  | leafNode records => exact fun cnt => ⟨_, _, .leafNode records cnt⟩
  | inteNode lSon rSon numPts ihl ihr =>
    intro cnt
    obtain ⟨ls, lCnt, hleft⟩ := ihl cnt
    obtain ⟨rs, rCnt', hright⟩ := ihr (rCnt lSon cnt)
    exact ⟨_, _, .inteNode hleft hright (.append ls rs) numPts⟩

/-- Collecting the `n` records of a version from slot `cnt` on. There is a run, and all runs leave
the same buffer and counter. The slots `cnt, …, cnt + n - 1` then hold the records, the other ones
what they held before, and the counter is `cnt + n`, exactly when no node has a right son on the way
down to the left. -/
theorem collect_records_out_iff (ht : Version leafSize t) (out : List Point) (cnt : Nat)
    (hout : cnt + (Tree.collectRecords t).length ≤ out.length) :
    (∃ ws cnt', Collects t cnt ws cnt') ∧
      (∀ ws cnt', Collects t cnt ws cnt' →
        (Buffer.assign out ws, cnt') = collectRecordsOut t (out, cnt)) ∧
      (collectRecordsOut t (out, cnt) =
          (out.take cnt ++ Tree.collectRecords t ++
            out.drop (cnt + (Tree.collectRecords t).length),
            cnt + (Tree.collectRecords t).length) ↔ LeftOnly t) := by
  have hw := ht.isVersion
  rw [hw.collectRecordsOut, Buffer.write_eq hout]
  refine ⟨exists_collects t cnt, fun ws cnt' hrun => ?_, ?_⟩
  · rw [Buffer.assign_of_perm_slots (hw.collects_perm hrun), Buffer.write_eq hout, hrun.counter]
  · rw [← hw.counted_eq_iff, Prod.mk.injEq, Nat.add_left_cancel_iff]
    exact and_iff_right rfl

/-- Two records with one code, at the end of a chain of left sons, collected behind a slot in use. -/
theorem collect_records_out_iff_chain :
    collectRecordsOut (Tree.build 1 [⟨1, 0, 0, 0⟩, ⟨2, 0, 0, 0⟩])
        ([⟨9, 9, 9, 0⟩, default, default, default], 1) =
      ([⟨9, 9, 9, 0⟩, ⟨1, 0, 0, 0⟩, ⟨2, 0, 0, 0⟩, default], 3) :=
  (collect_records_out_iff (.build ⟨by decide +kernel, by decide +kernel⟩)
    [⟨9, 9, 9, 0⟩, default, default, default] 1 (by decide +kernel)).2.2.mpr (by decide +kernel)

/-- Two leaves: both records are written, but only the left one is counted. -/
theorem collect_counts_left :
    let t := Tree.build 1 [⟨1, 0, 0, 0⟩, ⟨2, 2 ^ 31, 0, 2 ^ 63⟩]
    Version 1 t ∧ Tree.collectRecords t = [⟨1, 0, 0, 0⟩, ⟨2, 2 ^ 31, 0, 2 ^ 63⟩] ∧
      collectRecordsOut t ([default, default], 0) =
        ([⟨1, 0, 0, 0⟩, ⟨2, 2 ^ 31, 0, 2 ^ 63⟩], 1) :=
  ⟨.build ⟨by decide +kernel, by decide +kernel⟩, by decide +kernel, by decide +kernel⟩

end Silva
