import Silva.Cpam.WellFormed
import Silva.Lib.Buffer

/-!
# Proofs: the pruned traversals are plain filters

On a well-formed tree each traversal computes what a scan of the entries would, provided that the test
of a box is sound for the entries that the box was combined from.
-/

namespace Silva

namespace Cpam

open Node

variable {K V Bx A : Type*} {B : ℕ} {es : List (K × V)}

/-! ## Counting and reporting -/

/-- The test of a box and the test of a value agree: an excluded box has no value that passes, a
contained one has no other, and the count of a node is the number of its entries. -/
structure Sound (ent : Entry K V (Bx × ℕ)) (f : Bx → Int) (f2 : V → Bool) : Prop where
  exclude : ∀ es, es ≠ [] → f (encode ent es).1 < 0 → ∀ e ∈ es, f2 e.2 = false
  contain : ∀ es, es ≠ [] → f (encode ent es).1 = 1 → ∀ e ∈ es, f2 e.2 = true
  count : ∀ es, es ≠ [] → (encode ent es).2 = es.length

section Range

variable {ent : Entry K V (Bx × ℕ)} {t : Node K V (Bx × ℕ)} {f : Bx → Int} {f2 : V → Bool}

/-- The values that pass the test, in order. -/
def passing (f2 : V → Bool) (es : List (K × V)) : List V := (es.map Prod.snd).filter f2

theorem passing_append (es es' : List (K × V)) :
    passing f2 (es ++ es') = passing f2 es ++ passing f2 es' := by
  simp [passing]

theorem passing_cons (e : K × V) (es : List (K × V)) :
    passing f2 (e :: es) = if f2 e.2 then e.2 :: passing f2 es else passing f2 es := by
  rw [passing, List.map_cons, List.filter_cons]
  rfl

theorem Sound.passing_of_exclude (hs : Sound ent f f2) (hne : es ≠ [])
    (hflag : f (encode ent es).1 < 0) : passing f2 es = [] := by
  unfold passing
  rw [List.filter_eq_nil_iff]
  intro v hv
  obtain ⟨e, he, rfl⟩ := List.mem_map.mp hv
  rw [hs.exclude es hne hflag e he]
  exact Bool.false_ne_true

theorem Sound.passing_of_contain (hs : Sound ent f f2) (hne : es ≠ [])
    (hflag : f (encode ent es).1 = 1) : passing f2 es = es.map Prod.snd := by
  unfold passing
  rw [List.filter_eq_self]
  intro v hv
  obtain ⟨e, he, rfl⟩ := List.mem_map.mp hv
  exact hs.contain es hne hflag e he

/-- The scan of a block. -/
theorem foldl_count (es : List (K × V)) (n : ℕ) :
    es.foldl (fun ret et => if f2 et.2 then ret + 1 else ret) n = n + (passing f2 es).length := by
  induction es generalizing n with
  | nil => rfl
  | cons e es ih =>
    rw [List.foldl_cons, ih, passing_cons]
    by_cases he : f2 e.2 = true
    · rw [if_pos he, if_pos he, List.length_cons, Nat.add_assoc, Nat.add_comm 1]
    · rw [if_neg he, if_neg he]

theorem WellFormed.rangeCountFilter2 (h : WellFormed ent B t es) (hs : Sound ent f f2) :
    rangeCountFilter2 f f2 t = (passing f2 es).length := by
  induction h with
  | null => rfl
  | @regular lc rc es es' left e right ihl ihr =>
    have hne : es ++ e :: es' ≠ [] := by simp
    rw [Cpam.rangeCountFilter2]
    by_cases hneg : f (encode ent (es ++ e :: es')).1 < 0
    · rw [if_pos hneg, hs.passing_of_exclude hne hneg, List.length_nil]
    · rw [if_neg hneg]
      by_cases hone : f (encode ent (es ++ e :: es')).1 = 1
      · rw [if_pos hone, hs.count _ hne, hs.passing_of_contain hne hone, List.length_map]
      · rw [if_neg hone, passing_append, passing_cons]
        simp only [ihl, ihr]
        by_cases he : f2 e.2 = true
        · simp only [if_pos he, List.length_append, List.length_cons]
          omega
        · simp only [if_neg he, List.length_append]
          omega
  | @compressed es hne hle =>
    rw [Cpam.rangeCountFilter2]
    by_cases hneg : f (encode ent es).1 < 0
    · rw [if_pos hneg, hs.passing_of_exclude hne hneg, List.length_nil]
    · rw [if_neg hneg]
      by_cases hone : f (encode ent es).1 = 1
      · rw [if_pos hone, hs.count _ hne, hs.passing_of_contain hne hone, List.length_map]
      · rw [if_neg hone, foldl_count, Nat.zero_add]

theorem foldl_assign (vs : List V) (ret : ℕ × List V) :
    vs.foldl assign ret = (ret.1 + vs.length, Buffer.write ret.2 ret.1 vs) := by
  induction vs generalizing ret with
  | nil => rfl
  | cons v vs ih =>
    rw [List.foldl_cons, ih, List.length_cons, Buffer.write, assign, Nat.add_assoc, Nat.add_comm 1]

/-- The scan of a block that meets the query, when the box of a value tests the value. -/
theorem foldl_assign_passing {ptBox : V → Bx} (hpt : ∀ v, f (ptBox v) = 1 ↔ f2 v = true)
    (es : List (K × V)) (ret : ℕ × List V) :
    es.foldl (fun ret et => if f (ptBox et.2) = 1 then assign ret et.2 else ret) ret =
      (passing f2 es).foldl assign ret := by
  induction es generalizing ret with
  | nil => rfl
  | cons e es ih =>
    rw [List.foldl_cons, ih, passing_cons]
    by_cases he : f2 e.2 = true
    · rw [if_pos he, if_pos ((hpt e.2).mpr he), List.foldl_cons]
    · rw [if_neg he, if_neg (mt (hpt e.2).mp he)]

theorem WellFormed.rangeReportFilter2 (h : WellFormed ent B t es) (hs : Sound ent f f2)
    {ptBox : V → Bx} (hpt : ∀ v, f (ptBox v) = 1 ↔ f2 v = true) (ret : ℕ × List V) :
    rangeReportFilter2 f ptBox t ret = (passing f2 es).foldl assign ret := by
  induction h generalizing ret with
  | null => rfl
  | @regular lc rc es es' left e right ihl ihr =>
    have hne : es ++ e :: es' ≠ [] := by simp
    rw [Cpam.rangeReportFilter2]
    by_cases hneg : f (encode ent (es ++ e :: es')).1 < 0
    · rw [if_pos hneg, hs.passing_of_exclude hne hneg, List.foldl_nil]
    · rw [if_neg hneg, passing_append, passing_cons, List.foldl_append]
      simp only [ihl, ihr]
      by_cases he : f2 e.2 = true
      · rw [if_pos he, if_pos ((hpt e.2).mpr he), List.foldl_cons]
      · rw [if_neg he, if_neg (mt (hpt e.2).mp he)]
  | @compressed es hne hle =>
    rw [Cpam.rangeReportFilter2]
    by_cases hneg : f (encode ent es).1 < 0
    · rw [if_pos hneg, hs.passing_of_exclude hne hneg, List.foldl_nil]
    · rw [if_neg hneg]
      by_cases hone : f (encode ent es).1 = 1
      · rw [if_pos hone, hs.passing_of_contain hne hone, List.foldl_map]
      · rw [if_neg hone]
        exact foldl_assign_passing hpt es ret

end Range

/-! ## Filtering -/

section Filter

variable {ent : Entry K V A} {t : Node K V A} {fpt : K × V → Bool} {fbb : A → Bool}

theorem entries_augFilterBc2 (f : K × V → Bool) (b1 : Node K V A) :
    (augFilterBc2 ent B f b1).entries = b1.entries.filter f := by
  unfold augFilterBc2
  by_cases h : (b1.entries.filter f).length < B
  · rw [if_pos h, entries_toTreeImpl]
  · rw [if_neg h, entries_makeCompressed]

theorem WellFormed.augFilter2 (h : WellFormed ent B t es) {joins : Joins K V A}
    (hj : joins.InOrder)
    (hfbb : ∀ es, es ≠ [] → fbb (encode ent es) = false → ∀ e ∈ es, fpt e = false) :
    (augFilter2 ent B joins fpt fbb t).entries = es.filter fpt := by
  induction h with
  | null => rfl
  | @regular lc rc es es' left e right ihl ihr =>
    have hentries := (WellFormed.regular left e right).entries
    rw [Cpam.augFilter2]
    by_cases hbase : es.length + es'.length + 1 ≤ kBaseCaseSize B
    · rw [if_pos hbase, entries_augFilterBc2, hentries]
    · rw [if_neg hbase]
      cases hbb : fbb (encode ent (es ++ e :: es')) with
      | false =>
        have hnone : (es ++ e :: es').filter fpt = [] := by
          rw [List.filter_eq_nil_iff]
          intro e' he'
          rw [hfbb _ (by simp) hbb e' he']
          exact Bool.false_ne_true
        rw [hnone]
        rfl
      | true =>
        rw [if_neg (by simp), List.filter_append, List.filter_cons]
        by_cases he : fpt e = true
        · rw [if_pos he, if_pos he, hj.join, ihl, ihr]
        · rw [if_neg he, if_neg he, hj.join2, ihl, ihr]
  | @compressed es hne hle =>
    rw [Cpam.augFilter2, entries_augFilterBc2]
    rfl

end Filter

end Cpam

end Silva
