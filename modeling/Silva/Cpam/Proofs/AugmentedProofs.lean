import Silva.Cpam.Proofs.FilterProofs
import Silva.Cpam.Proofs.SequenceProofs
import Silva.Cpam.Proofs.ShapeProofs

/-!
# Proofs: `aug_filter2` with the joins of the library

With the joins of the library `aug_filter2` makes a PaC tree of what a plain filter keeps.
-/

namespace Silva

namespace Cpam

open Node

variable {K V A : Type*} {ent : Entry K V A} {B : ℕ} {root : Bool} {t t1 t2 : Node K V A}
  {es : List (K × V)} {o : Option (Node K V A)}

/-- The tree of an operation that does not fail. -/
theorem Yields.getD (h : Yields ent B o es) :
    PaC ent B (o.getD null) ∧ (o.getD null).entries = es := by
  obtain ⟨t, rfl, ht, hes⟩ := h
  exact ⟨ht, hes⟩

theorem pacJoins_join (hB : 1 < B) (h1 : PaC ent B t1) (h2 : PaC ent B t2) (e : K × V) :
    PaC ent B ((pacJoins ent B).join t1 e t2) ∧
      ((pacJoins ent B).join t1 e t2).entries = t1.entries ++ e :: t2.entries :=
  Yields.getD (nodeJoin_yields (by omega) h1 h2 e)

theorem pacJoins_join2 (hB : 1 < B) (h1 : PaC ent B t1) (h2 : PaC ent B t2) :
    PaC ent B ((pacJoins ent B).join2 t1 t2) ∧
      ((pacJoins ent B).join2 t1 t2).entries = t1.entries ++ t2.entries :=
  Yields.getD (join2_yields hB h1 h2)

section Filter

variable {fpt : K × V → Bool} {fbb : A → Bool}

theorem augFilterBc2_paC (hB : 1 < B) (hle : t.entries.length ≤ kBaseCaseSize B) :
    PaC ent B (augFilterBc2 ent B fpt t) := by
  have hlen := (List.length_filter_le fpt t.entries).trans hle
  unfold augFilterBc2
  by_cases hlt : (t.entries.filter fpt).length < B
  · rw [if_pos hlt]
    exact .toTreeImpl hB _ 0 (Or.inl hlt)
  · rw [if_neg hlt]
    exact .makeCompressed (not_lt.mp hlt) hlen

/-- The filter of a map by values and by the values that nodes store. -/
theorem augFilter2_spec (hB : 1 < B)
    (hassoc : ∀ a b c, ent.combine (ent.combine a b) c = ent.combine a (ent.combine b c))
    (hfbb : ∀ es, es ≠ [] → fbb (encode ent es) = false → ∀ e ∈ es, fpt e = false)
    (h : Valid ent B root t) :
    PaC ent B (augFilter2 ent B (pacJoins ent B) fpt fbb t) ∧
      (augFilter2 ent B (pacJoins ent B) fpt fbb t).entries = t.entries.filter fpt := by
  induction t generalizing root with
  | null => exact ⟨.null, rfl⟩
  | compressed es augVal =>
    have := h.of_compressed
    rw [augFilter2]
    exact ⟨augFilterBc2_paC hB (by rw [Node.entries]; unfold kBaseCaseSize; omega),
      entries_augFilterBc2 ..⟩
  | regular lc e rc s augVal ihl ihr =>
    obtain ⟨hl, hr, -, -⟩ := h.of_regular.of_regular
    rw [augFilter2]
    by_cases hbase : s ≤ kBaseCaseSize B
    · rw [if_pos hbase]
      exact ⟨augFilterBc2_paC hB (h.size ▸ hbase), entries_augFilterBc2 ..⟩
    · rw [if_neg hbase]
      have haug : augVal = encode ent (regular lc e rc s augVal).entries :=
        (h.wellFormed hassoc (by omega)).augVal
      cases hbb : fbb augVal with
      | false =>
        have hnone : (regular lc e rc s augVal).entries.filter fpt = [] := by
          rw [List.filter_eq_nil_iff]
          intro x hx
          rw [hfbb _ (List.ne_nil_of_mem hx) (haug ▸ hbb) x hx]
          exact Bool.false_ne_true
        rw [hnone]
        exact ⟨.null, rfl⟩
      | true =>
        obtain ⟨hpl, hel⟩ := ihl hl.inner
        obtain ⟨hpr, her⟩ := ihr hr.inner
        rw [if_neg (by simp), Node.entries, List.filter_append, List.filter_cons, ← hel, ← her]
        by_cases he : fpt e = true
        · rw [if_pos he, if_pos he]
          exact pacJoins_join hB hpl hpr e
        · rw [if_neg he, if_neg he]
          exact pacJoins_join2 hB hpl hpr

end Filter

end Cpam

end Silva
