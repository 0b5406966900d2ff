import Silva.Cpam.Versions
import Silva.Cpam.Proofs.MapProofs
import Silva.Cpam.Proofs.ShapeProofs

/-!
# Proofs: runs of map commands

No command fails, whatever the versions before it have become, and all versions of a run are the finite
maps of the same run.
-/

namespace Silva

namespace Cpam

open Node TwoPointer KeyedList SortedMerge

variable {K V A : Type*} [LinearOrder K] {ent : Entry K V A} {B : ℕ} {root : Bool}
  {t t1 t2 : Node K V A} {es : List (K × V)} {k : K} {o : Option (Node K V A)}
  {sampleSort : List (K × V) → List (K × V)}

/-! ## Runs -/

/-- The finite maps of a list of versions. -/
def values (vs : List (Node K V A)) : List (K → Option V) := vs.map Node.value

theorem version_values {vs : List (Node K V A)} {i : ℕ} (h : vs[i]? = some t) :
    Cmd.version (values vs) i = t.value := by
  rw [Cmd.version, List.getD_eq_getElem?_getD, values, List.getElem?_map, h]
  rfl

/-- A version that a command names. -/
theorem exists_version {vs : List (Node K V A)} (hvs : ∀ v ∈ vs, IsPacMap ent B v) {i : ℕ}
    (hi : i < vs.length) :
    ∃ t, vs[i]? = some t ∧ IsPacMap ent B t ∧ Cmd.version (values vs) i = t.value :=
  have h : vs[i]? = some vs[i] := List.getElem?_eq_getElem hi
  ⟨vs[i], h, hvs _ (List.getElem_mem hi), version_values h⟩

/-- The value of a map that some of the entries are left out of. -/
theorem value_eq_ite {t' : Node K V A} (hs : Sorted t.entries) {p : K → Prop} [DecidablePred p]
    {q : K × V → Bool} (h : t'.entries = t.entries.filter q) (hq : ∀ e, q e = decide (p e.1)) (k : K) :
    t'.value k = if p k then t.value k else none := by
  rw [value_filter hs h]
  cases t.value k <;> simp [Option.filter, hq]

/-- A command makes a map, and one that it may make of the finite maps of the versions. -/
theorem exec_spec (hB : 1 < B) (hsort : SortsByKey sampleSort) {vs : List (Node K V A)}
    (hvs : ∀ v ∈ vs, IsPacMap ent B v) {cmd : Cmd K V} (hin : cmd.InRange vs.length) :
    ∃ v, cmd.exec ent B sampleSort vs = some v ∧ IsPacMap ent B v ∧
      cmd.Allows (Cmd.version (values vs)) v.value := by
  cases cmd with
  | mapOf S => exact mapOf_spec hB hsort S
  | multiInsert m SS =>
    obtain ⟨t, ht, hpac, hval⟩ := exists_version hvs hin
    obtain ⟨v, hv, hpv, hes⟩ := multiInsert_spec hB hsort hpac SS
    refine ⟨v, by rw [Cmd.exec, ht, Option.bind_some, hv], hpv, fun k => ?_⟩
    rw [hval]
    exact hes k
  | multiDelete m SS =>
    obtain ⟨t, ht, hpac, hval⟩ := exists_version hvs hin
    obtain ⟨v, hv, hpv, hes⟩ := multiDelete_spec hB hsort hpac SS
    refine ⟨v, by rw [Cmd.exec, ht, Option.bind_some, hv], hpv, fun k => ?_⟩
    rw [hval, value_eq_ite (p := fun k => k ∉ SS.map Prod.fst) hpac.sorted hes fun _ => rfl]
    by_cases hk : k ∈ SS.map Prod.fst
    · exact Or.inl ⟨hk, if_neg (not_not.mpr hk)⟩
    · exact Or.inr ⟨hk, if_pos hk⟩
  | mapUnion a b =>
    obtain ⟨t1, ht1, hp1, hval1⟩ := exists_version hvs hin.1
    obtain ⟨t2, ht2, hp2, hval2⟩ := exists_version hvs hin.2
    obtain ⟨v, hv, hpv, hes⟩ := mapUnion_spec hB hp1 hp2
    refine ⟨v, by rw [Cmd.exec, ht1, Option.bind_some, ht2, Option.bind_some, hv], hpv, fun k => ?_⟩
    rw [hval1, hval2]
    exact hes k
  | mapIntersect a b =>
    obtain ⟨t1, ht1, hp1, hval1⟩ := exists_version hvs hin.1
    obtain ⟨t2, ht2, hp2, hval2⟩ := exists_version hvs hin.2
    obtain ⟨v, hv, hpv, hes⟩ := mapIntersect_spec hB hp1 hp2
    refine ⟨v, by rw [Cmd.exec, ht1, Option.bind_some, ht2, Option.bind_some, hv], hpv, fun k => ?_⟩
    rw [hval1, hval2]
    exact hes k
  | mapDifference a b =>
    obtain ⟨t1, ht1, hp1, hval1⟩ := exists_version hvs hin.1
    obtain ⟨t2, ht2, hp2, hval2⟩ := exists_version hvs hin.2
    obtain ⟨v, hv, hpv, hes⟩ := mapDifference_spec hB hp1 hp2
    refine ⟨v, by rw [Cmd.exec, ht1, Option.bind_some, ht2, Option.bind_some, hv], hpv, fun k => ?_⟩
    rw [hval1, hval2,
      value_eq_ite (p := fun k => k ∉ t2.entries.map Prod.fst) hp1.sorted hes fun _ => rfl, ite_not]
    simp only [lookup_map_isSome]
  | filter m f =>
    obtain ⟨t, ht, hpac, hval⟩ := exists_version hvs hin
    obtain ⟨v, hv, hpv, hes⟩ := mapFilter_spec hB hpac f
    refine ⟨v, by rw [Cmd.exec, ht, Option.bind_some, hv], hpv, fun k => ?_⟩
    rw [hval]
    exact value_filter hpac.sorted hes k
  | range a kl kr =>
    obtain ⟨t, ht, hpac, hval⟩ := exists_version hvs hin
    obtain ⟨v, hv, hpv, hes⟩ := mapRange_spec hB hpac kl kr
    refine ⟨v, by rw [Cmd.exec, ht, Option.bind_some, hv], hpv, fun k => ?_⟩
    rw [hval]
    exact value_eq_ite (p := fun k => kl ≤ k ∧ k ≤ kr) hpac.sorted hes
      (fun _ => (Bool.decide_and ..).symm) k
  | remove m k' =>
    obtain ⟨t, ht, hpac, hval⟩ := exists_version hvs hin
    obtain ⟨v, hv, hpv, hes⟩ := remove_spec hB hpac k'
    refine ⟨v, by rw [Cmd.exec, ht, Option.bind_some, hv], hpv, fun k => ?_⟩
    rw [hval, value_eq_ite (p := fun k => k ≠ k') hpac.sorted hes fun _ => rfl, ite_not]

/-- A whole run: no command fails, every version is a map, and the versions, old and new, are a run of
the finite maps. -/
theorem run_spec (hB : 1 < B) (hsort : SortsByKey sampleSort) {cmds : List (Cmd K V)}
    {vs : List (Node K V A)} (hvs : ∀ v ∈ vs, IsPacMap ent B v) (hin : Cmd.InRangeRun vs.length cmds) :
    ∃ vs', Cmd.run ent B sampleSort cmds vs = some vs' ∧ (∀ v ∈ vs', IsPacMap ent B v) ∧
      Cmd.AllowsRun cmds (values vs) (values vs') := by
  induction cmds generalizing vs with
  | nil => exact ⟨vs, rfl, hvs, .nil _⟩
  | cons cmd cmds ih =>
    obtain ⟨v, hv, hpv, hallows⟩ := exec_spec hB hsort hvs hin.1
    have hvs' : ∀ u ∈ vs ++ [v], IsPacMap ent B u := fun u hu => by
      rcases List.mem_append.mp hu with hu | hu
      · exact hvs u hu
      · exact List.mem_singleton.mp hu ▸ hpv
    obtain ⟨vs', hrun, hall, htail⟩ := ih hvs' (by rw [List.length_append]; exact hin.2)
    refine ⟨vs', by rw [Cmd.run, hv, Option.bind_some, hrun], hall, .cons hallows ?_⟩
    rwa [values, List.map_append] at htail

/-- A run from nothing: the versions are a run of finite maps, they pass the check, their height is
logarithmic in the size that they store, the traversals see every entry once, and the lookups answer from
the finite map. -/
theorem map_runs_exact (hB : 1 < B) (hsort : SortsByKey sampleSort) (ent : Entry K V A)
    {cmds : List (Cmd K V)} (hin : Cmd.InRangeRun 0 cmds) :
    ∃ vs, Cmd.run ent B sampleSort cmds [] = some vs ∧ Cmd.AllowsRun cmds [] (values vs) ∧ ∀ v ∈ vs,
      checkStructure B none v = some true ∧ 100 ^ height v ≤ 71 ^ height v * (v.size + 1) ∧
      (foreachIndex v 0).Perm v.entries.zipIdx ∧
      (∀ f : K × V → ℕ, mapReduce 0 (· + ·) f v = (v.entries.map f).sum) ∧
      ∀ k, (find v k).map Prod.snd = v.value k ∧ (find2 v k).map Prod.snd = v.value k ∧
        (v.value k ≠ none → select v (rank v k 0) = find v k) := by
  obtain ⟨vs, hrun, hvs, hallows⟩ :=
    run_spec hB hsort (fun v (hv : v ∈ []) => absurd hv List.not_mem_nil) hin
  refine ⟨vs, hrun, hallows, fun v hv => ?_⟩
  have hp : IsPacMap ent B v := hvs v hv
  refine ⟨hp.valid.checkStructure, hp.valid.height_le (by omega), foreachIndex_perm hp.valid 0,
    fun f => mapReduce_eq f v, fun k => ?_⟩
  rw [find_eq hp.sorted, find2_eq hp.sorted, select_eq hp.valid, rank_eq hp.valid hp.sorted, Nat.zero_add]
  refine ⟨rfl, rfl, fun hne => ?_⟩
  obtain ⟨e, he⟩ := Option.ne_none_iff_exists'.mp fun h => hne (congrArg (Option.map Prod.snd) h)
  have hat := lookup_eq_getElem? hp.sorted k
  rw [he] at hat ⊢
  exact (Option.filter_eq_some_iff.mp hat).1

theorem map_runs_exact_two :
    let cmds : List (Cmd ℕ ℕ) := [.mapOf [(3, 1), (1, 2)], .multiDelete 0 [(3, 0)]]
    ∃ vs, Cmd.run sumEntry 2 sortByKey cmds [] = some vs ∧ Cmd.AllowsRun cmds [] (values vs) ∧ ∀ v ∈ vs,
      checkStructure 2 none v = some true ∧ 100 ^ height v ≤ 71 ^ height v * (v.size + 1) ∧
      (foreachIndex v 0).Perm v.entries.zipIdx ∧
      (∀ f : ℕ × ℕ → ℕ, mapReduce 0 (· + ·) f v = (v.entries.map f).sum) ∧
      ∀ k, (find v k).map Prod.snd = v.value k ∧ (find2 v k).map Prod.snd = v.value k ∧
        (v.value k ≠ none → select v (rank v k 0) = find v k) :=
  map_runs_exact (by decide) sortsByKey_sortByKey sumEntry ⟨trivial, (by decide : 0 < 1), trivial⟩

end Cpam

end Silva
