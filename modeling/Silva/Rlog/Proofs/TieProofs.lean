import Silva.Rlog.Proofs.KnnProofs

/-!
# Proofs: nearest neighbours and the order of the log

The order inside the insert lists decides which values fill the heap and which tied value comes last.
What a query answers follows from these two alone: the tied values below the top are those of the full
heap with the smallest identifiers, and the top is the largest of the one above them and the ones that
come last.
-/

namespace Silva

namespace Rlog

open BoundedQueue

variable {k places : ℕ} {d : FT} {W V base : List (FT × Value)}

/-! ## One order of arrival -/

/-- A value at the distance `d` has the identifier. -/
def TiedId (d : FT) (vals : List (FT × Value)) (id : ℕ) : Prop :=
  ∃ c ∈ vals, c.1 = d ∧ c.2.id = id

/-- A value nearer than `d` has the identifier. -/
def NearId (d : FT) (vals : List (FT × Value)) (id : ℕ) : Prop :=
  ∃ c ∈ vals, c.1 < d ∧ c.2.id = id

/-- What remains of the base behind the nearer values. -/
def beyond (d : FT) (base : List (FT × Value)) : List (FT × Value) :=
  base.dropWhile fun c => c.1 < d

/-- Of the tied values of a full heap, the ones with the smallest identifiers stay below the top. -/
def Stays (places : ℕ) (d : FT) (W : List (FT × Value)) (id : ℕ) : Prop :=
  TiedId d W id ∧ tiedBelow d W id + 1 < places

/-- The heap at the end, where `W` filled it and `V` came later: `f` is the tied value of `W` above the
ones that stay, `t` the one on top before the tied values of the base. -/
structure Outcome (places : ℕ) (d : FT) (W V base Q : List (FT × Value)) (f t : ℕ) : Prop where
  tied : TiedId d W f
  rank : tiedBelow d W f + 1 = places
  top : IsGreatest {id | id = f ∨ Late d V base id} t
  mem : ∀ id, id ∈ Q.map (fun c => c.2.id) ↔ id = climb d t (beyond d base) ∨
    Stays places d W id ∨ NearId d (W ++ V ++ base) id

theorem tiedBelow_filter (d : FT) (W : List (FT × Value)) (id : ℕ) :
    tiedBelow d (W.filter fun c => c.1 = d) id = tiedBelow d W id := by
  unfold tiedBelow
  rw [List.countP_filter]
  refine List.countP_congr fun c _ => ?_
  simp only [Bool.and_eq_true, decide_eq_true_eq]
  tauto

theorem TiedId.perm {W' : List (FT × Value)} {id : ℕ} (h : W.Perm W') :
    TiedId d W id ↔ TiedId d W' id := by
  unfold TiedId
  simp only [h.mem_iff]

theorem late_congr {base' : List (FT × Value)} (h : nearer d base = nearer d base') {id : ℕ} :
    Late d V base id ↔ Late d V base' id := by
  unfold Late
  simp only [nearer_append, h]

/-- In a sorted base the nearer values come first. -/
theorem base_split (hsorted : base.Pairwise fun a b => a.1 ≤ b.1) :
    base = (base.filter fun c => c.1 < d) ++ beyond d base ∧ ∀ c ∈ beyond d base, d ≤ c.1 := by
  unfold beyond
  induction base with
  | nil => simp
  | cons c base ih =>
    obtain ⟨hc, hsorted⟩ := List.pairwise_cons.mp hsorted
    obtain ⟨heq, hfar⟩ := ih hsorted
    by_cases hlt : c.1 < d
    · rw [List.filter_cons_of_pos (by simpa using hlt), List.dropWhile_cons_of_pos (by simpa using hlt)]
      exact ⟨congrArg (c :: ·) heq, hfar⟩
    · have hge : ∀ y ∈ c :: base, d ≤ y.1 := by
        intro y hy
        rcases List.mem_cons.mp hy with rfl | hy
        · exact not_lt.mp hlt
        · exact (not_lt.mp hlt).trans (hc y hy)
      rw [List.dropWhile_cons_of_neg (by simpa using hlt), List.filter_eq_nil_iff.mpr]
      · exact ⟨rfl, hge⟩
      · exact fun y hy => by simpa using hge y hy

/-- The tied values of a heap in strictly descending order of their identifiers. -/
theorem FullAt.desc {T N : List (FT × Value)} (h : FullAt k d T N)
    (hid : (T.map fun c => c.2.id).Nodup) : T.Pairwise fun a b => b.2.id < a.2.id := by
  have hsorted := (List.pairwise_append.mp h.sorted).1
  have hne : T.Pairwise fun a b => a.2.id ≠ b.2.id := List.pairwise_map.mp hid
  refine (hsorted.and hne).imp_of_mem fun {a b} ha hb hab => ?_
  exact lt_of_le_of_ne (id_le_of_heapKey_le ((h.tied b hb).trans (h.tied a ha).symm) hab.1) hab.2.symm

/-- Of the tied values of a full heap in descending order the last ones stay, and the value above them
has their number as its rank. -/
theorem stays_of_split {T X T' : List (FT × Value)} {f : FT × Value}
    (hT : T.Perm (W.filter fun c => c.1 = d)) (hdesc : T.Pairwise fun a b => b.2.id < a.2.id)
    (hsplit : T = X ++ f :: T') :
    tiedBelow d W f.2.id = T'.length ∧
      ∀ id, (∃ c ∈ T', c.2.id = id) ↔ Stays (T'.length + 1) d W id := by
  have hmemT : ∀ c, c ∈ T ↔ c ∈ W ∧ c.1 = d := fun c => by
    rw [hT.mem_iff, List.mem_filter, decide_eq_true_eq]
  have hbelow : ∀ id, tiedBelow d T id = tiedBelow d W id := fun id => by
    rw [tiedBelow_perm hT, tiedBelow_filter]
  subst hsplit
  obtain ⟨hrank, hlow, hhigh⟩ := tiedBelow_split (fun c hc => ((hmemT c).mp hc).2) hdesc
  refine ⟨(hbelow _).symm.trans hrank, fun id => ⟨?_, ?_⟩⟩
  · rintro ⟨c, hc, rfl⟩
    obtain ⟨hcW, hcd⟩ := (hmemT c).mp (by simp [hc])
    have hlt := hlow c hc
    rw [hbelow] at hlt
    exact ⟨⟨c, hcW, hcd, rfl⟩, by omega⟩
  · rintro ⟨⟨c, hcW, hcd, rfl⟩, hlt⟩
    have hcT := (hmemT c).mpr ⟨hcW, hcd⟩
    rw [← hbelow] at hlt
    rw [List.mem_append, List.mem_cons] at hcT
    rcases hcT with hcX | rfl | hcT
    · have := hhigh c hcX
      omega
    · omega
    · exact ⟨c, hcT, rfl⟩

/-- The nearer values of the heap at the end are all that come. -/
theorem nearId_iff {N N' : List (FT × Value)} (hN : N.Perm (W.filter fun c => c.1 < d))
    (hN' : N'.Perm (N ++ (V ++ base.filter fun c => c.1 < d).filter fun c => c.1 < d)) (id : ℕ) :
    (∃ c ∈ N', c.2.id = id) ↔ NearId d (W ++ V ++ base) id := by
  unfold NearId
  simp only [hN'.mem_iff, hN.mem_iff, List.mem_append, List.mem_filter, decide_eq_true_eq]
  constructor
  · rintro ⟨c, ⟨hc, hcd⟩ | ⟨hc | ⟨hc, -⟩, hcd⟩, hcid⟩
    · exact ⟨c, .inl (.inl hc), hcd, hcid⟩
    · exact ⟨c, .inl (.inr hc), hcd, hcid⟩
    · exact ⟨c, .inr hc, hcd, hcid⟩
  · rintro ⟨c, (hc | hc) | hc, hcd, hcid⟩
    · exact ⟨c, .inl ⟨hc, hcd⟩, hcid⟩
    · exact ⟨c, .inr ⟨.inl hc, hcd⟩, hcid⟩
    · exact ⟨c, .inr ⟨.inr ⟨hc, hcd⟩, hcd⟩, hcid⟩

/-- Every order in which the heap is full of values within the distance leads to an outcome. -/
theorem exists_outcome (hk : 0 < k) (hid : (W.map fun c => c.2.id).Nodup)
    (hsorted : base.Pairwise fun a b => a.1 ≤ b.1) (hW : within d W = k)
    (hplaces : nearer d (W ++ V ++ base) + places = k) (hpos : 0 < places) :
    ∃ f t, Outcome places d W V base (checkBase k (run k (W ++ V)) base) f t := by
  obtain ⟨hbase, hbeyond⟩ := base_split (d := d) hsorted
  have hnear : ∀ c ∈ base.filter fun c => c.1 < d, c.1 < d := fun c hc =>
    of_decide_eq_true (List.mem_filter.mp hc).2
  rw [nearer_append, nearer_append] at hplaces
  obtain ⟨T, N, hrun, hfull, hN, hT⟩ := run_split hk (by omega) hW.ge
  have hT := hT hW
  have hTlen : T.length = nearer d V + nearer d base + places := by
    have hlen := hfull.length
    rw [List.length_append, hN.length_eq, nearer_filter] at hlen
    omega
  obtain ⟨t₀, T₀, rfl⟩ := List.exists_cons_of_length_pos (show 0 < T.length by omega)
  rw [List.length_cons] at hTlen
  have hVN : nearer d (V ++ base.filter fun c => c.1 < d) = nearer d V + nearer d base := by
    rw [nearer_append]
    congr 1
    unfold nearer
    rw [List.countP_filter]
    simp
  -- first the values of `V`, then the nearer ones of the base
  obtain ⟨f₁, t₁, T₁, N₁, hdrop₁, hfold₁, hfull₁, -, -⟩ := hfull.foldl V (by omega)
  obtain ⟨f, t, T', N', hdrop, hfold, hfull', hN', htop⟩ :=
    hfull.foldl (V ++ base.filter fun c => c.1 < d) (by omega)
  obtain ⟨t', hclimb, hfull'', ht'⟩ := hfull'.checkBase_climb (beyond d base) hbeyond
  have hend : checkBase k (run k (W ++ V)) base = t' :: T' ++ N' := by
    rw [run_append, hrun, hfold₁]
    conv_lhs => rw [hbase]
    rw [FullAt.checkBase_append _ _ hfull₁ hnear, ← hfold₁, ← List.foldl_append, hfold, hclimb]
    have hlen := congrArg List.length hdrop₁
    rw [List.length_drop, List.length_cons, List.length_cons] at hlen
    rw [nearer_filter, List.length_cons]
    omega
  -- the tied values that remain are the last ones
  rw [hVN] at hdrop
  have hsplit : t₀ :: T₀ = (t₀ :: T₀).take (nearer d V + nearer d base) ++ f :: T' := by
    rw [← hdrop, List.take_append_drop]
  have hT'len : T'.length + 1 = places := by
    have hlen := congrArg List.length hdrop
    rw [List.length_drop, List.length_cons, List.length_cons] at hlen
    omega
  have hTid : ((t₀ :: T₀).map fun c => c.2.id).Nodup := by
    refine (hT.map _).nodup_iff.mpr ?_
    exact hid.sublist (List.filter_sublist.map _)
  obtain ⟨hrank, hstays⟩ := stays_of_split hT (hfull.desc hTid) hsplit
  rw [hT'len] at hstays
  have hf : f ∈ (t₀ :: T₀ : List (FT × Value)) := by
    rw [hsplit]
    simp
  obtain ⟨hfW, hfd⟩ := List.mem_filter.mp (hT.mem_iff.mp hf)
  refine ⟨f.2.id, t.2.id, ⟨f, hfW, of_decide_eq_true hfd, rfl⟩, ?_, ?_, fun id => ?_⟩
  · rw [hrank, hT'len]
  · have hlate : ∀ id, Late d (V ++ base.filter fun c => c.1 < d) [] id ↔ Late d V base id := by
      intro id
      rw [late_append hnear]
      refine late_congr ?_
      rw [List.append_nil]
      rw [nearer_append] at hVN
      exact Nat.add_left_cancel hVN
    simpa only [hlate] using htop
  · rw [hend, ← hstays, ← nearId_iff hN hN', ← ht']
    simp only [List.cons_append, List.map_cons, List.mem_cons, List.map_append, List.mem_append,
      List.mem_map]

/-! ## Ranks -/

theorem tiedBelow_mono (d : FT) (W : List (FT × Value)) {i j : ℕ} (h : i ≤ j) :
    tiedBelow d W i ≤ tiedBelow d W j := by
  refine List.countP_mono_left fun c _ hc => ?_
  simp only [decide_eq_true_eq] at hc ⊢
  exact ⟨hc.1, hc.2.trans_le h⟩

theorem lt_of_tiedBelow_lt {i j : ℕ} (h : tiedBelow d W i < tiedBelow d W j) : i < j := by
  by_contra hle
  exact absurd (tiedBelow_mono d W (not_lt.mp hle)) h.not_ge

/-- A tied value counts for everything above it. -/
theorem TiedId.tiedBelow_lt {i j : ℕ} (hi : TiedId d W i) (h : i < j) :
    tiedBelow d W i < tiedBelow d W j := by
  obtain ⟨c, hc, hcd, rfl⟩ := hi
  obtain ⟨W₁, W₂, rfl⟩ := List.append_of_mem hc
  have h₁ := tiedBelow_mono d W₁ h.le
  have h₂ := tiedBelow_mono d W₂ h.le
  have hcons : ∀ id, tiedBelow d (c :: W₂) id =
      tiedBelow d W₂ id + if c.2.id < id then 1 else 0 := fun id => by
    simp only [tiedBelow, List.countP_cons, hcd, true_and, decide_eq_true_eq]
  rw [tiedBelow_append, tiedBelow_append, hcons, hcons, if_neg (lt_irrefl _), if_pos h]
  omega

theorem tiedBelow_add_nearer_le (d : FT) (W : List (FT × Value)) (i : ℕ) :
    tiedBelow d W i + nearer d W ≤ within d W := by
  unfold tiedBelow nearer within
  induction W with
  | nil => rfl
  | cons c W ih =>
    simp only [List.countP_cons, decide_eq_true_eq]
    rcases lt_trichotomy c.1 d with h | h | h
    · simp only [h, h.ne, h.le, false_and, if_true, if_false]
      omega
    · simp only [h, true_and, lt_irrefl, le_refl, if_true, if_false]
      split_ifs <;> omega
    · simp only [h.ne', h.not_gt, h.not_ge, false_and, if_false]
      omega

/-- A tied value is not below itself. -/
theorem TiedId.tiedBelow_lt_within {i : ℕ} (hi : TiedId d W i) :
    tiedBelow d W i + nearer d W < within d W := by
  obtain ⟨c, hc, hcd, rfl⟩ := hi
  obtain ⟨W₁, W₂, rfl⟩ := List.append_of_mem hc
  have h₁ := tiedBelow_add_nearer_le d W₁ c.2.id
  have h₂ := tiedBelow_add_nearer_le d W₂ c.2.id
  have hbelow : tiedBelow d (c :: W₂) c.2.id = tiedBelow d W₂ c.2.id := by
    simp only [tiedBelow, List.countP_cons, lt_irrefl, and_false, decide_false, Bool.false_eq_true,
      if_false, Nat.add_zero]
  have hnear : nearer d (c :: W₂) = nearer d W₂ := by
    rw [nearer_cons, if_neg (by rw [hcd]; exact lt_irrefl d), Nat.add_zero]
  have hwithin : within d (c :: W₂) = within d W₂ + 1 := by
    simp only [within, List.countP_cons, hcd, le_refl, decide_true, if_true]
  rw [tiedBelow_append, nearer_append, within_append, hbelow, hnear, hwithin]
  omega

section Agree

variable {W' V' Q Q' : List (FT × Value)} {f f' t t' : ℕ}

theorem TiedId.mono {id : ℕ} (h : W ⊆ V) (hid : TiedId d W id) : TiedId d V id := by
  obtain ⟨c, hc, hcid⟩ := hid
  exact ⟨c, h hc, hcid⟩

theorem TiedId.not_near {id : ℕ} (hnd : (W.map fun c => c.2.id).Nodup) (htied : TiedId d W id) :
    ¬NearId d W id := by
  rintro ⟨x, hx, hxd, hxid⟩
  obtain ⟨c, hc, hcd, hcid⟩ := htied
  rw [List.inj_on_of_nodup_map hnd hx hc (hxid.trans hcid.symm)] at hxd
  exact hxd.ne hcd

theorem Late.tied {id : ℕ} (h : Late d V base id) : TiedId d V id := by
  obtain ⟨V₁, x, V₂, rfl, hxd, hxid, -⟩ := h
  exact ⟨x, by simp, hxd, hxid⟩

theorem Outcome.le_climb (h : Outcome places d W V base Q f t) :
    f ≤ climb d t (beyond d base) :=
  (h.top.2 (.inl rfl)).trans (Rlog.le_climb _ t)

theorem Outcome.top_tied (h : Outcome places d W V base Q f t) : TiedId d (W ++ V) t := by
  rcases h.top.1 with rfl | hlate
  · exact h.tied.mono (List.subset_append_left W V)
  · exact hlate.tied.mono (List.subset_append_right W V)

theorem Outcome.climb_tied (h : Outcome places d W V base Q f t) :
    TiedId d (W ++ V ++ base) (climb d t (beyond d base)) := by
  rcases climb_eq_or_mem (d := d) (beyond d base) t with heq | ⟨c, hc, hcid⟩
  · rw [heq]
    exact h.top_tied.mono (List.subset_append_left _ base)
  · exact ⟨c, List.mem_append_right _ ((List.dropWhile_sublist _).subset hc), hcid⟩

/-- What stays is below the top. -/
theorem Outcome.lt_of_stays (h : Outcome places d W V base Q f t) {id : ℕ}
    (hid : Stays places d W id) : id < f := by
  refine lt_of_tiedBelow_lt (d := d) (W := W) ?_
  have hrank := h.rank
  have hlow := hid.2
  omega

theorem Stays.not_near {id : ℕ} (hnd : ((W ++ V ++ base).map fun c => c.2.id).Nodup)
    (hid : Stays places d W id) : ¬NearId d (W ++ V ++ base) id := by
  refine (hid.1.mono fun c hc => ?_).not_near hnd
  rw [List.append_assoc]
  exact List.mem_append_left _ hc

/-- If all values of one outcome are in another, its top is not above the other one. If the tops are
the same, so are the values below. -/
theorem Outcome.le_of_subset (h : Outcome places d W V base Q f t)
    (h' : Outcome places d W' V' base Q' f' t')
    (hnd : ((W ++ V ++ base).map fun c => c.2.id).Nodup)
    (hnear : ∀ id, NearId d (W' ++ V' ++ base) id → NearId d (W ++ V ++ base) id)
    (hsub : ∀ id, id ∈ Q.map (fun c => c.2.id) → id ∈ Q'.map fun c => c.2.id) :
    climb d t (beyond d base) ≤ climb d t' (beyond d base) ∧
      (climb d t (beyond d base) = climb d t' (beyond d base) →
        ∀ id, Stays places d W id → Stays places d W' id) := by
  refine ⟨?_, fun heq id hid => ?_⟩
  · rcases (h'.mem _).mp (hsub _ ((h.mem _).mpr (.inl rfl))) with heq | hstays | hbad
    · exact heq.le
    · exact (h'.lt_of_stays hstays).le.trans h'.le_climb
    · exact absurd (hnear _ hbad) (h.climb_tied.not_near hnd)
  · rcases (h'.mem _).mp (hsub _ ((h.mem _).mpr (.inr (.inl hid)))) with htop | hstays | hbad
    · have hlt := (h.lt_of_stays hid).trans_le h.le_climb
      exact absurd (htop.trans heq.symm) hlt.ne
    · exact hstays
    · exact absurd (hnear _ hbad) (hid.not_near hnd)

/-- Two outcomes have the same identifiers exactly when they have the same top and the same values
below it. -/
theorem Outcome.same_iff (h : Outcome places d W V base Q f t)
    (h' : Outcome places d W' V' base Q' f' t') (hperm : (W ++ V).Perm (W' ++ V'))
    (hnd : ((W ++ V ++ base).map fun c => c.2.id).Nodup) :
    (∀ id, id ∈ Q.map (fun c => c.2.id) ↔ id ∈ Q'.map fun c => c.2.id) ↔
      climb d t (beyond d base) = climb d t' (beyond d base) ∧
        ∀ id, Stays places d W id ↔ Stays places d W' id := by
  have hall : (W ++ V ++ base).Perm (W' ++ V' ++ base) := hperm.append_right base
  have hnd' : ((W' ++ V' ++ base).map fun c => c.2.id).Nodup := (hall.map _).nodup_iff.mp hnd
  have hnear : ∀ id, NearId d (W ++ V ++ base) id ↔ NearId d (W' ++ V' ++ base) id := fun id => by
    unfold NearId
    simp only [hall.mem_iff]
  constructor
  · intro hsame
    obtain ⟨hle, hstays⟩ := h.le_of_subset h' hnd (fun id => (hnear id).mpr) fun id => (hsame id).mp
    obtain ⟨hge, hstays'⟩ :=
      h'.le_of_subset h hnd' (fun id => (hnear id).mp) fun id => (hsame id).mpr
    have heq := le_antisymm hle hge
    exact ⟨heq, fun id => ⟨hstays heq id, hstays' heq.symm id⟩⟩
  · rintro ⟨htop, hstays⟩ id
    rw [h.mem, h'.mem, htop, hnear, hstays]

end Agree

/-! ## The lists of a tie -/

section Blocks

variable {α : Type*} {xs ys L L' : List (List α)} {X V₁ V₂ : List α} {x : α}

/-- The list that an element of all lists comes from. -/
theorem exists_block (h : L.flatten = V₁ ++ x :: V₂) :
    ∃ xs X₁ X₂ ys, L = xs ++ (X₁ ++ x :: X₂) :: ys ∧ V₁ = xs.flatten ++ X₁ ∧
      V₂ = X₂ ++ ys.flatten := by
  induction L generalizing V₁ with
  | nil => exact absurd h.symm (List.append_ne_nil_of_right_ne_nil V₁ (List.cons_ne_nil x V₂))
  | cons Y L ih =>
    rw [List.flatten_cons] at h
    obtain ⟨a, rfl, ha⟩ | ⟨a, rfl, ha⟩ := List.append_eq_append_iff.mp h
    · obtain ⟨xs, X₁, X₂, ys, rfl, hV₁, hV₂⟩ := ih ha
      refine ⟨Y :: xs, X₁, X₂, ys, rfl, ?_, hV₂⟩
      rw [hV₁, List.flatten_cons, List.append_assoc]
    · cases a with
      | nil =>
        have hL : L.flatten = [] ++ x :: V₂ := ha.symm
        obtain ⟨xs, X₁, X₂, ys, rfl, hV₁, hV₂⟩ := ih hL
        refine ⟨(V₁ ++ []) :: xs, X₁, X₂, ys, rfl, ?_, hV₂⟩
        rw [List.flatten_cons, List.append_assoc, ← hV₁, List.append_nil, List.append_nil]
      | cons y a =>
        obtain ⟨rfl, rfl⟩ := List.cons.inj ha
        exact ⟨[], V₁, a, L, rfl, rfl, rfl⟩

/-- Lists that are equal up to order have equal positions. -/
theorem forall₂_block (h : List.Forall₂ List.Perm (xs ++ X :: ys) L) :
    ∃ xs' X' ys', L = xs' ++ X' :: ys' ∧ List.Forall₂ List.Perm xs xs' ∧ X.Perm X' ∧
      List.Forall₂ List.Perm ys ys' := by
  induction xs generalizing L with
  | nil =>
    obtain ⟨X', ys', hX, hys, rfl⟩ := List.forall₂_cons_left_iff.mp h
    exact ⟨[], X', ys', rfl, .nil, hX, hys⟩
  | cons Y xs ih =>
    obtain ⟨Y', L', hY, hL, rfl⟩ := List.forall₂_cons_left_iff.mp h
    obtain ⟨xs', X', ys', rfl, hxs, hX, hys⟩ := ih hL
    exact ⟨Y' :: xs', X', ys', rfl, .cons hY hxs, hX, hys⟩

theorem forall₂_perm_refl (L : List (List α)) : List.Forall₂ List.Perm L L :=
  List.forall₂_same.mpr fun X _ => List.Perm.refl X

theorem forall₂_perm_symm (h : List.Forall₂ List.Perm L L') : List.Forall₂ List.Perm L' L :=
  h.flip.imp fun _ _ hX => hX.symm

end Blocks

/-- The heap at the end, for the insert lists and the base. -/
def answer (k : ℕ) (lists : List (List (FT × Value))) (base : List (FT × Value)) :
    List (FT × Value) := checkBase k (run k lists.flatten) base

theorem Outcome.perm {W' Q : List (FT × Value)} {f t : ℕ} (hW : W.Perm W')
    (h : Outcome places d W V base Q f t) : Outcome places d W' V base Q f t where
  tied := (TiedId.perm hW).mp h.tied
  rank := tiedBelow_perm hW f ▸ h.rank
  top := h.top
  mem id := by
    have hall : (W ++ V ++ base).Perm (W' ++ V ++ base) := (hW.append_right V).append_right base
    rw [h.mem]
    unfold Stays NearId
    simp only [TiedId.perm hW, tiedBelow_perm hW, hall.mem_iff]

/-- The part of a list that fills the remaining places. -/
theorem exists_fill (d : FT) (p : List (FT × Value)) : ∀ m, m ≤ within d p →
    ∃ p₁ p₂, p = p₁ ++ p₂ ∧ within d p₁ = m ∧ (m = 0 → p₁ = []) := by
  induction p with
  | nil => exact fun m hm => ⟨[], [], rfl, (Nat.le_zero.mp hm).symm, fun _ => rfl⟩
  | cons c p ih =>
    intro m hm
    have hcons : ∀ p, within d (c :: p) = within d p + if c.1 ≤ d then 1 else 0 := fun p => by
      simp only [within, List.countP_cons, decide_eq_true_eq]
    rcases m with _ | m
    · exact ⟨[], c :: p, rfl, rfl, fun _ => rfl⟩
    · rw [hcons] at hm
      split_ifs at hm with hc
      · obtain ⟨p₁, p₂, rfl, hp₁, -⟩ := ih m (by omega)
        exact ⟨c :: p₁, p₂, rfl, by rw [hcons, hp₁, if_pos hc], fun h => absurd h (by omega)⟩
      · obtain ⟨p₁, p₂, rfl, hp₁, -⟩ := ih (m + 1) hm
        exact ⟨c :: p₁, p₂, rfl, by rw [hcons, hp₁, if_neg hc], fun h => absurd h (by omega)⟩

section Tie

variable {lists : List (List (FT × Value))} {Q p p₁ p₂ : List (FT × Value)}
  {zs : List (List (FT × Value))} {f t : ℕ}

/-- What an order of the lists of a tie leads to: `p₁` is the part of the crossing list that finds
room. -/
structure Tie.Answer (tie : Tie k lists base) (Q p₁ p₂ : List (FT × Value))
    (zs : List (List (FT × Value))) (f t : ℕ) : Prop where
  crossing : tie.crossing.Perm (p₁ ++ p₂)
  after : List.Forall₂ List.Perm tie.after zs
  fills : within tie.d tie.before.flatten + within tie.d p₁ = k
  none : within tie.d tie.before.flatten = k → p₁ = []
  outcome : Outcome tie.places tie.d (tie.before.flatten ++ p₁) (p₂ ++ zs.flatten) base Q f t

theorem Tie.flatten_eq (tie : Tie k lists base) :
    lists.flatten = tie.before.flatten ++ (tie.crossing ++ tie.after.flatten) := by
  refine (congrArg List.flatten tie.lists_eq).trans ?_
  rw [List.flatten_append, List.flatten_cons]

/-- Every order of the lists of a tie leads to an answer. -/
theorem Tie.exists_answer (tie : Tie k lists base)
    (hnd : ((lists.flatten ++ base).map fun c => c.2.id).Nodup)
    (hsorted : base.Pairwise fun a b => a.1 ≤ b.1) {as : List (List (FT × Value))}
    (has : List.Forall₂ List.Perm tie.before as) (hp : tie.crossing.Perm p)
    (hzs : List.Forall₂ List.Perm tie.after zs) :
    ∃ p₁ p₂ f t, p = p₁ ++ p₂ ∧ tie.Answer (answer k (as ++ p :: zs) base) p₁ p₂ zs f t := by
  have hbefore := List.Perm.flatten_congr has
  have hroom := tie.room
  have hfull := tie.full
  have hshort := tie.short
  rw [within_append] at hfull
  have hcross := within_perm hp tie.d
  obtain ⟨p₁, p₂, rfl, hfill, hnil⟩ :=
    exists_fill tie.d p (k - within tie.d tie.before.flatten) (by omega)
  have hall : (as.flatten ++ p₁ ++ (p₂ ++ zs.flatten)).Perm lists.flatten := by
    rw [tie.flatten_eq, List.append_assoc, ← List.append_assoc p₁]
    exact (hbefore.append (hp.append (List.Perm.flatten_congr hzs))).symm
  have hnd' : ((as.flatten ++ p₁).map fun c => c.2.id).Nodup := by
    have hflat : (lists.flatten.map fun c => c.2.id).Nodup := by
      rw [List.map_append] at hnd
      exact hnd.of_append_left
    have hnd' := (hall.map fun c => c.2.id).nodup_iff.mpr hflat
    rw [List.map_append] at hnd'
    exact hnd'.of_append_left
  have hW : within tie.d (as.flatten ++ p₁) = k := by
    rw [within_append, hfill, ← within_perm hbefore]
    omega
  have hplaces : nearer tie.d (as.flatten ++ p₁ ++ (p₂ ++ zs.flatten) ++ base) + tie.places = k := by
    have heq := nearer_perm (hall.append_right base) tie.d
    unfold Tie.places
    omega
  obtain ⟨f, t, hout⟩ := exists_outcome (by omega) hnd' hsorted hW hplaces
    (Nat.sub_pos_of_lt hshort)
  refine ⟨p₁, p₂, f, t, rfl, hp, hzs, by omega, fun h => hnil (by omega), ?_⟩
  have hflatten : (as ++ (p₁ ++ p₂) :: zs).flatten = as.flatten ++ p₁ ++ (p₂ ++ zs.flatten) := by
    simp only [List.flatten_append, List.flatten_cons, List.append_assoc]
  unfold answer
  rw [hflatten]
  exact hout.perm (hbefore.symm.append_right p₁)

variable {tie : Tie k lists base}

namespace Tie.Answer

theorem perm (h : tie.Answer Q p₁ p₂ zs f t) :
    (tie.before.flatten ++ p₁ ++ (p₂ ++ zs.flatten)).Perm lists.flatten := by
  have hflat : (p₁ ++ (p₂ ++ zs.flatten)).Perm (tie.crossing ++ tie.after.flatten) := by
    rw [← List.append_assoc]
    exact (h.crossing.append (List.Perm.flatten_congr h.after)).symm
  rw [List.append_assoc]
  exact (hflat.append_left _).trans (List.Perm.of_eq tie.flatten_eq.symm)

theorem nodup (h : tie.Answer Q p₁ p₂ zs f t)
    (hnd : ((lists.flatten ++ base).map fun c => c.2.id).Nodup) :
    ((tie.before.flatten ++ p₁ ++ (p₂ ++ zs.flatten) ++ base).map fun c => c.2.id).Nodup :=
  ((h.perm.append_right base).map _).nodup_iff.mpr hnd

/-- Not all values of the crossing list find room. -/
theorem rest_ne_nil (h : tie.Answer Q p₁ p₂ zs f t) : p₂ ≠ [] := by
  rintro rfl
  have hfull := tie.full
  have hfills := h.fills
  have hcross := within_perm h.crossing tie.d
  rw [within_append, hcross, List.append_nil] at hfull
  omega

/-- What comes late may be last. -/
theorem mayBeLast (h : tie.Answer Q p₁ p₂ zs f t) {id : ℕ}
    (hlate : Late tie.d (p₂ ++ zs.flatten) base id) : ∃ x, tie.MayBeLast x ∧ x.2.id = id := by
  obtain ⟨V₁, x, V₂, heq, hxd, hxid, hzero⟩ := hlate
  obtain ⟨xs, X₁, X₂, ys, hblock, -, rfl⟩ := exists_block (L := p₂ :: zs) heq
  rw [List.append_assoc, nearer_append] at hzero
  have hnil : nearer tie.d (ys.flatten ++ base) = 0 := by omega
  refine ⟨x, ?_, hxid⟩
  have hsame : List.Forall₂ List.Perm (xs ++ (X₁ ++ x :: X₂) :: ys) (p₂ :: zs) :=
    hblock ▸ forall₂_perm_refl _
  rcases xs with _ | ⟨Y, xs⟩
  · -- in the crossing list
    obtain ⟨rfl, rfl⟩ := List.cons.inj hblock
    refine ⟨[], tie.crossing, tie.after, rfl, h.crossing.mem_iff.mpr (by simp), hxd, ?_⟩
    have hflat := List.Perm.flatten_congr h.after
    exact (nearer_perm (hflat.append_right base) tie.d).trans hnil
  · obtain ⟨rfl, rfl⟩ := List.cons.inj hblock
    obtain ⟨xs', X', ys', hafter, -, hX, hys⟩ := forall₂_block (forall₂_perm_symm h.after)
    refine ⟨tie.crossing :: xs', X', ys', by rw [hafter]; rfl, hX.mem_iff.mp (by simp), hxd, ?_⟩
    have hflat := (List.Perm.flatten_congr hys).symm
    exact (nearer_perm (hflat.append_right base) tie.d).trans hnil

/-- A value of a later list that is last in every order comes late. -/
theorem late_of_last (h : tie.Answer Q p₁ p₂ zs f t) {z : FT × Value}
    {xs ys : List (List (FT × Value))} {X : List (FT × Value)} (hafter : tie.after = xs ++ X :: ys)
    (hz : z ∈ X) (hzd : z.1 = tie.d) (hzero : nearer tie.d (X ++ ys.flatten ++ base) = 0) :
    Late tie.d (p₂ ++ zs.flatten) base z.2.id := by
  obtain ⟨xs', X', ys', rfl, -, hX, hys⟩ := forall₂_block (hafter ▸ h.after)
  obtain ⟨X₁, X₂, rfl⟩ := List.append_of_mem (hX.mem_iff.mp hz)
  refine ⟨p₂ ++ (xs'.flatten ++ X₁), z, X₂ ++ ys'.flatten, ?_, hzd, rfl, ?_⟩
  · simp only [List.flatten_append, List.flatten_cons, List.append_assoc, List.cons_append]
  · have hperm : (X ++ ys.flatten ++ base).Perm (X₁ ++ z :: X₂ ++ ys'.flatten ++ base) :=
      (hX.append (List.Perm.flatten_congr hys)).append_right base
    have hcount := (nearer_perm hperm tie.d).symm.trans hzero
    simp only [nearer_append, nearer_cons] at hcount ⊢
    omega

theorem le_top (h : tie.Answer Q p₁ p₂ zs f t) : f ≤ t := h.outcome.top.2 (.inl rfl)

theorem late_le_top (h : tie.Answer Q p₁ p₂ zs f t) {id : ℕ}
    (hlate : Late tie.d (p₂ ++ zs.flatten) base id) : id ≤ t := h.outcome.top.2 (.inr hlate)

theorem tied_before_or (h : tie.Answer Q p₁ p₂ zs f t) :
    TiedId tie.d tie.before.flatten f ∨ ∃ x ∈ p₁, x.1 = tie.d ∧ x.2.id = f := by
  obtain ⟨c, hc, hcf⟩ := h.outcome.tied
  rcases List.mem_append.mp hc with hc | hc
  · exact .inl ⟨c, hc, hcf⟩
  · exact .inr ⟨c, hc, hcf⟩

/-! ### Settled ties -/

/-- While the list before leaves room, what holds of tied values of the crossing list holds of those
that find room. -/
theorem of_crossing (h : tie.Answer Q p₁ p₂ zs f t) {P : FT × Value → Prop}
    (hP : within tie.d tie.before.flatten < k → ∀ x ∈ tie.crossing, x.1 = tie.d → P x) :
    ∀ x ∈ p₁, x.1 = tie.d → P x := by
  intro x hx hxd
  refine hP (lt_of_le_of_ne tie.room fun heq => ?_) x ?_ hxd
  · rw [h.none heq] at hx
    exact absurd hx List.not_mem_nil
  · exact h.crossing.mem_iff.mpr (List.mem_append_left p₂ hx)

theorem stays_iff (h : tie.Answer Q p₁ p₂ zs f t) (hlow : tie.LowSettled) (id : ℕ) :
    Stays tie.places tie.d (tie.before.flatten ++ p₁) id ↔
      Stays tie.places tie.d tie.before.flatten id := by
  have hp₁ := h.of_crossing hlow
  unfold Stays
  rw [tiedBelow_append]
  constructor
  · rintro ⟨⟨c, hc, hcd, rfl⟩, hlt⟩
    refine ⟨⟨c, (List.mem_append.mp hc).resolve_right fun hc => ?_, hcd, rfl⟩, by omega⟩
    have := hp₁ c hc hcd
    omega
  · rintro ⟨hid, hlt⟩
    refine ⟨hid.mono (List.subset_append_left _ _), ?_⟩
    -- a value of the crossing list below this one would have too few values below it
    have hzero : tiedBelow tie.d p₁ id = 0 := by
      refine List.countP_eq_zero.mpr fun x hx hxid => ?_
      simp only [decide_eq_true_eq] at hxid
      have hle := hp₁ x hx hxid.1
      have hmono := tiedBelow_mono tie.d tie.before.flatten hxid.2.le
      omega
    omega

/-- Without nearer values to come, the top is the largest tied value of all. -/
theorem top_of_noneNearer (h : tie.Answer Q p₁ p₂ zs f t) (hnone : tie.NoneNearer) :
    IsGreatest {id | TiedId tie.d lists.flatten id} t := by
  have hflat := List.Perm.flatten_congr h.after
  have hcross := nearer_perm h.crossing tie.d
  have hafter := nearer_perm hflat tie.d
  have hall := nearer_perm h.perm.symm tie.d
  unfold NoneNearer at hnone
  rw [nearer_append, nearer_append, hcross, hafter, nearer_append] at hnone
  constructor
  · exact (TiedId.perm h.perm).mp h.outcome.top_tied
  · rintro id hid
    obtain ⟨c, hc, hcd, rfl⟩ := (TiedId.perm h.perm).mpr hid
    rcases List.mem_append.mp hc with hc | hc
    · -- all tied values of the full heap but one are below `f`
      refine le_trans (not_lt.mp fun hlt => ?_) h.le_top
      have hcount := TiedId.tiedBelow_lt_within (i := c.2.id) ⟨c, hc, hcd, rfl⟩
      have hrank := h.outcome.rank
      have habove := h.outcome.tied.tiedBelow_lt hlt
      have hfills := h.fills
      have hshort := tie.short
      unfold Tie.places at hrank
      rw [nearer_append, hall] at hrank hshort
      rw [within_append, nearer_append] at hcount
      simp only [nearer_append] at hrank hshort
      omega
    · obtain ⟨V₁, V₂, heq⟩ := List.append_of_mem hc
      refine h.late_le_top ⟨V₁, c, V₂, heq, hcd, rfl, ?_⟩
      have hcount := congrArg (nearer tie.d) heq
      simp only [nearer_append, nearer_cons] at hcount ⊢
      omega

/-- The value above those that stay, when it is a value of the lists before. -/
theorem first_of_before (h : tie.Answer Q p₁ p₂ zs f t)
    (hbefore : within tie.d tie.before.flatten < k → ∀ x ∈ tie.crossing, x.1 = tie.d →
      tie.places ≤ tiedBelow tie.d tie.before.flatten x.2.id) :
    TiedId tie.d tie.before.flatten f ∧ tiedBelow tie.d tie.before.flatten f + 1 = tie.places := by
  have hp₁ := h.of_crossing hbefore
  have hrank := h.outcome.rank
  rw [tiedBelow_append] at hrank
  have hf : TiedId tie.d tie.before.flatten f := by
    refine h.tied_before_or.resolve_right ?_
    rintro ⟨x, hx, hxd, rfl⟩
    have := hp₁ x hx hxd
    omega
  have hzero : tiedBelow tie.d p₁ f = 0 := by
    refine List.countP_eq_zero.mpr fun x hx hxid => ?_
    simp only [decide_eq_true_eq] at hxid
    have hle := hp₁ x hx hxid.1
    have hmono := tiedBelow_mono tie.d tie.before.flatten hxid.2.le
    omega
  exact ⟨hf, by omega⟩

theorem top_of_topBefore (h : tie.Answer Q p₁ p₂ zs f t) (hbefore : tie.TopBefore) :
    TiedId tie.d tie.before.flatten t ∧ tiedBelow tie.d tie.before.flatten t + 1 = tie.places := by
  obtain ⟨hf, hrank⟩ := h.first_of_before hbefore.1
  rcases h.outcome.top.1 with rfl | hlate
  · exact ⟨hf, hrank⟩
  · obtain ⟨x, hx, rfl⟩ := h.mayBeLast hlate
    have hlt := hbefore.2 x hx
    have hle : x.2.id ≤ f := not_lt.mp fun hfx => by
      have := hf.tiedBelow_lt hfx
      omega
    rw [le_antisymm hle h.le_top]
    exact ⟨hf, hrank⟩

/-- A value that outranks the heap is above the ones that stay and the next one. -/
theorem lt_of_outranks (h : tie.Answer Q p₁ p₂ zs f t) {z : FT × Value} (hz : tie.Outranks z) :
    f < z.2.id := by
  refine lt_of_tiedBelow_lt (d := tie.d) (W := tie.before.flatten ++ p₁) ?_
  have hrank := h.outcome.rank
  rw [tiedBelow_append] at hrank ⊢
  rw [tiedBelow_append]
  rcases hz with hz | hz
  · omega
  · have hfills := h.fills
    have hcross := within_perm h.crossing tie.d
    have hbelow : tiedBelow tie.d tie.crossing z.2.id = tiedBelow tie.d (p₁ ++ p₂) z.2.id :=
      tiedBelow_perm h.crossing z.2.id
    rw [within_append, tiedBelow_append, hcross, hbelow, within_append, tiedBelow_append] at hz
    have h₁ := tiedBelow_add_nearer_le tie.d tie.before.flatten z.2.id
    have h₂ := tiedBelow_add_nearer_le tie.d p₁ z.2.id
    have h₃ := tiedBelow_add_nearer_le tie.d p₂ z.2.id
    omega

theorem same_iff {Q' p₁' p₂' : List (FT × Value)} {zs' : List (List (FT × Value))} {f' t' : ℕ}
    (h : tie.Answer Q p₁ p₂ zs f t) (h' : tie.Answer Q' p₁' p₂' zs' f' t')
    (hnd : ((lists.flatten ++ base).map fun c => c.2.id).Nodup) :
    (∀ id, id ∈ Q.map (fun c => c.2.id) ↔ id ∈ Q'.map fun c => c.2.id) ↔
      climb tie.d t (beyond tie.d base) = climb tie.d t' (beyond tie.d base) ∧
        ∀ id, Stays tie.places tie.d (tie.before.flatten ++ p₁) id ↔
          Stays tie.places tie.d (tie.before.flatten ++ p₁') id :=
  h.outcome.same_iff h'.outcome (h.perm.trans h'.perm.symm) (h.nodup hnd)

/-- The top is not a value of the base. -/
theorem top_ne (h : tie.Answer Q p₁ p₂ zs f t)
    (hnd : ((lists.flatten ++ base).map fun c => c.2.id).Nodup) {z : FT × Value} (hz : z ∈ base) :
    t ≠ z.2.id := by
  rintro rfl
  obtain ⟨c, hc, -, hcid⟩ := (TiedId.perm h.perm).mp h.outcome.top_tied
  rw [List.map_append] at hnd
  exact List.disjoint_of_nodup_append hnd (List.mem_map_of_mem hc)
    (by rw [hcid]; exact List.mem_map_of_mem hz)

end Tie.Answer

/-- The first value of a sorted base at a distance is the first one behind the nearer values. -/
theorem find?_eq_some_iff (hsorted : base.Pairwise fun a b => a.1 ≤ b.1) {z : FT × Value} :
    base.find? (fun c => c.1 = d) = some z ↔ z.1 = d ∧ ∃ rest, beyond d base = z :: rest := by
  obtain ⟨hbase, hfar⟩ := base_split (d := d) hsorted
  have hnone : (base.filter fun c => c.1 < d).find? (fun c => c.1 = d) = none := by
    refine List.find?_eq_none.mpr fun c hc => ?_
    simpa using (of_decide_eq_true (List.mem_filter.mp hc).2 : c.1 < d).ne
  have hfind : base.find? (fun c => c.1 = d) = (beyond d base).find? fun c => c.1 = d := by
    conv_lhs => rw [hbase]
    rw [List.find?_append, hnone, Option.none_or]
  have hsorted' : (beyond d base).Pairwise fun a b => a.1 ≤ b.1 :=
    hsorted.sublist (List.dropWhile_sublist _)
  rw [hfind]
  constructor
  · intro hz
    have hzd : z.1 = d := by simpa using List.find?_some hz
    refine ⟨hzd, ?_⟩
    cases hb : beyond d base with
    | nil => simp [hb] at hz
    | cons c rest =>
      rw [hb] at hz hfar hsorted'
      by_cases hc : c.1 = d
      · rw [List.find?_cons_of_pos (by simpa using hc)] at hz
        exact ⟨rest, by rw [Option.some.inj hz]⟩
      · -- behind a farther value all are farther
        rw [List.find?_cons_of_neg (by simpa using hc)] at hz
        have hcz := (List.pairwise_cons.mp hsorted').1 z (List.mem_of_find?_eq_some hz)
        exact absurd (le_antisymm (hcz.trans hzd.le) (hfar c List.mem_cons_self)) hc
  · rintro ⟨hzd, rest, hb⟩
    rw [hb, List.find?_cons_of_pos (by simpa using hzd)]

/-- With a value that is last in every order, outranks the heap and is not exceeded by another one
that may be last, the end of the queries is the same. -/
theorem Tie.Answer.climb_of_topLast {Q' p₁' p₂' : List (FT × Value)}
    {zs' : List (List (FT × Value))} {f' t' : ℕ} (h : tie.Answer Q p₁ p₂ zs f t)
    (h' : tie.Answer Q' p₁' p₂' zs' f' t')
    (hnd : ((lists.flatten ++ base).map fun c => c.2.id).Nodup)
    (hsorted : base.Pairwise fun a b => a.1 ≤ b.1) (htop : tie.TopLast) :
    climb tie.d t (beyond tie.d base) = climb tie.d t' (beyond tie.d base) := by
  obtain ⟨z, hz, hout, hmax⟩ := htop
  have hle : ∀ {Q p₁ p₂ : List (FT × Value)} {zs : List (List (FT × Value))} {f t : ℕ},
      tie.Answer Q p₁ p₂ zs f t → t ≤ z.2.id := by
    intro Q p₁ p₂ zs f t h
    rcases h.outcome.top.1 with rfl | hlate
    · exact (h.lt_of_outranks hout).le
    · obtain ⟨x, hx, rfl⟩ := h.mayBeLast hlate
      exact hmax x hx
  rcases hz with ⟨xs, X, ys, hafter, hzX, hzd, hzero⟩ | hfind
  · have ht := le_antisymm (hle h) (h.late_le_top (h.late_of_last hafter hzX hzd hzero))
    have ht' := le_antisymm (hle h') (h'.late_le_top (h'.late_of_last hafter hzX hzd hzero))
    rw [ht, ht']
  · have hzbase := List.mem_of_find?_eq_some hfind
    obtain ⟨hzd, rest, hbeyond⟩ := (find?_eq_some_iff hsorted).mp hfind
    have hlt := lt_of_le_of_ne (hle h) (h.top_ne hnd hzbase)
    have hlt' := lt_of_le_of_ne (hle h') (h'.top_ne hnd hzbase)
    rw [hbeyond, climb, climb, if_pos ⟨hzd, hlt⟩, if_pos ⟨hzd, hlt'⟩]

/-- A settled tie has the same answer in every order of its lists. -/
theorem Tie.Settled.same (hset : tie.Settled)
    (hnd : ((lists.flatten ++ base).map fun c => c.2.id).Nodup)
    (hsorted : base.Pairwise fun a b => a.1 ≤ b.1) {lists' : List (List (FT × Value))}
    (hlists : List.Forall₂ List.Perm lists lists') (id : ℕ) :
    id ∈ (answer k lists base).map (fun c => c.2.id) ↔
      id ∈ (answer k lists' base).map fun c => c.2.id := by
  have hlists' : List.Forall₂ List.Perm (tie.before ++ tie.crossing :: tie.after) lists' := by
    have heq := tie.lists_eq
    generalize tie.before ++ tie.crossing :: tie.after = L at heq
    exact heq ▸ hlists
  obtain ⟨as, p, zs, rfl, has, hp, hzs⟩ := forall₂_block hlists'
  obtain ⟨p₁, p₂, f, t, -, h⟩ := tie.exists_answer hnd hsorted (forall₂_perm_refl tie.before)
    (List.Perm.refl tie.crossing) (forall₂_perm_refl tie.after)
  obtain ⟨p₁', p₂', f', t', -, h'⟩ := tie.exists_answer hnd hsorted has hp hzs
  rw [congrArg (answer k · base) tie.lists_eq]
  refine (h.same_iff h' hnd).mpr ⟨?_, fun id => ?_⟩ id
  · rcases hset.top with hnone | hbefore | hlast
    · rw [(h.top_of_noneNearer hnone).unique (h'.top_of_noneNearer hnone)]
    · obtain ⟨htied, hrank⟩ := h.top_of_topBefore hbefore
      obtain ⟨htied', hrank'⟩ := h'.top_of_topBefore hbefore
      rcases lt_trichotomy t t' with hlt | rfl | hlt
      · have := htied.tiedBelow_lt hlt
        omega
      · rfl
      · have := htied'.tiedBelow_lt hlt
        omega
    · exact h.climb_of_topLast h' hnd hsorted hlast
  · rw [h.stays_iff hset.low, h'.stays_iff hset.low]

/-! ### Ties with one answer -/

/-- All orders of the crossing list and of the later ones end alike. -/
def Tie.Constant (tie : Tie k lists base) (top : ℕ) (stays : ℕ → Prop) : Prop :=
  ∀ p zs, tie.crossing.Perm p → List.Forall₂ List.Perm tie.after zs →
    ∃ p₁ p₂ f t, p = p₁ ++ p₂ ∧ tie.Answer (answer k (tie.before ++ p :: zs) base) p₁ p₂ zs f t ∧
      climb tie.d t (beyond tie.d base) = top ∧
        ∀ id, Stays tie.places tie.d (tie.before.flatten ++ p₁) id ↔ stays id

theorem Tie.constant_of_same (tie : Tie k lists base)
    (hnd : ((lists.flatten ++ base).map fun c => c.2.id).Nodup)
    (hsorted : base.Pairwise fun a b => a.1 ≤ b.1)
    (hsame : ∀ lists', List.Forall₂ List.Perm lists lists' → ∀ id,
      id ∈ (answer k lists base).map (fun c => c.2.id) ↔
        id ∈ (answer k lists' base).map fun c => c.2.id) :
    ∃ top stays, tie.Constant top stays := by
  obtain ⟨p₁, p₂, f, t, -, h⟩ := tie.exists_answer hnd hsorted (forall₂_perm_refl tie.before)
    (List.Perm.refl tie.crossing) (forall₂_perm_refl tie.after)
  refine ⟨climb tie.d t (beyond tie.d base),
    Stays tie.places tie.d (tie.before.flatten ++ p₁), fun p zs hp hzs => ?_⟩
  obtain ⟨p₁', p₂', f', t', hsplit, h'⟩ :=
    tie.exists_answer hnd hsorted (forall₂_perm_refl tie.before) hp hzs
  have hlists : List.Forall₂ List.Perm lists (tie.before ++ p :: zs) :=
    (congrArg (List.Forall₂ List.Perm · (tie.before ++ p :: zs)) tie.lists_eq).mpr
      (List.rel_append (forall₂_perm_refl tie.before) (.cons hp hzs))
  obtain ⟨htop, hstays⟩ := (h.same_iff h' hnd).mp fun id => by
    rw [← congrArg (answer k · base) tie.lists_eq]
    exact hsame _ hlists id
  exact ⟨p₁', p₂', f', t', hsplit, h', htop.symm, fun id => (hstays id).symm⟩

/-- The tied value of a list with the smallest identifier. -/
theorem exists_least {x : FT × Value} (hx : x ∈ p) (hxd : x.1 = d) :
    ∃ y ∈ p, y.1 = d ∧ ∀ c ∈ p, c.1 = d → y.2.id ≤ c.2.id := by
  obtain ⟨y, hy, hmin⟩ := (p.filter fun c => c.1 = d).toFinset.exists_min_image (fun c => c.2.id)
    ⟨x, List.mem_toFinset.mpr (List.mem_filter.mpr ⟨hx, decide_eq_true hxd⟩)⟩
  obtain ⟨hyp, hyd⟩ := List.mem_filter.mp (List.mem_toFinset.mp hy)
  refine ⟨y, hyp, of_decide_eq_true hyd, fun c hc hcd => hmin c ?_⟩
  exact List.mem_toFinset.mpr (List.mem_filter.mpr ⟨hc, decide_eq_true hcd⟩)

namespace Tie.Answer

/-- The first value of the crossing list finds room. -/
theorem first_mem (h : tie.Answer Q p₁ p₂ zs f t) (hroom : within tie.d tie.before.flatten < k)
    {x : FT × Value} {rest : List (FT × Value)} (hp : x :: rest = p₁ ++ p₂) : x ∈ p₁ := by
  have hfills := h.fills
  cases p₁ with
  | nil => simp only [within, List.countP_nil] at hfills hroom; omega
  | cons y p₁ =>
    rw [(List.cons.inj hp).1]
    exact List.mem_cons_self

/-- The last value of the crossing list does not. -/
theorem last_mem (h : tie.Answer Q p₁ p₂ zs f t) {x : FT × Value} {rest : List (FT × Value)}
    (hp : rest ++ [x] = p₁ ++ p₂) : ∃ p₂', p₂ = p₂' ++ [x] := by
  obtain hnil | ⟨p₂', y, rfl⟩ := List.eq_nil_or_concat' p₂
  · exact absurd hnil h.rest_ne_nil
  · rw [← List.append_assoc] at hp
    exact ⟨p₂', by rw [List.append_inj_right' hp rfl]⟩

/-- What does not find room is not among the values that fill the heap. -/
theorem not_tied (h : tie.Answer Q p₁ p₂ zs f t)
    (hnd : ((lists.flatten ++ base).map fun c => c.2.id).Nodup) {x : FT × Value}
    (hx : x ∈ p₂ ++ zs.flatten ++ base) : ¬TiedId tie.d (tie.before.flatten ++ p₁) x.2.id := by
  rintro ⟨c, hc, -, hcid⟩
  have hnodup := h.nodup hnd
  rw [List.append_assoc, List.map_append] at hnodup
  exact List.disjoint_of_nodup_append hnodup (List.mem_map_of_mem hc)
    (by rw [hcid]; exact List.mem_map_of_mem hx)

/-- No value that finds room is below the smallest tied one of the crossing list. -/
theorem tiedBelow_least (h : tie.Answer Q p₁ p₂ zs f t) {x : FT × Value}
    (hleast : ∀ c ∈ tie.crossing, c.1 = tie.d → x.2.id ≤ c.2.id) :
    tiedBelow tie.d (tie.before.flatten ++ p₁) x.2.id =
      tiedBelow tie.d tie.before.flatten x.2.id := by
  rw [tiedBelow_append, Nat.add_eq_left]
  refine List.countP_eq_zero.mpr fun c hc hcx => ?_
  simp only [decide_eq_true_eq] at hcx
  have hle := hleast c (h.crossing.mem_iff.mpr (List.mem_append_left p₂ hc)) hcx.1
  omega

/-- When the tied values below `z` come last in the crossing list, a value that does not outrank the
heap keeps its rank. -/
theorem tiedBelow_lt_places (h : tie.Answer Q p₁ p₂ zs f t) {U L : List (FT × Value)} {id : ℕ}
    (hp : U ++ L = p₁ ++ p₂) (hU : tiedBelow tie.d U id = 0)
    (hL : ∀ c ∈ L, c.1 = tie.d ∧ c.2.id < id)
    (hbefore : tiedBelow tie.d tie.before.flatten id < tie.places)
    (hall : k < within tie.d (tie.before.flatten ++ tie.crossing) -
      tiedBelow tie.d (tie.before.flatten ++ tie.crossing) id + tie.places) :
    tiedBelow tie.d (tie.before.flatten ++ p₁) id < tie.places := by
  have hfills := h.fills
  have hcross : within tie.d tie.crossing = within tie.d (U ++ L) := hp ▸ within_perm h.crossing tie.d
  have hbelow : tiedBelow tie.d tie.crossing id = tiedBelow tie.d (U ++ L) id :=
    hp ▸ tiedBelow_perm h.crossing id
  have hlow : ∀ L' ⊆ L, within tie.d L' = tiedBelow tie.d L' id := by
    intro L' hsub
    refine List.countP_congr fun c hc => ?_
    obtain ⟨hcd, hcid⟩ := hL c (hsub hc)
    simp [hcd, hcid]
  rw [within_append, tiedBelow_append, hcross, hbelow, within_append, tiedBelow_append,
    hlow L (List.Subset.refl L), hU] at hall
  rw [tiedBelow_append]
  obtain ⟨a, rfl, rfl⟩ | ⟨a, rfl, rfl⟩ := List.append_eq_append_iff.mp hp
  · -- all that are not below find room
    have ha := hlow a (List.subset_append_left a p₂)
    have hb := tiedBelow_add_nearer_le tie.d tie.before.flatten id
    rw [within_append, ha] at hfills
    rw [tiedBelow_append, hU]
    omega
  · rw [tiedBelow_append] at hU
    omega

/-- A value that is last in every order is not one that fills the heap. -/
theorem last_mem_rest (h : tie.Answer Q p₁ p₂ zs f t) {z : FT × Value} (hz : tie.IsLast z) :
    z ∈ p₂ ++ zs.flatten ++ base := by
  rcases hz with ⟨xs, X, ys, hafter, hzX, -⟩ | hfind
  · have hmem : z ∈ zs.flatten := by
      rw [← (List.Perm.flatten_congr h.after).mem_iff, hafter]
      simp [hzX]
    simp [hmem]
  · exact List.mem_append_right _ (List.mem_of_find?_eq_some hfind)

/-- Two tied values of the full heap with the same rank are the same. -/
theorem eq_first_of_rank (h : tie.Answer Q p₁ p₂ zs f t) {id : ℕ}
    (hid : TiedId tie.d (tie.before.flatten ++ p₁) id)
    (hrank : tiedBelow tie.d (tie.before.flatten ++ p₁) id + 1 = tie.places) : f = id := by
  have hf := h.outcome.rank
  rcases lt_trichotomy f id with hlt | heq | hlt
  · have := h.outcome.tied.tiedBelow_lt hlt
    omega
  · exact heq
  · have := hid.tiedBelow_lt hlt
    omega

end Tie.Answer

/-- A value that may be last comes last in some order. -/
theorem Tie.exists_last (tie : Tie k lists base) {x : FT × Value} (hx : tie.MayBeLast x) :
    ∃ p zs, tie.crossing.Perm p ∧ List.Forall₂ List.Perm tie.after zs ∧
      ∀ {Q p₁ p₂ f t}, p = p₁ ++ p₂ → tie.Answer Q p₁ p₂ zs f t → x.2.id ≤ t := by
  obtain ⟨xs, X, ys, hlists, hxX, hxd, hzero⟩ := hx
  obtain ⟨X₁, X₂, rfl⟩ := List.append_of_mem hxX
  have hX : (X₁ ++ x :: X₂).Perm (X₁ ++ X₂ ++ [x]) :=
    List.perm_middle.trans (List.perm_append_singleton x _).symm
  rcases xs with _ | ⟨Y, xs⟩
  · obtain ⟨hcross, hafter⟩ := List.cons.inj hlists
    refine ⟨X₁ ++ X₂ ++ [x], tie.after, hcross ▸ hX, forall₂_perm_refl _, fun hp h => ?_⟩
    obtain ⟨p₂', rfl⟩ := h.last_mem hp
    refine h.late_le_top ⟨p₂', x, tie.after.flatten, ?_, hxd, rfl, hafter ▸ hzero⟩
    rw [List.append_assoc, List.singleton_append]
  · obtain ⟨-, hafter⟩ := List.cons.inj hlists
    refine ⟨tie.crossing, xs ++ (X₁ ++ X₂ ++ [x]) :: ys, List.Perm.refl _, ?_, ?_⟩
    · rw [hafter]
      exact List.rel_append (forall₂_perm_refl xs) (.cons hX (forall₂_perm_refl ys))
    · intro Q p₁ p₂ f t _ h
      refine h.late_le_top ⟨p₂ ++ xs.flatten ++ X₁ ++ X₂, x, ys.flatten, ?_, hxd, rfl, hzero⟩
      simp only [List.flatten_append, List.flatten_cons, List.append_assoc, List.singleton_append]

/-- The tied values below an identifier go to the end. -/
theorem exists_below_last (d : FT) (p : List (FT × Value)) (id : ℕ) :
    ∃ U L, p.Perm (U ++ L) ∧ tiedBelow d U id = 0 ∧ ∀ c ∈ L, c.1 = d ∧ c.2.id < id := by
  refine ⟨p.filter fun c => !decide (c.1 = d ∧ c.2.id < id), p.filter fun c => c.1 = d ∧ c.2.id < id,
    ?_, ?_, fun c hc => of_decide_eq_true (List.mem_filter.mp hc).2⟩
  · exact ((List.filter_append_perm _ p).symm.trans List.perm_append_comm)
  · refine List.countP_eq_zero.mpr fun c hc hcid => ?_
    have := (List.mem_filter.mp hc).2
    rw [hcid] at this
    exact absurd this (by decide)

/-! ### Orders with the nearer values last -/

/-- Nearer values come last. -/
def Quiet (d : FT) (L : List (FT × Value)) : Prop := L.Pairwise fun a b => a.1 < d → b.1 < d

/-- Nearer values to the end. -/
def quietly (d : FT) (L : List (FT × Value)) : List (FT × Value) :=
  (L.filter fun c => !decide (c.1 < d)) ++ L.filter fun c => c.1 < d

theorem quietly_perm (d : FT) (L : List (FT × Value)) : L.Perm (quietly d L) :=
  (List.filter_append_perm _ L).symm.trans List.perm_append_comm

theorem quiet_quietly (d : FT) (L : List (FT × Value)) : Quiet d (quietly d L) := by
  refine List.pairwise_append.mpr ⟨?_, ?_, fun a _ b hb _ => ?_⟩
  · refine List.pairwise_of_forall_mem_list fun a ha b _ had => ?_
    have hnot := (List.mem_filter.mp ha).2
    simp only [Bool.not_eq_true', decide_eq_false_iff_not] at hnot
    exact absurd had hnot
  · exact List.pairwise_of_forall_mem_list fun a _ b hb _ =>
      of_decide_eq_true (List.mem_filter.mp hb).2
  · exact of_decide_eq_true (List.mem_filter.mp hb).2

/-- If none comes behind a tied value, there is none. -/
theorem Quiet.nearer_eq_zero {X₁ X₂ : List (FT × Value)} {x : FT × Value}
    (h : Quiet d (X₁ ++ x :: X₂)) (hx : x.1 = d) (hzero : nearer d X₂ = 0) :
    nearer d (X₁ ++ x :: X₂) = 0 := by
  have hX₁ : nearer d X₁ = 0 := by
    refine List.countP_eq_zero.mpr fun c hc hcd => ?_
    have := (List.pairwise_append.mp h).2.2 c hc x List.mem_cons_self (of_decide_eq_true hcd)
    exact this.ne hx
  rw [nearer_append, nearer_cons, if_neg (by rw [hx]; exact lt_irrefl d)]
  omega

/-- In such an order only values that are last in every order come late. -/
theorem Tie.Answer.top_of_quiet (h : tie.Answer Q p₁ p₂ zs f t) (hp : Quiet tie.d (p₁ ++ p₂))
    (hzs : ∀ X ∈ zs, Quiet tie.d X) (hnone : ¬tie.NoneNearer)
    (hlast : ∀ z, tie.IsLast z → z.2.id < t) : t = f := by
  rcases h.outcome.top.1 with heq | ⟨V₁, x, V₂, heq, hxd, rfl, hzero⟩
  · exact heq
  · exfalso
    obtain ⟨xs, X₁, X₂, ys, hblock, -, rfl⟩ := exists_block (L := p₂ :: zs) heq
    simp only [nearer_append] at hzero
    rcases xs with _ | ⟨Y, xs⟩
    · obtain ⟨rfl, rfl⟩ := List.cons.inj hblock
      rw [← List.append_assoc] at hp
      have hquiet := hp.nearer_eq_zero hxd (by omega)
      rw [List.append_assoc] at hquiet
      have hcross := (nearer_perm h.crossing tie.d).trans hquiet
      have hafter := nearer_perm (List.Perm.flatten_congr h.after) tie.d
      refine hnone ?_
      unfold Tie.NoneNearer
      rw [nearer_append, nearer_append, hcross, hafter]
      omega
    · obtain ⟨rfl, rfl⟩ := List.cons.inj hblock
      have hquiet := (hzs (X₁ ++ x :: X₂) (by simp)).nearer_eq_zero hxd (by omega)
      obtain ⟨xs', X', ys', hafter, -, hX, hys⟩ := forall₂_block (forall₂_perm_symm h.after)
      refine lt_irrefl _ (hlast x (.inl ⟨xs', X', ys', hafter, hX.mem_iff.mp (by simp), hxd, ?_⟩))
      have hX' := (nearer_perm hX.symm tie.d).trans hquiet
      have hys' := nearer_perm (List.Perm.flatten_congr hys).symm tie.d
      rw [nearer_append, nearer_append, hX', hys']
      omega

theorem forall₂_quietly (d : FT) (L : List (List (FT × Value))) :
    List.Forall₂ List.Perm L (L.map (quietly d)) :=
  List.forall₂_map_right_iff.mpr (List.forall₂_same.mpr fun X _ => quietly_perm d X)

section Constant

variable {top : ℕ} {stays : ℕ → Prop}

/-- If all orders end alike, the values below the top come from the lists before. -/
theorem Tie.Constant.low (hc : tie.Constant top stays)
    (hnd : ((lists.flatten ++ base).map fun c => c.2.id).Nodup) : tie.LowSettled := by
  intro hroom x hx hxd
  obtain ⟨y, hy, hyd, hleast⟩ := exists_least hx hxd
  have hmono := tiedBelow_mono tie.d tie.before.flatten (hleast x hx hxd)
  by_contra hlow
  obtain ⟨C₁, C₂, hC⟩ := List.append_of_mem hy
  -- the smallest value first stays, last it does not
  have hfirst : tie.crossing.Perm (y :: (C₁ ++ C₂)) := by
    rw [hC]
    exact List.perm_middle
  obtain ⟨p₁, p₂, f, t, hp, h, -, hstays⟩ := hc _ _ hfirst (forall₂_perm_refl _)
  obtain ⟨p₁', p₂', f', t', hp', h', -, hstays'⟩ := hc (C₁ ++ C₂ ++ [y]) _
    (hfirst.trans (List.perm_append_singleton y _).symm) (forall₂_perm_refl _)
  have hmem : Stays tie.places tie.d (tie.before.flatten ++ p₁) y.2.id := by
    refine ⟨⟨y, List.mem_append_right _ (h.first_mem hroom hp), hyd, rfl⟩, ?_⟩
    rw [h.tiedBelow_least hleast]
    omega
  have hmem' := (hstays' _).mpr ((hstays _).mp hmem)
  obtain ⟨p₂'', rfl⟩ := h'.last_mem hp'
  exact h'.not_tied hnd (x := y) (by simp) hmem'.1

/-- Some order ends with a top above a value that is last in every order, unless that value settles the
tie. -/
theorem Tie.Constant.exists_above (hc : tie.Constant top stays)
    (hnd : ((lists.flatten ++ base).map fun c => c.2.id).Nodup) (hnot : ¬tie.TopLast)
    {z : FT × Value} (hz : tie.IsLast z) :
    ∃ Q p₁ p₂ zs f t, tie.Answer Q p₁ p₂ zs f t ∧ climb tie.d t (beyond tie.d base) = top ∧
      z.2.id < t := by
  by_cases hout : tie.Outranks z
  · -- another value may be last
    obtain ⟨x, hx, hzx⟩ : ∃ x, tie.MayBeLast x ∧ z.2.id < x.2.id := by
      by_contra hno
      push Not at hno
      exact hnot ⟨z, hz, hout, hno⟩
    obtain ⟨p, zs, hp, hzs, hlast⟩ := tie.exists_last hx
    obtain ⟨p₁, p₂, f, t, rfl, h, htop, -⟩ := hc p zs hp hzs
    exact ⟨_, p₁, p₂, zs, f, t, h, htop, hzx.trans_le (hlast rfl h)⟩
  · -- the values that are not below `z` come first
    unfold Tie.Outranks at hout
    push Not at hout
    obtain ⟨U, L, hp, hU, hL⟩ := exists_below_last tie.d tie.crossing z.2.id
    obtain ⟨p₁, p₂, f, t, hsplit, h, htop, -⟩ := hc _ _ hp (forall₂_perm_refl _)
    refine ⟨_, p₁, p₂, _, f, t, h, htop, lt_of_lt_of_le ?_ h.le_top⟩
    have hrank := h.outcome.rank
    have hlt := h.tiedBelow_lt_places hsplit hU hL hout.1 hout.2
    rcases lt_trichotomy z.2.id f with hzf | hzf | hzf
    · exact hzf
    · exact absurd (hzf ▸ h.outcome.tied) (h.not_tied hnd (h.last_mem_rest hz))
    · have := h.outcome.tied.tiedBelow_lt hzf
      omega

/-- All orders end with the same top, which the base does not change and which is above all values that
are last in every order. -/
theorem Tie.Constant.top_eq (hc : tie.Constant top stays)
    (hnd : ((lists.flatten ++ base).map fun c => c.2.id).Nodup)
    (hsorted : base.Pairwise fun a b => a.1 ≤ b.1) (hnot : ¬tie.TopLast)
    (htop : climb tie.d t (beyond tie.d base) = top) : t = top := by
  cases hb : beyond tie.d base with
  | nil =>
    rw [hb] at htop
    exact htop
  | cons z rest =>
    by_cases hup : z.1 = tie.d ∧ t < z.2.id
    · -- the top of another order is above `z`, so it is no value of the base
      have hlast : tie.IsLast z := .inr ((find?_eq_some_iff hsorted).mpr ⟨hup.1, rest, hb⟩)
      obtain ⟨Q', p₁', p₂', zs', f', t', h', htop', hz⟩ := hc.exists_above hnd hnot hlast
      rw [hb, climb, if_pos hup] at htop
      rw [hb, climb, if_neg fun hup' => absurd hup'.2 hz.not_gt] at htop'
      exfalso
      have hsub : z :: rest ⊆ base := hb ▸ (List.dropWhile_sublist _).subset
      rcases climb_eq_or_mem (d := tie.d) rest z.2.id with heq | ⟨c, hcr, -, hcid⟩
      · exact h'.top_ne hnd (hsub List.mem_cons_self) (htop'.trans (htop.symm.trans heq))
      · exact h'.top_ne hnd (hsub (List.mem_cons_of_mem z hcr))
          (htop'.trans (htop.symm.trans hcid.symm))
    · rw [hb, climb, if_neg hup] at htop
      exact htop

/-- An order with the nearer values last ends with the value above those that stay. -/
theorem Tie.Constant.quiet (hc : tie.Constant top stays)
    (hnd : ((lists.flatten ++ base).map fun c => c.2.id).Nodup)
    (hsorted : base.Pairwise fun a b => a.1 ≤ b.1) (hnone : ¬tie.NoneNearer)
    (hnot : ¬tie.TopLast) (hp : tie.crossing.Perm p) (hquiet : Quiet tie.d p) :
    ∃ Q p₁ p₂ zs t, p = p₁ ++ p₂ ∧ tie.Answer Q p₁ p₂ zs top t := by
  obtain ⟨p₁, p₂, f, t, rfl, h, htop, -⟩ := hc p _ hp (forall₂_quietly tie.d tie.after)
  have ht := hc.top_eq hnd hsorted hnot htop
  have htf : t = f := by
    refine h.top_of_quiet hquiet (fun X hX => ?_) hnone fun z hz => ?_
    · obtain ⟨Y, -, rfl⟩ := List.mem_map.mp hX
      exact quiet_quietly tie.d Y
    · obtain ⟨Q', p₁', p₂', zs', f', t', h', htop', hlt⟩ := hc.exists_above hnd hnot hz
      rw [hc.top_eq hnd hsorted hnot htop'] at hlt
      rwa [ht]
  obtain rfl : f = top := htf.symm.trans ht
  exact ⟨_, p₁, p₂, _, t, rfl, h⟩

/-- If all orders end alike, the top is settled, too. -/
theorem Tie.Constant.topBefore (hc : tie.Constant top stays)
    (hnd : ((lists.flatten ++ base).map fun c => c.2.id).Nodup)
    (hsorted : base.Pairwise fun a b => a.1 ≤ b.1) (hnone : ¬tie.NoneNearer)
    (hnot : ¬tie.TopLast) : tie.TopBefore := by
  have hbefore : within tie.d tie.before.flatten < k → ∀ x ∈ tie.crossing, x.1 = tie.d →
      tie.places ≤ tiedBelow tie.d tie.before.flatten x.2.id := by
    intro hroom x hx hxd
    obtain ⟨y, hy, hyd, hleast⟩ := exists_least hx hxd
    refine le_trans ?_ (tiedBelow_mono tie.d tie.before.flatten (hleast x hx hxd))
    by_contra hlt
    have hlow := hc.low hnd hroom y hy hyd
    obtain ⟨C₁, C₂, hC⟩ := List.append_of_mem hy
    have hfirst : tie.crossing.Perm (y :: (C₁ ++ C₂)) := by
      rw [hC]
      exact List.perm_middle
    -- the smallest value is the top when it comes first
    have hquiet : Quiet tie.d (y :: quietly tie.d (C₁ ++ C₂)) :=
      List.pairwise_cons.mpr ⟨fun b _ hyd' => absurd hyd hyd'.ne, quiet_quietly _ _⟩
    obtain ⟨Q, p₁, p₂, zs, t, hp, h⟩ := hc.quiet hnd hsorted hnone hnot
      (hfirst.trans ((quietly_perm tie.d _).cons y)) hquiet
    have htop : top = y.2.id := by
      refine h.eq_first_of_rank ⟨y, List.mem_append_right _ (h.first_mem hroom hp), hyd, rfl⟩ ?_
      rw [h.tiedBelow_least hleast]
      omega
    -- when it comes last, the top is larger
    obtain ⟨p₁', p₂', f', t', hp', h', htop', -⟩ := hc (C₁ ++ C₂ ++ [y]) _
      (hfirst.trans (List.perm_append_singleton y _).symm) (forall₂_perm_refl _)
    obtain ⟨p₂'', rfl⟩ := h'.last_mem hp'
    have hrank := h'.outcome.rank
    have hleast' := h'.tiedBelow_least hleast
    have hle := h'.le_top
    rw [hc.top_eq hnd hsorted hnot htop', htop] at hle
    rcases hle.lt_or_eq with hlt | heq
    · have := h'.outcome.tied.tiedBelow_lt hlt
      omega
    · exact h'.not_tied hnd (x := y) (by simp) (heq ▸ h'.outcome.tied)
  refine ⟨hbefore, fun x hx => ?_⟩
  obtain ⟨Q, p₁, p₂, zs, t, -, h⟩ := hc.quiet hnd hsorted hnone hnot
    (quietly_perm tie.d tie.crossing) (quiet_quietly _ _)
  obtain ⟨-, hrank⟩ := h.first_of_before hbefore
  obtain ⟨p, zs', hp, hzs, hlast⟩ := tie.exists_last hx
  obtain ⟨p₁', p₂', f', t', rfl, h', htop', -⟩ := hc p zs' hp hzs
  have hle := hlast rfl h'
  rw [hc.top_eq hnd hsorted hnot htop'] at hle
  have := tiedBelow_mono tie.d tie.before.flatten hle
  omega

end Constant

/-- A tie is settled exactly when its answer is the same in every order of its lists. -/
theorem Tie.settled_of_same (tie : Tie k lists base)
    (hnd : ((lists.flatten ++ base).map fun c => c.2.id).Nodup)
    (hsorted : base.Pairwise fun a b => a.1 ≤ b.1)
    (hsame : ∀ lists', List.Forall₂ List.Perm lists lists' → ∀ id,
      id ∈ (answer k lists base).map (fun c => c.2.id) ↔
        id ∈ (answer k lists' base).map fun c => c.2.id) : tie.Settled := by
  obtain ⟨top, stays, hc⟩ := tie.constant_of_same hnd hsorted hsame
  refine ⟨hc.low hnd, ?_⟩
  by_cases hnone : tie.NoneNearer
  · exact .inl hnone
  · by_cases hlast : tie.TopLast
    · exact .inr (.inr hlast)
    · exact .inr (.inl (hc.topBefore hnd hsorted hnone hlast))

end Tie

end Rlog

end Silva
