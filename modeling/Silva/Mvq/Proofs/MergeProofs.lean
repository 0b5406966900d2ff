import Silva.Mvq.MergeSpec
import Silva.Mvq.Proofs.RoundTripProofs
import Silva.Geo.Proofs.ByIdProofs

/-!
# Proofs: the three-way merge

The merge is resolved one identifier at a time: the two differences say what each branch did with
the identifier, the four pairings by identifier say which changes collide, and the commit applies the
rest. Only insertions and deletions reach the commit.
-/

namespace Silva

open BaseNode KeyedList

variable {leafSize : Nat} {base node1 node2 t t1 t2 : BaseNode}

/-! ## Records of plain versions -/

/-- The records that the merge deals with carry their codes and have integer coordinates. -/
structure Plain (p : Point) : Prop where
  coded : p.Coded
  integer : p.IsInteger

theorem PlainVersion.plain (h : PlainVersion leafSize t) {p : Point}
    (hp : p ∈ Tree.collectRecords t) : Plain p := ⟨h.version.batch.coded p hp, h.integer p hp⟩

theorem PlainVersion.byId (h : PlainVersion leafSize t) : ById (Tree.collectRecords t) (stateOf t) :=
  denotes_lookup h.uniqueIds

theorem PlainVersion.plain_state (h : PlainVersion leafSize t) {i : Nat} {p : Point}
    (hp : stateOf t i = some p) : Plain p ∧ p.id = i :=
  ⟨h.plain (h.byId.mem_of_eq hp), h.byId.key_eq hp⟩

/-- A version built from a batch. -/
theorem plainVersion_build {P : List Point} (hP : Batch P) (hid : (P.map Point.id).Nodup)
    (hint : ∀ p ∈ P, p.IsInteger) : PlainVersion leafSize (Tree.build leafSize P) := by
  have hrecords : Tree.collectRecords (Tree.build leafSize P) = P :=
    WellFormed.collectRecords (build_isVersion hP)
  exact ⟨.build hP, by rwa [hrecords], by rwa [hrecords]⟩

theorem plainVersion_singleton {p : Point} (hp : p.Coded) (hint : p.IsInteger) :
    PlainVersion leafSize (Tree.build leafSize [p]) := by
  refine plainVersion_build ⟨List.pairwise_singleton _ p, fun q hq => ?_⟩ (List.nodup_singleton _)
    fun q hq => ?_
  · rwa [List.mem_singleton.mp hq]
  · rwa [List.mem_singleton.mp hq]

/-- For plain points the key says everything. -/
theorem Plain.eq_of_key {p q : Point} (hp : Plain p) (hq : Plain q) (h : p.key = q.key) : p = q := by
  obtain ⟨hcode, hid⟩ := key_eq_iff.mp h
  have hxy := hp.integer.ext_of_code hq.integer (by rw [← hp.coded, ← hq.coded, hcode])
  exact hp.coded.ext hq.coded hid hxy.1 hxy.2

theorem Plain.eq_iff_samePlace {p q : Point} (hp : Plain p) (hq : Plain q) (hid : p.id = q.id) :
    p = q ↔ SamePlace p q := by
  constructor
  · rintro rfl
    exact ⟨rfl, rfl⟩
  · rintro ⟨hx, hy⟩
    exact hp.coded.ext hq.coded hid hx hy

theorem dcmp_sub_natCast_eq_zero (m n : ℕ) : dcmp ((m : FT) - n) = 0 ↔ m = n := by
  constructor
  · intro h
    by_contra hne
    have hone : (1 : FT) ≤ |(m : FT) - n| := by
      have hz : (1 : ℤ) ≤ |(m : ℤ) - n| := Int.one_le_abs (by omega)
      exact_mod_cast hz
    have hbig : ¬|(m : FT) - n| < ftEps := not_lt.mpr ((by norm_num [ftEps] : ftEps ≤ 1).trans hone)
    unfold dcmp at h
    rw [if_neg hbig] at h
    split at h <;> omega
  · rintro rfl
    norm_num [dcmp, ftEps]

/-- For plain points the comparison up to `FT_EPS` is equality. -/
theorem Plain.eqv_iff {p q : Point} (hp : Plain p) (hq : Plain q) : p.eqv q = true ↔ p = q := by
  obtain ⟨m, n, -, -, hx, hy⟩ := hp.integer
  obtain ⟨m', n', -, -, hx', hy'⟩ := hq.integer
  unfold Point.eqv
  rw [decide_eq_true_iff, hx, hy, hx', hy', dcmp_sub_natCast_eq_zero, dcmp_sub_natCast_eq_zero]
  constructor
  · rintro ⟨hid, rfl, rfl⟩
    exact hp.coded.ext hq.coded hid (hx.trans hx'.symm) (hy.trans hy'.symm)
  · rintro rfl
    refine ⟨rfl, ?_, ?_⟩
    · exact_mod_cast hx.symm.trans hx'
    · exact_mod_cast hy.symm.trans hy'

/-! ## What a branch did with an identifier -/

/-- The state of one version where it differs from another one. -/
def onlyIn (s t : Option Point) : Option Point := if s = t then none else s

/-- The point that a branch inserted. -/
def inserted : Option Point → Option Point → Option Point
  | none, s => s
  | some _, _ => none

/-- The point of the base that a branch deleted. -/
def deleted : Option Point → Option Point → Option Point
  | b, none => b
  | _, some _ => none

/-- The point that a branch moved an identifier to. -/
def moved : Option Point → Option Point → Option Point
  | some b, some p => if p = b then none else some p
  | _, _ => none

theorem insertAt_onlyIn (b s : Option Point) :
    insertAt (onlyIn s b) (onlyIn b s) = inserted b s := by
  rcases b with _ | b <;> rcases s with _ | p
  · rfl
  · rfl
  · rfl
  · by_cases h : p = b
    · subst h; simp [onlyIn, insertAt, inserted]
    · simp [onlyIn, insertAt, inserted, h, Ne.symm h]

theorem deleteAt_onlyIn (b s : Option Point) :
    deleteAt (onlyIn s b) (onlyIn b s) = deleted b s := by
  rcases b with _ | b <;> rcases s with _ | p
  · rfl
  · rfl
  · rfl
  · by_cases h : p = b
    · subst h; simp [onlyIn, deleteAt, deleted]
    · simp [onlyIn, deleteAt, deleted, h, Ne.symm h]

theorem updateAt_onlyIn (b s : Option Point) :
    updateAt (onlyIn s b) (onlyIn b s) = moved b s := by
  rcases b with _ | b <;> rcases s with _ | p
  · rfl
  · rfl
  · rfl
  · by_cases h : p = b
    · subst h; simp [onlyIn, updateAt, moved]
    · simp [onlyIn, updateAt, moved, h, Ne.symm h]

/-- The records of a version whose key another version does not have, by identifier. -/
theorem minus_byId (h1 : PlainVersion leafSize t1) (h2 : PlainVersion leafSize t2) :
    ById (minus (Tree.collectRecords t1) (Tree.collectRecords t2))
      fun i => onlyIn (stateOf t1 i) (stateOf t2 i) := by
  have hfilter := h1.byId.filter fun p => p.key ∉ (Tree.collectRecords t2).map Point.key
  have hstate : (fun i => (stateOf t1 i).filter
      fun p => p.key ∉ (Tree.collectRecords t2).map Point.key) =
      fun i => onlyIn (stateOf t1 i) (stateOf t2 i) := by
    funext i
    cases hs : stateOf t1 i with
    | none => simp [onlyIn]
    | some p =>
      obtain ⟨hp, hid⟩ := h1.plain_state hs
      have hmem : p.key ∈ (Tree.collectRecords t2).map Point.key ↔ some p = stateOf t2 i := by
        rw [← hid, eq_comm, ← h2.byId.mem_iff]
        constructor
        · intro h
          obtain ⟨q, hq, hkey⟩ := List.mem_map.mp h
          rwa [← (h2.plain hq).eq_of_key hp hkey]
        · exact List.mem_map_of_mem
      unfold onlyIn
      rw [Option.filter_some]
      by_cases h : some p = stateOf t2 i
      · rw [if_pos h, if_neg (by simpa using hmem.mpr h)]
      · rw [if_neg h, if_pos (by simpa using mt hmem.mp h)]
  rwa [hstate] at hfilter

/-! ## Resolving two differences -/

/-- What the merge makes of two differences, apart from the new version. -/
structure Resolution where
  inserts : List Point
  deletes : List Point
  conflictInsert : List Point
  conflictUpdate : List Point
  conflictDelete : List Point

/-- The part of the merge between the differences and the commit. -/
def resolve (diff1 diff2 : List Point × List Point) : Resolution :=
  let change1 := filterDiffResults diff1.1 diff1.2
  let change2 := filterDiffResults diff2.1 diff2.2
  { inserts := (mergeByIdWithConflict change1.1 change2.1).1
    deletes := (mergeByIdWithConflict change1.2.1 change2.2.2).1 ++
      (mergeByIdWithConflict change2.2.1 change1.2.2).1
    conflictInsert := (mergeByIdWithConflict change1.1 change2.1).2
    conflictUpdate := (mergeByIdWithConflict change1.2.2 change2.2.2).2
    conflictDelete := (mergeByIdWithConflict change1.2.1 change2.2.2).2 ++
      (mergeByIdWithConflict change2.2.1 change1.2.2).2 }

/-- What `merge` returns once the commit has made the new version. -/
def Resolution.result (res : Resolution) (newVer : BaseNode) : Tree.MergeResult :=
  { newVer, conflictInsert := res.conflictInsert, conflictUpdate := res.conflictUpdate,
    conflictDelete := res.conflictDelete }

theorem merge_eq (leafSize : Nat) {res : Resolution} (ptr1 : PtrEq base node1) (ptr2 : PtrEq base node2)
    (hres : res =
      resolve (Tree.twoVersionDiff base node1 ptr1) (Tree.twoVersionDiff base node2 ptr2)) :
    Tree.merge leafSize base node1 node2 ptr1 ptr2 =
      (Tree.commit leafSize base res.inserts res.deletes).map res.result := by
  rw [hres, Option.map_eq_bind]
  rfl

/-- The changes of one branch, by identifier. -/
structure Changes (base state : ℕ → Option Point) (diff : List Point × List Point) : Prop where
  insert : ById (filterDiffResults diff.1 diff.2).1 fun i => inserted (base i) (state i)
  delete : ById (filterDiffResults diff.1 diff.2).2.1 fun i => deleted (base i) (state i)
  update : ById (filterDiffResults diff.1 diff.2).2.2 fun i => moved (base i) (state i)

theorem PlainVersion.changes (hb : PlainVersion leafSize base) (h1 : PlainVersion leafSize node1)
    (ptr : PtrEq base node1) :
    Changes (stateOf base) (stateOf node1) (Tree.twoVersionDiff base node1 ptr) := by
  rw [twoVersionDiff_eq_minus hb.version h1.version hb.uniqueIds h1.uniqueIds]
  have hadd := minus_byId h1 hb
  have hremove := minus_byId hb h1
  refine ⟨?_, ?_, ?_⟩
  · simpa only [insertAt_onlyIn] using filterDiffResults_insert hadd hremove
  · simpa only [deleteAt_onlyIn] using filterDiffResults_delete hadd hremove
  · simpa only [updateAt_onlyIn] using filterDiffResults_update hadd hremove

section Resolve

variable {b s1 s2 : ℕ → Option Point} {diff1 diff2 : List Point × List Point}
  (hc1 : Changes b s1 diff1) (hc2 : Changes b s2 diff2)

include hc1 hc2

theorem Changes.inserts : ById (resolve diff1 diff2).inserts
    fun i => noConflictAt (inserted (b i) (s1 i)) (inserted (b i) (s2 i)) :=
  mergeByIdWithConflict_noConflict hc1.insert hc2.insert

theorem Changes.deletes (i : Nat) : pointsOf (resolve diff1 diff2).deletes i =
    (noConflictAt (deleted (b i) (s1 i)) (moved (b i) (s2 i))).toList ++
      (noConflictAt (deleted (b i) (s2 i)) (moved (b i) (s1 i))).toList := by
  have h1 := mergeByIdWithConflict_noConflict hc1.delete hc2.update i
  have h2 := mergeByIdWithConflict_noConflict hc2.delete hc1.update i
  exact (pointsOf_append _ _ i).trans (congrArg₂ (· ++ ·) h1 h2)

theorem Changes.conflictInsert (i : Nat) : pointsOf (resolve diff1 diff2).conflictInsert i =
    conflictAt (inserted (b i) (s1 i)) (inserted (b i) (s2 i)) :=
  mergeByIdWithConflict_conflict hc1.insert hc2.insert i

theorem Changes.conflictUpdate (i : Nat) : pointsOf (resolve diff1 diff2).conflictUpdate i =
    conflictAt (moved (b i) (s1 i)) (moved (b i) (s2 i)) :=
  mergeByIdWithConflict_conflict hc1.update hc2.update i

theorem Changes.conflictDelete (i : Nat) : pointsOf (resolve diff1 diff2).conflictDelete i =
    conflictAt (deleted (b i) (s1 i)) (moved (b i) (s2 i)) ++
      conflictAt (deleted (b i) (s2 i)) (moved (b i) (s1 i)) := by
  have h1 := mergeByIdWithConflict_conflict hc1.delete hc2.update i
  have h2 := mergeByIdWithConflict_conflict hc2.delete hc1.update i
  exact (pointsOf_append _ _ i).trans (congrArg₂ (· ++ ·) h1 h2)

end Resolve

/-! ## The new version -/

/-- The states of one identifier in the three versions that a merge looks at. -/
structure States (b s1 s2 : Option Point) (i : Nat) : Prop where
  base : ∀ p, b = some p → Plain p ∧ p.id = i
  state1 : ∀ p, s1 = some p → Plain p ∧ p.id = i
  state2 : ∀ p, s2 = some p → Plain p ∧ p.id = i

theorem states (hb : PlainVersion leafSize base) (h1 : PlainVersion leafSize node1)
    (h2 : PlainVersion leafSize node2) (i : Nat) :
    States (stateOf base i) (stateOf node1 i) (stateOf node2 i) i :=
  ⟨fun _ => hb.plain_state, fun _ => h1.plain_state, fun _ => h2.plain_state⟩

/-- The outcome that the merge really gives an identifier: moves are dropped. -/
def outcomeOf : Option Point → Option Point → Option Point → Option Point
  | none, s1, s2 => noConflictAt s1 s2
  | some b, s1, s2 =>
    if (s1 = none ∧ (s2 = none ∨ s2 = some b)) ∨ (s2 = none ∧ s1 = some b) then none else some b

/-- Points of one identifier that are plain: the comparison in the pairings is equality. -/
theorem noConflictAt_eq {s t : Option Point} {i : Nat} (hs : ∀ p, s = some p → Plain p ∧ p.id = i)
    (ht : ∀ p, t = some p → Plain p ∧ p.id = i) :
    noConflictAt s t = threeWay none s t := by
  unfold threeWay
  rcases s with _ | p <;> rcases t with _ | q
  · rfl
  · rfl
  · rfl
  · have heqv := (hs p rfl).1.eqv_iff (ht q rfl).1
    by_cases h : p = q
    · rw [noConflictAt, if_pos (heqv.mpr h), if_pos (by rw [h])]
    · rw [noConflictAt, if_neg (by rwa [heqv]), if_neg (by simpa using h)]
      simp

section At

variable {b s1 s2 : Option Point} {i : Nat} (h : States b s1 s2 i)

include h

theorem States.symm : States b s2 s1 i := ⟨h.base, h.state2, h.state1⟩

theorem States.inserted (p : Point) (hp : inserted b s1 = some p) : Plain p ∧ p.id = i := by
  rcases b with _ | b
  · exact h.state1 p hp
  · cases hp

theorem States.deleted (p : Point) (hp : deleted b s1 = some p) : Plain p ∧ p.id = i := by
  rcases s1 with _ | q
  · exact h.base p (by rcases b with _ | b <;> exact hp)
  · rcases b with _ | b <;> cases hp

theorem States.moved (p : Point) (hp : moved b s1 = some p) : Plain p ∧ p.id = i := by
  rcases b with _ | b <;> rcases s1 with _ | q
  · cases hp
  · cases hp
  · cases hp
  · rw [Silva.moved] at hp
    by_cases hq : q = b
    · rw [if_pos hq] at hp; cases hp
    · rw [if_neg hq] at hp; exact h.state1 p hp

/-- The base's point of an identifier is deleted when one branch deleted it and the other one did not
move it. -/
theorem States.mem_deletes {p : Point} (hp : b = some p) :
    p ∈ (noConflictAt (Silva.deleted b s1) (Silva.moved b s2)).toList ++
        (noConflictAt (Silva.deleted b s2) (Silva.moved b s1)).toList ↔
      (s1 = none ∧ (s2 = none ∨ s2 = some p)) ∨ (s2 = none ∧ s1 = some p) := by
  have h1 := noConflictAt_eq h.deleted h.symm.moved
  have h2 := noConflictAt_eq h.symm.deleted h.moved
  rw [List.mem_append, Option.mem_toList, Option.mem_toList, h1, h2]
  subst hp
  unfold threeWay
  rcases s1 with _ | q1 <;> rcases s2 with _ | q2
  · simp [Silva.deleted, Silva.moved]
  · by_cases hq : q2 = p
    · simp [Silva.deleted, Silva.moved, hq]
    · simp [Silva.deleted, Silva.moved, hq, Ne.symm hq]
  · by_cases hq : q1 = p
    · simp [Silva.deleted, Silva.moved, hq]
    · simp [Silva.deleted, Silva.moved, hq, Ne.symm hq]
  · by_cases hq1 : q1 = p <;> by_cases hq2 : q2 = p <;>
      simp [Silva.deleted, Silva.moved, hq1, hq2]

/-- The real outcome is the specified one unless a move is lost. -/
theorem States.outcomeOf_eq_iff : outcomeOf b s1 s2 = threeWay b s1 s2 ↔
    ∀ c p q, b = some c → s1 = some p → s2 = some q →
      (p = c ∧ q = c) ∨ (p ≠ c ∧ q ≠ c ∧ p ≠ q) := by
  rcases b with _ | c
  · rw [outcomeOf, noConflictAt_eq h.state1 h.state2]
    simp
  · unfold outcomeOf threeWay
    rcases s1 with _ | p <;> rcases s2 with _ | q
    · simp
    · by_cases hq : q = c <;> simp [hq]
    · by_cases hp : p = c <;> simp [hp]
    · by_cases hp : p = c <;> by_cases hq : q = c <;> by_cases hpq : p = q <;>
        simp_all [eq_comm]

end At

theorem noConflictAt_eq_some {s t : Option Point} {p : Point} (h : noConflictAt s t = some p) :
    s = some p ∨ t = some p := by
  rcases s with _ | q <;> rcases t with _ | r
  · cases h
  · exact Or.inr h
  · exact Or.inl h
  · rw [noConflictAt] at h
    by_cases hqr : q.eqv r = true
    · rw [if_pos hqr] at h; exact Or.inl h
    · rw [if_neg hqr] at h; cases h

section Plain

variable {b s1 s2 : ℕ → Option Point} {diff1 diff2 : List Point × List Point}
  (hc1 : Changes b s1 diff1) (hc2 : Changes b s2 diff2) (hst : ∀ i, States (b i) (s1 i) (s2 i) i)

include hc1 hc2 hst

theorem Changes.inserts_plain : ∀ p ∈ (resolve diff1 diff2).inserts, Plain p := by
  intro p hp
  rcases noConflictAt_eq_some ((hc1.inserts hc2).mem_iff.mp hp) with h | h
  · exact ((hst p.id).inserted p h).1
  · exact ((hst p.id).symm.inserted p h).1

theorem Changes.deletes_plain : ∀ p ∈ (resolve diff1 diff2).deletes, Plain p := by
  intro p hp
  have hmem : p ∈ pointsOf (resolve diff1 diff2).deletes p.id := List.mem_filter.mpr ⟨hp, by simp⟩
  rw [hc1.deletes hc2, List.mem_append, Option.mem_toList, Option.mem_toList] at hmem
  rcases hmem with h | h
  · rcases noConflictAt_eq_some h with h | h
    · exact ((hst p.id).deleted p h).1
    · exact ((hst p.id).symm.moved p h).1
  · rcases noConflictAt_eq_some h with h | h
    · exact ((hst p.id).symm.deleted p h).1
    · exact ((hst p.id).moved p h).1

end Plain

/-- The commit of a resolution: the new version, one identifier at a time. -/
theorem PlainVersion.commit_resolution (hb : PlainVersion leafSize base)
    (h1 : PlainVersion leafSize node1) (h2 : PlainVersion leafSize node2) {res : Resolution}
    (ptr1 : PtrEq base node1) (ptr2 : PtrEq base node2)
    (hres : res =
      resolve (Tree.twoVersionDiff base node1 ptr1) (Tree.twoVersionDiff base node2 ptr2)) :
    ∃ newVer, Tree.commit leafSize base res.inserts res.deletes = some newVer ∧
      Version leafSize newVer ∧ ById (Tree.collectRecords newVer)
        fun i => outcomeOf (stateOf base i) (stateOf node1 i) (stateOf node2 i) := by
  have hc1 := hb.changes h1 ptr1
  have hc2 := hb.changes h2 ptr2
  have hst := states hb h1 h2
  have hinserts := hc1.inserts hc2
  have hdeletes := hc1.deletes hc2
  have hI := hc1.inserts_plain hc2 hst
  have hD := hc1.deletes_plain hc2 hst
  rw [← hres] at hinserts hdeletes hI hD
  obtain ⟨newVer, hcommit, hver, hperm⟩ := hb.version.commit_contents
    (nodup_key_of_nodup_id hb.uniqueIds) (fun p hp => (hI p hp).coded) (fun p hp => (hD p hp).coded)
  have hkept := hb.byId.filter fun p => p.key ∉ res.deletes.map Point.key
  refine ⟨newVer, hcommit, hver, (hkept.append hinserts fun i => ?_).perm hperm⟩
  cases hbi : stateOf base i with
  | none => rfl
  | some c =>
    have hplain := (hst i).base c hbi
    have hmem : c.key ∈ res.deletes.map Point.key ↔
        (stateOf node1 i = none ∧ (stateOf node2 i = none ∨ stateOf node2 i = some c)) ∨
          (stateOf node2 i = none ∧ stateOf node1 i = some c) := by
      rw [← (hst i).mem_deletes hbi, ← hdeletes i]
      constructor
      · intro h
        obtain ⟨d, hd, hkey⟩ := List.mem_map.mp h
        obtain rfl : d = c := (hD d hd).eq_of_key hplain.1 hkey
        exact List.mem_filter.mpr ⟨hd, by simpa using hplain.2⟩
      · intro h
        exact List.mem_map_of_mem (List.mem_filter.mp h).1
    show (outcomeOf (some c) _ _).toList = (Option.filter _ (some c)).toList ++ []
    rw [List.append_nil, outcomeOf, Option.filter_some]
    by_cases h : c.key ∈ res.deletes.map Point.key
    · rw [if_pos (hmem.mp h), if_neg (by simpa using h)]
    · rw [if_neg (mt hmem.mpr h), if_pos (by simpa using h)]


/-! ## The content law -/

/-- The merge keeps the content law for every identifier exactly when no move is lost: an identifier
that all three versions hold is in place in both branches or moved by both to different places. -/
theorem merge_law_iff (hb : PlainVersion leafSize base) (h1 : PlainVersion leafSize node1)
    (h2 : PlainVersion leafSize node2) (ptr1 : PtrEq base node1) (ptr2 : PtrEq base node2) :
    (∃ ret, Tree.merge leafSize base node1 node2 ptr1 ptr2 = some ret ∧
      ∀ i, pointsOf (Tree.collectRecords ret.newVer) i =
        (threeWay (stateOf base i) (stateOf node1 i) (stateOf node2 i)).toList) ↔
      NoLostMove base node1 node2 := by
  obtain ⟨newVer, hcommit, -, hby⟩ := hb.commit_resolution h1 h2 ptr1 ptr2 rfl
  have hmerge := merge_eq leafSize ptr1 ptr2 rfl
  rw [hcommit] at hmerge
  have hst := states hb h1 h2
  have hlaw : ∀ i, pointsOf (Tree.collectRecords newVer) i =
      (threeWay (stateOf base i) (stateOf node1 i) (stateOf node2 i)).toList ↔
      outcomeOf (stateOf base i) (stateOf node1 i) (stateOf node2 i) =
        threeWay (stateOf base i) (stateOf node1 i) (stateOf node2 i) := by
    intro i
    rw [pointsOf, hby i]
    exact toList_inj
  constructor
  · rintro ⟨ret, hret, hall⟩ c hc p hp q hq hpc hqc
    rw [hmerge] at hret
    cases hret
    have hcs : stateOf base c.id = some c := hb.byId.mem_iff.mp hc
    have hps : stateOf node1 c.id = some p := by rw [← hpc]; exact h1.byId.mem_iff.mp hp
    have hqs : stateOf node2 c.id = some q := by rw [← hqc]; exact h2.byId.mem_iff.mp hq
    have heq := (hst c.id).outcomeOf_eq_iff.mp ((hlaw c.id).mp (hall c.id)) c p q hcs hps hqs
    rwa [(h1.plain hp).eq_iff_samePlace (hb.plain hc) hpc,
      (h2.plain hq).eq_iff_samePlace (hb.plain hc) hqc, Ne, Ne, Ne,
      (h1.plain hp).eq_iff_samePlace (hb.plain hc) hpc,
      (h2.plain hq).eq_iff_samePlace (hb.plain hc) hqc,
      (h1.plain hp).eq_iff_samePlace (h2.plain hq) (hpc.trans hqc.symm)] at heq
  · intro hno
    refine ⟨_, hmerge, fun i => (hlaw i).mpr ((hst i).outcomeOf_eq_iff.mpr ?_)⟩
    intro c p q hcs hps hqs
    obtain ⟨hc, hci⟩ := (hst i).base c hcs
    obtain ⟨hp, hpi⟩ := (hst i).state1 p hps
    obtain ⟨hq, hqi⟩ := (hst i).state2 q hqs
    have hplace := hno c (hb.byId.mem_of_eq hcs) p (h1.byId.mem_of_eq hps) q (h2.byId.mem_of_eq hqs)
      (hpi.trans hci.symm) (hqi.trans hci.symm)
    rwa [hp.eq_iff_samePlace hc (hpi.trans hci.symm), hq.eq_iff_samePlace hc (hqi.trans hci.symm),
      Ne, Ne, Ne, hp.eq_iff_samePlace hc (hpi.trans hci.symm),
      hq.eq_iff_samePlace hc (hqi.trans hci.symm), hp.eq_iff_samePlace hq (hpi.trans hqi.symm)]

/-- One branch inserts, the other one deletes: both changes arrive. -/
theorem merge_law_iff_disjoint :
    ∃ ret, Tree.merge 16 (Tree.build 16 [⟨1, 1, 1, 3⟩])
        (Tree.build 16 [⟨1, 1, 1, 3⟩, ⟨2, 5, 6, 54⟩]) (Tree.build 16 []) (.distinct _ _)
        (.distinct _ _) = some ret ∧
      ∀ i, pointsOf (Tree.collectRecords ret.newVer) i =
        (threeWay (stateOf (Tree.build 16 [⟨1, 1, 1, 3⟩]) i)
          (stateOf (Tree.build 16 [⟨1, 1, 1, 3⟩, ⟨2, 5, 6, 54⟩]) i)
          (stateOf (Tree.build 16 []) i)).toList := by
  have hb : PlainVersion 16 (Tree.build 16 [⟨1, 1, 1, 3⟩]) :=
    plainVersion_singleton (by decide +kernel)
      ⟨1, 1, by norm_num, by norm_num, by norm_num, by norm_num⟩
  have h1 : PlainVersion 16 (Tree.build 16 [⟨1, 1, 1, 3⟩, ⟨2, 5, 6, 54⟩]) := by
    refine plainVersion_build ⟨by decide +kernel, by decide +kernel⟩ (by decide) fun p hp => ?_
    fin_cases hp
    · exact ⟨1, 1, by norm_num, by norm_num, by norm_num, by norm_num⟩
    · exact ⟨5, 6, by norm_num, by norm_num, by norm_num, by norm_num⟩
  have h2 : PlainVersion 16 (Tree.build 16 []) :=
    plainVersion_build Batch.nil (by decide) (by simp)
  refine (merge_law_iff hb h1 h2 (.distinct _ _) (.distinct _ _)).mpr fun c _ p _ q hq => ?_
  cases hq

/-- One branch moves the only point to `(5, 6)`, the other one is the base: the merge returns the
base, and the move is lost without a conflict. -/
theorem merge_law_fails :
    ¬ ∀ (leafSize : ℕ) (base node1 node2 : BaseNode) (ptr1 : PtrEq base node1)
      (ptr2 : PtrEq base node2), PlainVersion leafSize base → PlainVersion leafSize node1 →
      PlainVersion leafSize node2 →
      ∃ ret, Tree.merge leafSize base node1 node2 ptr1 ptr2 = some ret ∧
        ∀ i, pointsOf (Tree.collectRecords ret.newVer) i =
          (threeWay (stateOf base i) (stateOf node1 i) (stateOf node2 i)).toList := by
  intro h
  have hb : PlainVersion 16 (Tree.build 16 [⟨1, 1, 1, 3⟩]) :=
    plainVersion_singleton (by decide +kernel)
      ⟨1, 1, by norm_num, by norm_num, by norm_num, by norm_num⟩
  have h1 : PlainVersion 16 (Tree.build 16 [⟨1, 5, 6, 54⟩]) :=
    plainVersion_singleton (by decide +kernel)
      ⟨5, 6, by norm_num, by norm_num, by norm_num, by norm_num⟩
  obtain ⟨ret, hret, hlaw⟩ := h 16 _ _ _ (.distinct _ _) (.distinct _ _) hb h1 hb
  have hrun : (Tree.merge 16 (Tree.build 16 [⟨1, 1, 1, 3⟩]) (Tree.build 16 [⟨1, 5, 6, 54⟩])
      (Tree.build 16 [⟨1, 1, 1, 3⟩]) (.distinct _ _) (.distinct _ _)).map
      (fun ret => pointsOf (Tree.collectRecords ret.newVer) 1) = some [⟨1, 1, 1, 3⟩] := by
    decide +kernel
  rw [hret, Option.map_some, hlaw 1] at hrun
  revert hrun
  decide +kernel

end Silva
