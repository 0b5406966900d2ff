import Silva.Geo.Proofs.MortonProofs
import Silva.Lib.Buffer

/-!
# Proofs: sorted record lists

What the sorts, the merge and the two-pointer loops of `operations.hpp` compute, in terms of the key
`(mortonId, id)` of a record and of its identifier.
-/

namespace Silva

open TwoPointer

/-! ## The key order -/

theorem key_lt_iff {p q : Point} :
    p.key < q.key ↔ p.mortonId < q.mortonId ∨ (p.mortonId = q.mortonId ∧ p.id < q.id) := by
  unfold Point.key
  rw [Prod.Lex.toLex_lt_toLex]

theorem key_eq_iff {p q : Point} : p.key = q.key ↔ p.mortonId = q.mortonId ∧ p.id = q.id := by
  unfold Point.key
  simp

theorem key_lt_of_mortonId_lt {p q : Point} (h : p.mortonId < q.mortonId) : p.key < q.key :=
  key_lt_iff.mpr (Or.inl h)

theorem mortonId_le_of_key_le {p q : Point} (h : p.key ≤ q.key) : p.mortonId ≤ q.mortonId := by
  rcases h.lt_or_eq with h | h
  · rcases key_lt_iff.mp h with h | ⟨h, -⟩
    · exact h.le
    · exact h.le
  · exact (key_eq_iff.mp h).1.le

theorem mortonCmp_iff (p q : Point) : mortonCmp p q = true ↔ p.key < q.key := by
  rw [key_lt_iff]
  simp [mortonCmp]

theorem ptCmp_eq_compare (p q : Point) : ptCmp p q = compare p.key q.key := by
  rcases lt_trichotomy p.key q.key with h | h | h
  · rw [compare_lt_iff_lt.mpr h]
    rcases key_lt_iff.mp h with h | ⟨h1, h2⟩
    · simp [ptCmp, h.ne, h]
    · simp [ptCmp, h1, h2.ne, h2]
  · rw [compare_eq_iff_eq.mpr h]
    obtain ⟨h1, h2⟩ := key_eq_iff.mp h
    simp [ptCmp, h1, h2]
  · rw [compare_gt_iff_gt.mpr h]
    rcases key_lt_iff.mp h with h | ⟨h1, h2⟩
    · simp [ptCmp, h.ne', h.not_gt]
    · simp [ptCmp, h1, h2.ne', h2.not_gt]

theorem idCompare_eq_compare (p q : Point) : idCompare p q = compare p.id q.id := by
  unfold idCompare
  rcases lt_trichotomy p.id q.id with h | h | h
  · rw [compare_lt_iff_lt.mpr h, if_pos h]
  · rw [compare_eq_iff_eq.mpr h, if_neg (by omega), if_pos h]
  · rw [compare_gt_iff_gt.mpr h, if_neg (by omega), if_neg (by omega)]

/-- Sorted by `(mortonId, id)`, repetitions allowed. -/
abbrev SortedByKey (P : List Point) : Prop := P.Pairwise (fun p q => p.key ≤ q.key)

/-- Sorted batches of points that carry their code: what `get_sorted_points` returns. -/
structure Batch (P : List Point) : Prop where
  sorted : SortedByKey P
  coded : ∀ p ∈ P, p.Coded

theorem Batch.nil : Batch [] := ⟨List.Pairwise.nil, by simp⟩

/-- Lists sorted by a key and without repeated keys are determined by their elements. -/
theorem eq_of_sorted_of_nodup {P Q : List Point} (hP : SortedByKey P) (hQ : SortedByKey Q)
    (hnd : (P.map Point.key).Nodup) (h : P.Perm Q) : P = Q := by
  refine List.Perm.eq_of_pairwise ?_ hP hQ h
  intro p q hp hq hpq hqp
  exact List.inj_on_of_nodup_map hnd hp (h.mem_iff.mpr hq) (le_antisymm hpq hqp)

/-! ## Sorting and merging -/

theorem parlaySort_perm (less : Point → Point → Bool) (P : List Point) :
    (parlaySort less P).Perm P := List.perm_insertionSort _ P

/-- Sorting by a key sorts by that key. -/
theorem parlaySort_sorted {κ : Type*} [LinearOrder κ] {key : Point → κ} {less : Point → Point → Bool}
    (hless : ∀ p q, less p q = true ↔ key p < key q) (P : List Point) :
    (parlaySort less P).Pairwise (fun p q => key p ≤ key q) := by
  have hle : ∀ p q, less q p = false ↔ key p ≤ key q := by
    intro p q
    rw [← Bool.not_eq_true, hless, not_lt]
  have : Std.Total (fun p q => less q p = false) :=
    ⟨fun p q => by rw [hle, hle]; exact le_total _ _⟩
  have : IsTrans Point (fun p q => less q p = false) :=
    ⟨fun p q r h1 h2 => (hle p r).mpr (((hle p q).mp h1).trans ((hle q r).mp h2))⟩
  exact (List.pairwise_insertionSort (fun p q => less q p = false) P).imp fun h => (hle _ _).mp h

theorem getSortedPoints_perm (P : List Point) :
    (getSortedPoints P).Perm (P.map fun p => { p with mortonId := p.interleaveBits }) :=
  parlaySort_perm _ _

theorem getSortedPoints_sorted (P : List Point) : SortedByKey (getSortedPoints P) :=
  parlaySort_sorted mortonCmp_iff _

theorem getSortedPoints_batch (P : List Point) : Batch (getSortedPoints P) := by
  refine ⟨getSortedPoints_sorted P, fun p hp => ?_⟩
  obtain ⟨q, hq, rfl⟩ := List.mem_map.mp ((getSortedPoints_perm P).mem_iff.mp hp)
  rfl

theorem map_code_eq_self {P : List Point} (h : ∀ p ∈ P, p.Coded) :
    (P.map fun p => { p with mortonId := p.interleaveBits }) = P := by
  conv_rhs => rw [← List.map_id P]
  apply List.map_congr_left
  intro p hp
  have hc : p.interleaveBits = p.mortonId := (h p hp).symm
  show ({ p with mortonId := p.interleaveBits } : Point) = p
  rw [hc]

/-- Points that carry their codes are only reordered. -/
theorem getSortedPoints_perm_self {P : List Point} (h : ∀ p ∈ P, p.Coded) :
    (getSortedPoints P).Perm P := by
  have := getSortedPoints_perm P
  rwa [map_code_eq_self h] at this

theorem parlayMerge_perm (less : Point → Point → Bool) (P Q : List Point) :
    (parlayMerge less P Q).Perm (P ++ Q) := stableMerge_perm less P Q

theorem mem_parlayMerge {less : Point → Point → Bool} {P Q : List Point} {p : Point} :
    p ∈ parlayMerge less P Q ↔ p ∈ P ∨ p ∈ Q := by
  rw [(parlayMerge_perm less P Q).mem_iff, List.mem_append]

@[simp] theorem length_parlayMerge (less : Point → Point → Bool) (P Q : List Point) :
    (parlayMerge less P Q).length = P.length + Q.length := by
  rw [(parlayMerge_perm less P Q).length_eq, List.length_append]

@[simp] theorem parlayMerge_nil_left (less : Point → Point → Bool) (P : List Point) :
    parlayMerge less [] P = P := by
  simp [parlayMerge, stableMerge_eq_merge]

@[simp] theorem parlayMerge_nil_right (less : Point → Point → Bool) (P : List Point) :
    parlayMerge less P [] = P := by
  simp [parlayMerge, stableMerge_eq_merge]

theorem parlayMerge_sorted {P Q : List Point} (hP : SortedByKey P) (hQ : SortedByKey Q) :
    SortedByKey (parlayMerge mortonCmp P Q) :=
  stableMerge_sorted mortonCmp_iff hP hQ

theorem Batch.parlayMerge {P Q : List Point} (hP : Batch P) (hQ : Batch Q) :
    Batch (parlayMerge mortonCmp P Q) := by
  refine ⟨parlayMerge_sorted hP.sorted hQ.sorted, fun p hp => ?_⟩
  rcases mem_parlayMerge.mp hp with h | h
  · exact hP.coded p h
  · exact hQ.coded p h

/-- `P` lies below `Q` in the key order. -/
def Below (P Q : List Point) : Prop := ∀ p ∈ P, ∀ q ∈ Q, p.key < q.key

theorem parlayMerge_append {P₁ P₂ Q₁ Q₂ : List Point} (h1 : Below P₁ Q₂) (h2 : Below Q₁ P₂) :
    parlayMerge mortonCmp (P₁ ++ P₂) (Q₁ ++ Q₂) =
      parlayMerge mortonCmp P₁ Q₁ ++ parlayMerge mortonCmp P₂ Q₂ := by
  apply stableMerge_append
  · intro p hp q hq
    rw [← Bool.not_eq_true, mortonCmp_iff]
    exact (h1 p hp q hq).not_gt
  · intro p hp q hq
    exact (mortonCmp_iff q p).mpr (h2 q hq p hp)

/-! ## Deleting a batch -/

/-- The records that survive the deletion of a batch. -/
def survivors (lhs P : List Point) : List Point := lefts (events ptCmp lhs P)

theorem getDeleteP_loop (f : Point → Bool) (es : List (Event Point)) (ret : List Point) :
    es.foldl (getDeletePStep f) ret = ret ++ (lefts es).filter f := by
  induction es generalizing ret with
  | nil => simp
  | cons e es ih =>
    rw [List.foldl_cons, ih]
    cases e with
    | both a b => simp [getDeletePStep]
    | left a => by_cases h : f a <;> simp [getDeletePStep, h]
    | right b => simp [getDeletePStep]

theorem getDeleteP_eq (lhs P : List Point) :
    getDeleteP lhs P 0 P.length (fun _ => true) = survivors lhs P := by
  unfold getDeleteP
  rw [getDeleteP_loop]
  simp [survivors]

@[simp] theorem survivors_nil_left (P : List Point) : survivors [] P = [] := by simp [survivors]

@[simp] theorem survivors_nil_right (lhs : List Point) : survivors lhs [] = lhs := by
  simp [survivors]

theorem survivors_append {P₁ P₂ Q₁ Q₂ : List Point} (h1 : Below P₁ Q₂) (h2 : Below Q₁ P₂) :
    survivors (P₁ ++ P₂) (Q₁ ++ Q₂) = survivors P₁ Q₁ ++ survivors P₂ Q₂ := by
  unfold survivors
  rw [events_append, lefts_append]
  · intro p hp q hq; rw [ptCmp_eq_compare]; exact compare_lt_iff_lt.mpr (h1 p hp q hq)
  · intro p hp q hq; rw [ptCmp_eq_compare]; exact compare_gt_iff_gt.mpr (h2 q hq p hp)

theorem lefts_events_sublist (cmp : Point → Point → Ordering) (P Q : List Point) :
    (lefts (events cmp P Q)).Sublist P := by
  induction P, Q using pair_induction with
  | nil_left Q => simp
  | cons_nil p P ih => simp
  | cons_cons p P q Q ihpq ihq ihp =>
    rcases h : cmp p q with _ | _ | _
    · rw [events_cons_lt h]; exact ihq.cons_cons p
    · rw [events_cons_eq h]; exact ihpq.cons p
    · rw [events_cons_gt h]; exact ihp

theorem survivors_sublist (lhs P : List Point) : (survivors lhs P).Sublist lhs :=
  lefts_events_sublist ptCmp lhs P

/-- A record whose key the batch does not name survives. -/
theorem mem_survivors_of_key {lhs P : List Point} {p : Point} (hp : p ∈ lhs)
    (hkey : p.key ∉ P.map Point.key) : p ∈ survivors lhs P :=
  mem_lefts_events_of_key ptCmp_eq_compare hp hkey

/-- When the batch names no key that the records repeat, the survivors are the records whose key it does
not name. -/
theorem survivors_eq_filter_of_once {lhs P : List Point} (hlhs : SortedByKey lhs) (hP : SortedByKey P)
    (honce : lhs.Pairwise fun p q => p.key = q.key → p.key ∉ P.map Point.key) :
    survivors lhs P = lhs.filter (fun p => p.key ∉ P.map Point.key) := by
  unfold survivors
  rw [lefts_events_of_once ptCmp_eq_compare hlhs hP honce]
  exact List.filter_congr fun p _ => decide_eq_decide.mpr Iff.rfl

/-- Without repeated keys, the survivors are the records whose key the batch does not name. -/
theorem survivors_eq_filter {lhs P : List Point} (hlhs : SortedByKey lhs) (hP : SortedByKey P)
    (hnd : (lhs.map Point.key).Nodup) :
    survivors lhs P = lhs.filter (fun p => p.key ∉ P.map Point.key) :=
  survivors_eq_filter_of_once hlhs hP
    ((List.pairwise_map.mp hnd).imp fun hne heq => absurd heq hne)

/-! ## Comparing two record lists -/

/-- What `b` adds to `a`. -/
def addsOf (a b : List Point) : List Point := rights (events ptCmp a b)

/-- What `b` removes from `a`. -/
def removesOf (a b : List Point) : List Point := lefts (events ptCmp a b)

theorem addsOf_eq_removesOf (a b : List Point) : addsOf a b = removesOf b a :=
  rights_events ptCmp_eq_compare a b

@[simp] theorem removesOf_nil_left (b : List Point) : removesOf [] b = [] := by simp [removesOf]
@[simp] theorem removesOf_nil_right (a : List Point) : removesOf a [] = a := by simp [removesOf]

@[simp] theorem removesOf_self (a : List Point) : removesOf a a = [] := by
  unfold removesOf
  rw [events_self ptCmp_eq_compare]
  induction a with
  | nil => rfl
  | cons p a ih => simpa using ih

theorem removesOf_append {P₁ P₂ Q₁ Q₂ : List Point} (h1 : Below P₁ Q₂) (h2 : Below Q₁ P₂) :
    removesOf (P₁ ++ P₂) (Q₁ ++ Q₂) = removesOf P₁ Q₁ ++ removesOf P₂ Q₂ :=
  survivors_append h1 h2

/-- The effect of assigning the points `adds` and `removes` to the next slots of a `diff_type`. -/
def DiffType.write (d : DiffType) (adds removes : List Point) : DiffType :=
  { addCnt := d.addCnt + adds.length, removeCnt := d.removeCnt + removes.length,
    add := Buffer.write d.add d.addCnt adds, remove := Buffer.write d.remove d.removeCnt removes }

@[simp] theorem DiffType.write_nil (d : DiffType) : d.write [] [] = d := rfl

theorem DiffType.write_write (d : DiffType) (as rs as' rs' : List Point) :
    (d.write as rs).write as' rs' = d.write (as ++ as') (rs ++ rs') := by
  simp [DiffType.write, Buffer.write_append, Nat.add_assoc]

theorem DiffType.addPoint_eq (d : DiffType) (p : Point) (reverse : Bool) :
    d.addPoint p reverse = if reverse then d.write [] [p] else d.write [p] [] := by
  cases reverse <;> simp [DiffType.addPoint, DiffType.write, Buffer.write]

theorem DiffType.removePoint_eq (d : DiffType) (p : Point) (reverse : Bool) :
    d.removePoint p reverse = if reverse then d.write [p] [] else d.write [] [p] := by
  cases reverse <;> simp [DiffType.removePoint, DiffType.write, Buffer.write]

/-- Both buffers of a fresh, large enough `diff_type` hold what was written. -/
theorem DiffType.compact_write_ofSize {n m : Nat} {adds removes : List Point}
    (hn : adds.length ≤ n) (hm : removes.length ≤ m) :
    (((DiffType.ofSize n m).write adds removes).compact.add = adds) ∧
      (((DiffType.ofSize n m).write adds removes).compact.remove = removes) := by
  constructor
  · have h := @Buffer.take_write _ (List.replicate n (default : Point)) 0 adds (by simpa using hn)
    simpa [DiffType.compact, DiffType.write, DiffType.ofSize] using h
  · have h := @Buffer.take_write _ (List.replicate m (default : Point)) 0 removes (by simpa using hm)
    simpa [DiffType.compact, DiffType.write, DiffType.ofSize] using h

theorem mergePtsInto_loop (f : Point → Bool) (reverse : Bool) (es : List (Event Point))
    (d : DiffType) :
    es.foldl (mergePtsStep f reverse) d =
      if reverse then d.write ((lefts es).filter f) ((rights es).filter f)
      else d.write ((rights es).filter f) ((lefts es).filter f) := by
  induction es generalizing d with
  | nil => simp
  | cons e es ih =>
    rw [List.foldl_cons, ih]
    cases e with
    | both a b => simp [mergePtsStep]
    | left a =>
      by_cases h : f a
      · cases reverse <;> simp [mergePtsStep, h, DiffType.removePoint_eq, DiffType.write_write]
      · simp [mergePtsStep, h]
    | right b =>
      by_cases h : f b
      · cases reverse <;> simp [mergePtsStep, h, DiffType.addPoint_eq, DiffType.write_write]
      · simp [mergePtsStep, h]

theorem mergePtsInto_eq (a b : List Point) (f : Point → Bool) (d : DiffType) (reverse : Bool) :
    mergePtsInto a b f d reverse =
      if reverse then d.write ((removesOf a b).filter f) ((addsOf a b).filter f)
      else d.write ((addsOf a b).filter f) ((removesOf a b).filter f) :=
  mergePtsInto_loop f reverse _ d

theorem mergePts_eq (a b : List Point) : mergePts a b = (addsOf a b, removesOf a b) := by
  have hadd : (addsOf a b).length ≤ b.length := by
    rw [addsOf_eq_removesOf]; exact (lefts_events_sublist _ _ _).length_le
  have hrem : (removesOf a b).length ≤ a.length := (lefts_events_sublist _ _ _).length_le
  obtain ⟨h1, h2⟩ := DiffType.compact_write_ofSize hadd hrem
  unfold mergePts
  rw [mergePtsInto_eq]
  simp [h1, h2]

end Silva
