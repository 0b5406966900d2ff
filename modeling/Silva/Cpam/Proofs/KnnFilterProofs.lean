import Silva.Cpam.WellFormed
import Silva.Lib.Nearest

/-!
# Proofs: the nearest-neighbour traversal

On a well-formed tree `knn_filter` finds some nearest values, with any choice among equally near
ones. The choice depends on the order of the visits: a value that ties with the top of a full queue is
refused, so there is always a tree that leaves it out by visiting it last.
-/

namespace Silva

namespace Cpam

open BoundedQueue Node

/-- The values of the entries, with their distances. -/
def distances {K V D : Type*} (f : V → D) (es : List (K × V)) : List (V × D) :=
  es.map fun e => (e.2, f e.2)

@[simp] theorem distances_nil {K V D : Type*} (f : V → D) :
    distances f ([] : List (K × V)) = [] := rfl

@[simp] theorem distances_append {K V D : Type*} (f : V → D) (es es' : List (K × V)) :
    distances f (es ++ es') = distances f es ++ distances f es' := List.map_append

@[simp] theorem distances_cons {K V D : Type*} (f : V → D) (e : K × V) (es : List (K × V)) :
    distances f (e :: es) = (e.2, f e.2) :: distances f es := rfl

section Knn

variable {K V Bx D κ : Type*} [LinearOrder D] [LinearOrder κ] {key : V × D → κ}
  {less : V × D → V × D → Bool} {k : ℕ} {f : V → D} {S T q : List (V × D)}
  {ent : Entry K V (Bx × ℕ)} {f2 : Bx → D} {dMax : D} {B : ℕ} {t : Node K V (Bx × ℕ)}
  {es : List (K × V)}

/-! ## Children -/

/-- The distance of a child in the test before a visit. -/
def childDis (ent : Entry K V (Bx × ℕ)) (f2 : Bx → D) (dMax : D) (t : Node K V (Bx × ℕ)) : D :=
  if !t.isNull then f2 (t.augVal ent).1 else dMax

/-- `go_left` or `go_right`. -/
def goChild (less : V × D → V × D → Bool) (k : ℕ) (f : V → D) (ent : Entry K V (Bx × ℕ)) (f2 : Bx → D)
    (dMax : D) (t : Node K V (Bx × ℕ)) (out : List (V × D)) : List (V × D) :=
  if visits k out (childDis ent f2 dMax t) then knnFilter less k f ent f2 dMax t out else out

theorem knnFilter_regular (lc : Node K V (Bx × ℕ)) (e : K × V) (rc : Node K V (Bx × ℕ)) (s : ℕ)
    (curAug : Bx × ℕ) (out : List (V × D)) :
    knnFilter less k f ent f2 dMax (regular lc e rc s curAug) out =
      if childDis ent f2 dMax lc ≤ childDis ent f2 dMax rc then
        goChild less k f ent f2 dMax rc
          (goChild less k f ent f2 dMax lc (ptCheck less k f out e.2))
      else
        goChild less k f ent f2 dMax lc
          (goChild less k f ent f2 dMax rc (ptCheck less k f out e.2)) := rfl

@[simp] theorem goChild_null (out : List (V × D)) :
    goChild less k f ent f2 dMax null out = out := by
  unfold goChild
  split <;> rfl

/-! ## The queue -/

/-- The queue is in order and has nearest values of what has been seen. -/
structure Queue (key : V × D → κ) (k : ℕ) (S q : List (V × D)) : Prop where
  sorted : q.Pairwise fun a b => key b ≤ key a
  nearest : KNearest Prod.snd k S q

theorem Queue.nil (key : V × D → κ) (k : ℕ) : Queue key k [] [] := ⟨.nil, .nil _ _⟩

theorem Queue.perm {S' : List (V × D)} (h : Queue key k S q) (hS : S.Perm S') : Queue key k S' q :=
  ⟨h.sorted, h.nearest.perm_left hS⟩

/-- The greatest element of the queue is a farthest one. -/
theorem Queue.le_top (hdist : ∀ a b, key a ≤ key b → a.2 ≤ b.2) {t : V × D}
    (h : Queue key k S (t :: q)) : ∀ y ∈ t :: q, y.2 ≤ t.2 := by
  intro y hy
  rcases List.mem_cons.mp hy with rfl | hy
  · exact le_rfl
  · exact hdist y t ((List.pairwise_cons.mp h.sorted).1 y hy)

variable (hless : ∀ a b, less a b = true ↔ key a < key b)
  (hdist : ∀ a b, key a ≤ key b → a.2 ≤ b.2)

include hless hdist

/-- Checking one value. -/
theorem Queue.ptCheck (hk : 0 < k) (h : Queue key k S q) (v : V) :
    Queue key k (S ++ [(v, f v)]) (ptCheck less k f q v) := by
  unfold Cpam.ptCheck
  by_cases hroom : q.length < k
  · simp only [hroom, if_true]
    exact ⟨push_sorted hless h.sorted _,
      (h.nearest.push hroom _).perm_right (push_perm q _).symm⟩
  · obtain ⟨t, r, rfl⟩ := List.exists_cons_of_length_pos (hk.trans_le (not_lt.mp hroom))
    simp only [hroom, if_false]
    show Queue key k _ (if f v < t.2 then push less r (v, f v) else t :: r)
    have htop := h.le_top hdist
    by_cases hlt : f v < t.2
    · rw [if_pos hlt]
      refine ⟨push_sorted hless (List.pairwise_cons.mp h.sorted).2 _, ?_⟩
      exact (h.nearest.replace (not_lt.mp hroom) (fun y hy => htop y (List.mem_cons_of_mem t hy))
        hlt.le).perm_right (push_perm r _).symm
    · rw [if_neg hlt]
      refine ⟨h.sorted, h.nearest.skip (not_lt.mp hroom) htop fun y hy => ?_⟩
      rw [List.mem_singleton.mp hy]
      exact not_lt.mp hlt

theorem Queue.foldl_ptCheck (hk : 0 < k) (es : List (K × V)) : ∀ {S q : List (V × D)},
    Queue key k S q → Queue key k (S ++ distances f es)
      (es.foldl (fun out et => Cpam.ptCheck less k f out et.2) q) := by
  induction es with
  | nil =>
    intro S q h
    simpa [distances] using h
  | cons e es ih =>
    intro S q h
    have hstep := ih (h.ptCheck hless hdist (f := f) hk e.2)
    rwa [List.append_assoc, List.singleton_append, ← distances_cons] at hstep

omit hless in
/-- Values that are not nearer than a distance which fails the test leave no trace. -/
theorem Queue.skip (hk : 0 < k) (h : Queue key k S q) {dis : D} (hvisits : visits k q dis = false)
    (hT : ∀ y ∈ T, dis ≤ y.2) : Queue key k (S ++ T) q := by
  unfold visits at hvisits
  rw [Bool.or_eq_false_iff, decide_eq_false_iff_not] at hvisits
  obtain ⟨hfull, htop⟩ := hvisits
  obtain ⟨t, r, rfl⟩ := List.exists_cons_of_length_pos (hk.trans_le (not_lt.mp hfull))
  have hdis : t.2 ≤ dis := by simpa [top] using htop
  exact ⟨h.sorted, h.nearest.skip (not_lt.mp hfull) (h.le_top hdist)
    fun y hy => hdis.trans (hT y hy)⟩

variable (hlow : ∀ (es : List (K × V)) e, e ∈ es → f2 (encode ent es).1 ≤ f e.2)

omit hless in
include hlow in
/-- Visiting or skipping a child: either way the queue has seen its values. -/
theorem Queue.goChild (hk : 0 < k) (h : Queue key k S q) (ht : WellFormed ent B t es)
    (hvisit : Queue key k (S ++ distances f es) (knnFilter less k f ent f2 dMax t q)) :
    Queue key k (S ++ distances f es) (goChild less k f ent f2 dMax t q) := by
  unfold Cpam.goChild
  by_cases hv : visits k q (childDis ent f2 dMax t) = true
  · rw [if_pos hv]
    exact hvisit
  · rw [if_neg hv]
    refine h.skip hdist hk (by simpa using hv) fun y hy => ?_
    obtain ⟨e, he, rfl⟩ := List.mem_map.mp hy
    have hnull : t.isNull = false := by
      rw [← Bool.not_eq_true, ht.isNull]
      exact List.ne_nil_of_mem he
    unfold childDis
    rw [hnull, ht.augVal]
    exact hlow es e he

include hlow in
/-- On a well-formed tree the traversal selects nearest values. -/
theorem WellFormed.knnFilter (hk : 0 < k) (ht : WellFormed ent B t es) : ∀ {S q : List (V × D)},
    Queue key k S q →
    Queue key k (S ++ distances f es) (knnFilter less k f ent f2 dMax t q) := by
  induction ht with
  | null =>
    intro S q h
    rw [distances_nil, List.append_nil]
    exact h
  | compressed hne hle =>
    intro S q h
    exact h.foldl_ptCheck hless hdist hk _
  | @regular lc rc es es' left e right ihl ihr =>
    intro S q h
    have hcheck := h.ptCheck hless hdist (f := f) hk e.2
    rw [knnFilter_regular]
    by_cases hfirst : childDis ent f2 dMax lc ≤ childDis ent f2 dMax rc
    · rw [if_pos hfirst]
      have hl := hcheck.goChild hdist hlow hk left (ihl hcheck)
      have hr := hl.goChild hdist hlow hk right (ihr hl)
      refine hr.perm ?_
      simp only [distances_append, distances_cons, List.append_assoc, List.singleton_append]
      exact List.perm_middle.symm.append_left S
    · rw [if_neg hfirst]
      have hr := hcheck.goChild hdist hlow hk right (ihr hcheck)
      have hl := hr.goChild hdist hlow hk left (ihl hr)
      refine hl.perm ?_
      simp only [distances_append, distances_cons, List.append_assoc, List.singleton_append]
      refine List.Perm.append_left S ?_
      exact ((List.perm_append_comm).cons _).trans List.perm_middle.symm

/-! ## A value that is visited last -/

/-- Running on the tree leaves out the value `v`, if `k` other values are not farther. -/
def LeavesOut (key : V × D → κ) (less : V × D → V × D → Bool) (k : ℕ) (f : V → D)
    (ent : Entry K V (Bx × ℕ)) (f2 : Bx → D) (dMax : D) (t : Node K V (Bx × ℕ)) (v : V)
    (others : List (V × D)) : Prop :=
  ∀ {S q : List (V × D)}, Queue key k S q → (∀ y ∈ S ++ others, y.1 ≠ v) →
    (k ≤ (S ++ others).countP fun y => y.2 ≤ f v) →
    ∀ y ∈ knnFilter less k f ent f2 dMax t q, y.1 ≠ v

omit hless hdist in
/-- A queue for which `k` values are not farther than a further one is not changed by it. -/
theorem Queue.ptCheck_tied (hk : 0 < k) (h : Queue key k S q) {v : V}
    (hnear : k ≤ S.countP fun y => y.2 ≤ f v) : Cpam.ptCheck less k f q v = q := by
  have hlen : q.length = k :=
    h.nearest.length.trans (min_eq_left (hnear.trans List.countP_le_length))
  obtain ⟨t, r, rfl⟩ := List.exists_cons_of_length_pos (hk.trans_le hlen.ge)
  have hle : t.2 ≤ f v := by
    by_contra hlt
    have htop := h.nearest.countP_lt_of_mem (List.mem_cons_self (a := t) (l := r))
    have hmono : (S.countP fun y => y.2 ≤ f v) ≤ S.countP fun y => y.2 < t.2 :=
      List.countP_mono_left fun y _ hy =>
        decide_eq_true ((of_decide_eq_true hy).trans_lt (not_le.mp hlt))
    omega
  unfold Cpam.ptCheck
  simp only [hlen.not_lt, if_false]
  show (if f v < t.2 then push less r (v, f v) else t :: r) = t :: r
  rw [if_neg (not_lt.mpr hle)]

/-- One node above a tree that leaves a value out, with the other child missing. -/
theorem LeavesOut.above (hk : 0 < k) {v : V} {others : List (V × D)}
    (h : LeavesOut key less k f ent f2 dMax t v others) (e : K × V) {t' : Node K V (Bx × ℕ)}
    (ht' : ∀ out, knnFilter less k f ent f2 dMax t' out =
      Cpam.goChild less k f ent f2 dMax t (Cpam.ptCheck less k f out e.2)) :
    LeavesOut key less k f ent f2 dMax t' v ((e.2, f e.2) :: others) := by
  intro S q hq hne hnear
  rw [← List.singleton_append, ← List.append_assoc] at hne hnear
  have hcheck := hq.ptCheck hless hdist (f := f) hk e.2
  rw [ht']
  unfold Cpam.goChild
  split
  · exact h hcheck hne hnear
  · exact fun y hy => hne y (List.mem_append_left _ (hcheck.nearest.mem hy))

omit hless hdist in
theorem LeavesOut.perm {v : V} {others others' : List (V × D)}
    (h : LeavesOut key less k f ent f2 dMax t v others) (hp : others.Perm others') :
    LeavesOut key less k f ent f2 dMax t v others' := by
  intro S q hq hne hnear
  have hSp : (S ++ others).Perm (S ++ others') := hp.append_left S
  exact h hq (fun y hy => hne y (hSp.mem_iff.mp hy)) (by rwa [hSp.countP_eq])

omit hless hdist in
theorem leavesOut_single (hk : 0 < k) (e : K × V) :
    LeavesOut key less k f ent f2 dMax (single ent e) e.2 [] := by
  intro S q hq hne hnear
  rw [List.append_nil] at hne hnear
  rw [single, knnFilter_regular, goChild_null, goChild_null, ite_self,
    hq.ptCheck_tied hk hnear]
  exact fun y hy => hne y (hq.nearest.mem hy)

/-- For every entry of a list there is a well-formed tree that leaves its value out: the other entries
are on the path down to it. -/
theorem exists_leavesOut (hk : 0 < k) (ent : Entry K V (Bx × ℕ)) (f2 : Bx → D) (dMax : D) (B : ℕ)
    (e : K × V) (es es' : List (K × V)) :
    ∃ t, WellFormed ent B t (es ++ e :: es') ∧
      LeavesOut key less k f ent f2 dMax t e.2 (distances f (es ++ es')) := by
  induction es with
  | cons a es ih =>
    obtain ⟨t, hwf, hout⟩ := ih
    exact ⟨_, .regular .null a hwf, hout.above hless hdist hk a fun out => by
      rw [knnFilter_regular, goChild_null, goChild_null, ite_self]⟩
  | nil =>
    induction es' using List.reverseRecOn with
    | nil => exact ⟨_, .regular .null e .null, leavesOut_single hk e⟩
    | append_singleton es' a ih =>
      obtain ⟨t, hwf, hout⟩ := ih
      have hperm : ((a.2, f a.2) :: distances f ([] ++ es')).Perm (distances f ([] ++ (es' ++ [a]))) := by
        rw [List.nil_append, List.nil_append, distances_append]
        exact (List.perm_append_singleton _ _).symm
      exact ⟨_, .regular hwf a .null, LeavesOut.perm (hout.above hless hdist hk a fun out => by
        rw [knnFilter_regular, goChild_null, goChild_null, ite_self]) hperm⟩

end Knn

end Cpam

end Silva
