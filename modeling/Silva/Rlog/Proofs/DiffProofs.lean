import Silva.Rlog.Diff
import Silva.Rlog.Proofs.ViewProofs

/-!
# Proofs: the difference of two versions

The walk over a branch is a fold over its changes, newest first, so for each identifier the state
and the value only depend on its own changes: the state is their rank, the value the point that the
last one met, the oldest, names. In a tree of proper batches the log of an identifier also tells where
its points are, so it can be read off the logs alone which identifiers the difference gets wrong.
-/

namespace Silva

namespace Rlog

variable {T : Type*} {rtree : RTree T} {basePoints : List Value} {q : BoundingBox} {i : ℕ}

/-! ## One branch -/

/-- One change met by the walk. -/
def traceChange (t : Trace) : Change → Trace
  | .removed rm => traceRemove t rm
  | .inserted ins => traceInsert t ins

/-- The walk goes through the changes of its branch and stops at the common ancestor. -/
theorem traceBranch_append (b c : Ptr T) (h : ∀ n ∈ b, c.address ≠ some n.1) : ∀ t : Trace,
    traceBranch c (b ++ c) t = (changes b).foldl traceChange t := by
  induction b with
  | nil =>
    intro t
    cases c with
    | nil => rfl
    | cons n parent => exact if_pos rfl
  | cons n b ih =>
    intro t
    rw [List.cons_append, traceBranch, if_neg (h n List.mem_cons_self),
      ih fun m hm => h m (List.mem_cons_of_mem n hm)]
    unfold changes
    rw [List.flatMap_cons, List.foldl_append, List.foldl_append, List.foldl_map, List.foldl_map]
    rfl

/-- The state of one identifier after one of its changes. -/
def stepState : Option ℤ → Change → Option ℤ
  | none, .removed _ => some (-1)
  | none, .inserted _ => some 1
  | some s, .removed _ => some s
  | some s, .inserted _ => if s = -1 then some 0 else some s

theorem lookup_state_traceRemove (t : Trace) (rm : Value) (i : ℕ) :
    (traceRemove t rm).state.lookup i =
      if rm.id = i then stepState (t.state.lookup i) (.removed rm) else t.state.lookup i := by
  unfold traceRemove
  by_cases hi : rm.id = i
  · subst hi
    rw [if_pos rfl]
    cases hs : t.state.lookup rm.id with
    | none =>
      rw [if_neg (AList.lookup_eq_none.mp hs), AList.lookup_insert]
      rfl
    | some s =>
      rw [if_pos (AList.lookup_isSome.mp (by rw [hs]; rfl)), hs]
      rfl
  · rw [if_neg hi]
    split
    · rfl
    · exact AList.lookup_insert_ne (Ne.symm hi)

theorem lookup_state_traceInsert (t : Trace) (ins : Value) (i : ℕ) :
    (traceInsert t ins).state.lookup i =
      if ins.id = i then stepState (t.state.lookup i) (.inserted ins) else t.state.lookup i := by
  unfold traceInsert
  by_cases hi : ins.id = i
  · subst hi
    rw [if_pos rfl]
    cases hs : t.state.lookup ins.id with
    | none => exact AList.lookup_insert _
    | some s =>
      by_cases hneg : s = -1
      · simp only [hneg, if_true, stepState]
        exact AList.lookup_insert _
      · simp only [hneg, if_false, stepState]
        exact hs
  · rw [if_neg hi]
    cases t.state.lookup ins.id with
    | none => exact AList.lookup_insert_ne (Ne.symm hi)
    | some s =>
      by_cases hneg : s = -1
      · simp only [hneg, if_true]
        exact AList.lookup_insert_ne (Ne.symm hi)
      · simp only [hneg, if_false]

theorem lookup_state_traceChange (t : Trace) (c : Change) (i : ℕ) :
    (traceChange t c).state.lookup i =
      if c.val.id = i then stepState (t.state.lookup i) c else t.state.lookup i := by
  cases c with
  | removed rm => exact lookup_state_traceRemove t rm i
  | inserted ins => exact lookup_state_traceInsert t ins i

theorem lookup_values_traceChange (t : Trace) (c : Change) (i : ℕ) :
    (traceChange t c).values.lookup i =
      if c.val.id = i then some c.val else t.values.lookup i := by
  have hvalues : (traceChange t c).values = t.values.insert c.val.id c.val := by
    cases c <;> rfl
  rw [hvalues]
  by_cases hi : c.val.id = i
  · subst hi
    rw [if_pos rfl, AList.lookup_insert]
  · rw [if_neg hi, AList.lookup_insert_ne (Ne.symm hi)]

/-- The state of an identifier depends on its own changes only. -/
theorem lookup_state_foldl (cs : List Change) (i : ℕ) : ∀ t : Trace,
    (cs.foldl traceChange t).state.lookup i =
      (cs.filter fun c => c.val.id = i).foldl stepState (t.state.lookup i) := by
  induction cs with
  | nil => exact fun _ => rfl
  | cons c cs ih =>
    intro t
    rw [List.foldl_cons, ih, lookup_state_traceChange]
    by_cases hi : c.val.id = i
    · rw [if_pos hi, List.filter_cons_of_pos (by simpa using hi), List.foldl_cons]
    · rw [if_neg hi, List.filter_cons_of_neg (by simpa using hi)]

/-- The point that the oldest change names. -/
def oldest (cs : List Change) : Option Value := cs.getLast?.map Change.val

/-- The value of an identifier is the point that the last of its changes names. -/
theorem lookup_values_foldl (cs : List Change) (i : ℕ) : ∀ t : Trace,
    (cs.foldl traceChange t).values.lookup i =
      (oldest (cs.filter fun c => c.val.id = i)).or (t.values.lookup i) := by
  induction cs with
  | nil => exact fun _ => rfl
  | cons c cs ih =>
    intro t
    rw [List.foldl_cons, ih, lookup_values_traceChange]
    by_cases hi : c.val.id = i
    · rw [if_pos hi, List.filter_cons_of_pos (by simpa using hi)]
      unfold oldest
      rw [List.getLast?_cons]
      cases (cs.filter fun c => c.val.id = i).getLast? <;> rfl
    · rw [if_neg hi, List.filter_cons_of_neg (by simpa using hi)]

/-- The states other than `-1` stay. -/
theorem foldl_stepState_of_ne (cs : List Change) {s : ℤ} (hs : s ≠ -1) :
    cs.foldl stepState (some s) = some s := by
  induction cs with
  | nil => rfl
  | cons c cs ih =>
    have hstep : stepState (some s) c = some s := by
      cases c with
      | removed rm => rfl
      | inserted ins => exact if_neg hs
    rw [List.foldl_cons, hstep, ih]

theorem foldl_stepState_neg_one (cs : List Change) :
    cs.foldl stepState (some (-1)) = if cs.any Change.isInserted then some 0 else some (-1) := by
  induction cs with
  | nil => rfl
  | cons c cs ih =>
    cases c with
    | removed rm => exact ih
    | inserted ins => exact foldl_stepState_of_ne cs (by decide)

/-- What a branch does to a point: it only removes it (0), its last change is an insertion (2), or
neither (1). -/
def rank : List Change → ℕ
  | [] => 1
  | .inserted _ :: _ => 2
  | .removed _ :: older => if older.any Change.isInserted then 1 else 0

theorem rank_removed (val : Value) (older : List Change) :
    rank (.removed val :: older) = if older.any Change.isInserted then 1 else 0 := rfl

/-- The state at the end is the rank of the changes. -/
theorem foldl_stepState_eq_rank (cs : List Change) :
    (cs.foldl stepState none).getD 0 = (rank cs : ℤ) - 1 := by
  cases cs with
  | nil => rfl
  | cons c cs =>
    cases c with
    | removed rm =>
      show (cs.foldl stepState (some (-1))).getD 0 = _
      rw [foldl_stepState_neg_one, rank]
      by_cases h : cs.any Change.isInserted = true
      · rw [if_pos h, if_pos h]
        rfl
      · rw [if_neg h, if_neg h]
        rfl
    | inserted ins =>
      show (cs.foldl stepState (some 1)).getD 0 = _
      rw [foldl_stepState_of_ne cs (by decide)]
      rfl

theorem id_of_oldest {cs : List Change} {w : Value}
    (h : oldest (cs.filter fun c => c.val.id = i) = some w) : w.id = i := by
  unfold oldest at h
  obtain ⟨c, hc, rfl⟩ := Option.map_eq_some_iff.mp h
  exact of_decide_eq_true (List.mem_filter.mp (List.mem_of_getLast? hc)).2

/-! ## The common ancestor -/

section Ancestors

variable {p p' b c : Ptr T}

/-- In both chains an address stands for the same pointer. -/
def Coherent (p p' : Ptr T) : Prop :=
  ∀ s s' : Ptr T, s ≠ [] → s <:+ p → s' <:+ p' → s.address = s'.address → s = s'

theorem Coherent.symm (h : Coherent p p') : Coherent p' p := by
  intro s s' hs hp' hp haddr
  refine (h s' s ?_ hp hp' haddr.symm).symm
  rintro rfl
  exact hs (List.head?_eq_none_iff.mp (Option.map_eq_none_iff.mp haddr))

theorem Coherent.of_suffix {s s' : Ptr T} (h : Coherent p p') (hs : s <:+ p) (hs' : s' <:+ p') :
    Coherent s s' := fun r r' hr hrs hrs' => h r r' hr (hrs.trans hs) (hrs'.trans hs')

/-- A node that has more ancestors than the other chain has nodes is not on it. -/
theorem Coherent.not_mem {n : ℕ × VersionNode T} {s : Ptr T} (h : Coherent p p') (hs : n :: s <:+ p)
    (hlen : p'.length < (n :: s).length) : n.1 ∉ p'.map Prod.fst := by
  intro hmem
  obtain ⟨m, hm, hmn⟩ := List.mem_map.mp hmem
  obtain ⟨l, r, rfl⟩ := List.append_of_mem hm
  have heq := h (n :: s) (m :: r) (List.cons_ne_nil n s) hs (List.suffix_append l (m :: r))
    (congrArg some hmn.symm)
  rw [heq, List.length_append] at hlen
  omega

/-- Different nodes in front of two chains of the same length are not on the other chain. -/
theorem Coherent.cons_not_mem {n n' : ℕ × VersionNode T} (h : Coherent (n :: p) (n' :: p'))
    (hlen : p.length = p'.length) (haddr : n.1 ≠ n'.1) (hsub : b ⊆ p)
    (hb : ∀ m ∈ b, m.1 ∉ p'.map Prod.fst) : ∀ m ∈ n :: b, m.1 ∉ (n' :: p').map Prod.fst := by
  intro m hm hmem
  rcases List.mem_cons.mp hm with rfl | hm
  · rcases List.mem_cons.mp hmem with heq | hmem
    · exact haddr heq
    · exact (h.of_suffix List.suffix_rfl (List.suffix_cons n' p')).not_mem List.suffix_rfl
        (by rw [List.length_cons]; omega) hmem
  · rcases List.mem_cons.mp hmem with heq | hmem
    · refine (h.of_suffix (List.suffix_cons n p) List.suffix_rfl).symm.not_mem List.suffix_rfl
        (by rw [List.length_cons]; omega) ?_
      rw [← heq]
      exact List.mem_map_of_mem (hsub hm)
    · exact hb m hm hmem

/-- Chains of the same length meet where they start to agree. -/
theorem commonAncestor_spec : ∀ {p p' : Ptr T}, p.length = p'.length → Coherent p p' →
    ∃ b b', p = b ++ commonAncestor p p' ∧ p' = b' ++ commonAncestor p p' ∧
      (∀ n ∈ b, n.1 ∉ p'.map Prod.fst) ∧ (∀ n ∈ b', n.1 ∉ p.map Prod.fst) := by
  intro p
  induction p with
  | nil =>
    intro p' hlen _
    obtain rfl : p' = [] := List.length_eq_zero_iff.mp hlen.symm
    exact ⟨[], [], rfl, rfl, by simp, by simp⟩
  | cons n p ih =>
    intro p' hlen hco
    cases p' with
    | nil => exact absurd hlen (by simp)
    | cons n' p' =>
      rw [commonAncestor]
      by_cases haddr : n.1 = n'.1
      · have heq := hco (n :: p) (n' :: p') (List.cons_ne_nil n p) List.suffix_rfl List.suffix_rfl
          (congrArg some haddr)
        rw [if_pos haddr, ← heq]
        exact ⟨[], [], rfl, rfl, by simp, by simp⟩
      · rw [if_neg haddr]
        have hlen' : p.length = p'.length := Nat.succ.inj hlen
        obtain ⟨b, b', hp, hp', hb, hb'⟩ := ih hlen'
          (hco.of_suffix (List.suffix_cons n p) (List.suffix_cons n' p'))
        have hsub : b ⊆ p := fun m hm => by
          rw [hp]
          exact List.mem_append_left _ hm
        have hsub' : b' ⊆ p' := fun m hm => by
          rw [hp']
          exact List.mem_append_left _ hm
        exact ⟨n :: b, n' :: b', congrArg (n :: ·) hp, congrArg (n' :: ·) hp',
          hco.cons_not_mem hlen' haddr hsub hb,
          hco.symm.cons_not_mem hlen'.symm (Ne.symm haddr) hsub' hb'⟩

/-- Every node of a chain knows the number of its ancestors. -/
def Deep (p : Ptr T) : Prop := ∀ n s, n :: s <:+ p → n.2.depth = s.length

/-- The first loops bring a chain down to the length of the other one. -/
theorem raise_spec (hp' : p' ≠ []) (hdeep' : Deep p') : ∀ {p : Ptr T}, Deep p →
    ∃ a, p = a ++ raise p p' ∧ (raise p p').length = min p.length p'.length ∧
      ∀ n ∈ a, ∃ s, n :: s <:+ p ∧ p'.length < (n :: s).length := by
  obtain ⟨m, r, rfl⟩ := List.exists_cons_of_ne_nil hp'
  have hdepth' : Ptr.depth (m :: r) = r.length := hdeep' m r List.suffix_rfl
  intro p
  induction p with
  | nil => exact fun _ => ⟨[], rfl, by simp [raise], by simp⟩
  | cons n p ih =>
    intro hdeep
    have hdepth := hdeep n p List.suffix_rfl
    have hraise : raise (n :: p) (m :: r) =
        if n.2.depth > Ptr.depth (m :: r) then raise p (m :: r) else n :: p := rfl
    rw [hraise, hdepth, hdepth']
    by_cases hlt : p.length > r.length
    · rw [if_pos hlt]
      obtain ⟨a, hp, hlen, ha⟩ := ih fun n' s hs => hdeep n' s (hs.trans (List.suffix_cons n p))
      refine ⟨n :: a, congrArg (n :: ·) hp, ?_, ?_⟩
      · rw [hlen, List.length_cons, List.length_cons]
        omega
      · intro n' hn'
        rcases List.mem_cons.mp hn' with rfl | hn'
        · exact ⟨p, List.suffix_rfl, by simpa using hlt⟩
        · obtain ⟨s, hs, hslen⟩ := ha n' hn'
          exact ⟨s, hs.trans (List.suffix_cons n p), hslen⟩
    · rw [if_neg hlt]
      refine ⟨[], rfl, ?_, by simp⟩
      rw [List.length_cons, List.length_cons]
      omega

theorem branchOf_append (hp : p = b ++ c) (hb : ∀ n ∈ b, n.1 ∉ p'.map Prod.fst) (hc : c ⊆ p') :
    branchOf p p' = b := by
  unfold branchOf
  rw [hp, List.filter_append, List.filter_eq_self.mpr fun n hn => decide_eq_true (hb n hn),
    List.filter_eq_nil_iff.mpr fun n hn => ?_, List.append_nil]
  have hmem : n.1 ∈ p'.map Prod.fst := List.mem_map_of_mem (hc hn)
  simpa using hmem

/-- The loops find the branches: what is left of each chain is on both. -/
theorem branches_spec (hp : p ≠ []) (hp' : p' ≠ []) (hco : Coherent p p') (hdeep : Deep p)
    (hdeep' : Deep p') :
    let lca := commonAncestor (raise p p') (raise p' (raise p p'))
    p = branchOf p p' ++ lca ∧ p' = branchOf p' p ++ lca := by
  intro lca
  obtain ⟨a, ha, hlen, hout⟩ := raise_spec hp' hdeep' hdeep
  have hsuf : raise p p' <:+ p := ⟨a, ha.symm⟩
  have hne : raise p p' ≠ [] := by
    intro hnil
    rw [hnil, List.length_nil] at hlen
    have h1 := List.length_pos_of_ne_nil hp
    have h2 := List.length_pos_of_ne_nil hp'
    omega
  obtain ⟨a', ha', hlen', hout'⟩ := raise_spec hne (fun n s hs => hdeep n s (hs.trans hsuf)) hdeep'
  have hsuf' : raise p' (raise p p') <:+ p' := ⟨a', ha'.symm⟩
  obtain ⟨b, b', hb, hb', hnot, hnot'⟩ := commonAncestor_spec (by omega) (hco.of_suffix hsuf hsuf')
  have hp_eq : p = (a ++ b) ++ lca := by rw [List.append_assoc, ← hb, ← ha]
  have hp'_eq : p' = (a' ++ b') ++ lca := by rw [List.append_assoc, ← hb', ← ha']
  have hlca : lca ⊆ p := fun n hn => by
    rw [hp_eq]
    exact List.mem_append_right _ hn
  have hlca' : lca ⊆ p' := fun n hn => by
    rw [hp'_eq]
    exact List.mem_append_right _ hn
  -- a node that the first loops pass has too many ancestors to be on the other chain
  have hA : ∀ m ∈ a, m.1 ∉ p'.map Prod.fst := by
    intro m hm
    obtain ⟨s, hs, hslen⟩ := hout m hm
    exact hco.not_mem hs hslen
  have hA' : ∀ m ∈ a', m.1 ∉ (raise p p').map Prod.fst := by
    intro m hm
    obtain ⟨s, hs, hslen⟩ := hout' m hm
    exact (hco.symm.of_suffix List.suffix_rfl hsuf).not_mem hs hslen
  have hleft : ∀ n ∈ a ++ b, n.1 ∉ p'.map Prod.fst := by
    intro n hn
    rcases List.mem_append.mp hn with hn | hn
    · exact hA n hn
    · rw [ha', List.map_append, List.mem_append, not_or]
      refine ⟨fun hmem => ?_, hnot n hn⟩
      obtain ⟨m, hm, hmn⟩ := List.mem_map.mp hmem
      refine hA' m hm ?_
      rw [hmn, hb]
      exact List.mem_map_of_mem (List.mem_append_left _ hn)
  have hright : ∀ n ∈ a' ++ b', n.1 ∉ p.map Prod.fst := by
    intro n hn
    have hnp' : n ∈ p' := by
      rw [hp'_eq]
      exact List.mem_append_left _ hn
    rw [ha, List.map_append, List.mem_append, not_or]
    refine ⟨fun hmem => ?_, ?_⟩
    · obtain ⟨m, hm, hmn⟩ := List.mem_map.mp hmem
      refine hA m hm ?_
      rw [hmn]
      exact List.mem_map_of_mem hnp'
    · rcases List.mem_append.mp hn with hn | hn
      · exact hA' n hn
      · exact hnot' n hn
  have hbranch : branchOf p p' = a ++ b := branchOf_append hp_eq hleft hlca'
  have hbranch' : branchOf p' p = a' ++ b' := branchOf_append hp'_eq hright hlca
  exact ⟨hbranch ▸ hp_eq, hbranch' ▸ hp'_eq⟩

end Ancestors

/-! ## Version trees -/

section Trees

variable {ptrs : List (Ptr T)} {v1 v2 b c p : Ptr T}

/-- A call makes a node one level below its parent. -/
theorem depth_of_apply {v next : VersionNode T} {s : Step} (hnext : s.apply rtree v = some next)
    (hv : v ≠ .nullptr) : next.depth = v.depth + 1 ∧ next ≠ .nullptr := by
  have hcompact : ∀ (p : FT) {w next : VersionNode T}, checkCompact rtree p w = some next →
      next.depth = w.depth ∧ next ≠ .nullptr := by
    intro p w next h
    cases w with
    | nullptr => cases h
    | node parent depth ins rem cached logSize baseSize =>
      simp only [checkCompact] at h
      by_cases hp : (logSize : FT) ≥ p * baseSize
      · rw [if_pos hp] at h
        obtain ⟨base, -, h⟩ := Option.bind_eq_some_iff.mp h
        cases h
        exact ⟨rfl, by simp⟩
      · rw [if_neg hp] at h
        cases h
        exact ⟨rfl, by simp⟩
  cases v with
  | nullptr => exact absurd rfl hv
  | node parent depth ins rem cached logSize baseSize =>
    cases s with
    | mapInsert insertPts p =>
      have h : checkCompact rtree p (insertNode
        (.node parent depth ins rem cached logSize baseSize) insertPts) = some next := hnext
      exact hcompact p h
    | mapDelete deletePts p =>
      have h : checkCompact rtree p (deleteNode
        (.node parent depth ins rem cached logSize baseSize) deletePts) = some next := hnext
      exact hcompact p h

/-- The pointers of a version tree are stored under their addresses, above those of their
parents. -/
theorem VersionTree.mem_spec (h : VersionTree rtree basePoints ptrs) : ∀ p ∈ ptrs,
    ∃ a n parent, p = (a, n) :: parent ∧ ptrs[a]? = some p ∧ n.depth = parent.length ∧
      n ≠ .nullptr ∧ (parent = [] ∨ parent ∈ ptrs) := by
  induction h with
  | mapInit =>
    intro p hp
    rw [List.mem_singleton.mp hp]
    exact ⟨0, _, [], rfl, rfl, rfl, by simp [Rlog.mapInit], .inl rfl⟩
  | @apply ptrs h parent hparent s next hnext ih =>
    intro p hp
    rcases List.mem_append.mp hp with hp | hp
    · obtain ⟨a, n, up, rfl, hget, hdepth, hn, hup⟩ := ih p hp
      have ha : a < ptrs.length := (List.getElem?_eq_some_iff.mp hget).1
      refine ⟨a, n, up, rfl, ?_, hdepth, hn, hup.imp_right (List.mem_append_left _)⟩
      rwa [List.getElem?_append_left ha]
    · rw [List.mem_singleton.mp hp]
      obtain ⟨a, n, up, rfl, -, hdepth, hn, -⟩ := ih parent hparent
      obtain ⟨hnextDepth, hnextNe⟩ := depth_of_apply hnext hn
      refine ⟨ptrs.length, next, _, rfl, by simp, ?_, hnextNe,
        .inr (List.mem_append_left _ hparent)⟩
      rw [hnextDepth, List.length_cons, ← hdepth]
      rfl

theorem VersionTree.mem_of_suffix (h : VersionTree rtree basePoints ptrs) : ∀ {p s : Ptr T},
    p ∈ ptrs → s ≠ [] → s <:+ p → s ∈ ptrs := by
  intro p
  induction p with
  | nil => exact fun _ hs hsuf => absurd (List.suffix_nil.mp hsuf) hs
  | cons n p ih =>
    intro s hp hs hsuf
    rcases List.suffix_cons_iff.mp hsuf with rfl | hsuf
    · exact hp
    · obtain ⟨a, m, parent, heq, -, -, -, hparent⟩ := h.mem_spec _ hp
      obtain ⟨-, rfl⟩ := List.cons.inj heq
      rcases hparent with rfl | hparent
      · exact absurd (List.suffix_nil.mp hsuf) hs
      · exact ih hparent hs hsuf

theorem VersionTree.coherent (h : VersionTree rtree basePoints ptrs) (h1 : v1 ∈ ptrs)
    (h2 : v2 ∈ ptrs) : Coherent v1 v2 := by
  intro s s' hs hsuf hsuf' haddr
  have hs' : s' ≠ [] := by
    rintro rfl
    exact hs (List.head?_eq_none_iff.mp (Option.map_eq_none_iff.mp haddr))
  obtain ⟨a, n, up, rfl, hget, -⟩ := h.mem_spec s (h.mem_of_suffix h1 hs hsuf)
  obtain ⟨a', n', up', rfl, hget', -⟩ := h.mem_spec s' (h.mem_of_suffix h2 hs' hsuf')
  obtain rfl : a = a' := Option.some.inj haddr
  rw [hget] at hget'
  exact Option.some.inj hget'

theorem VersionTree.deep (h : VersionTree rtree basePoints ptrs) (hp : p ∈ ptrs) : Deep p := by
  intro n s hsuf
  obtain ⟨a, m, up, heq, -, hdepth, -⟩ :=
    h.mem_spec _ (h.mem_of_suffix hp (List.cons_ne_nil n s) hsuf)
  obtain ⟨rfl, rfl⟩ := List.cons.inj heq
  exact hdepth

theorem VersionTree.ne_nil (h : VersionTree rtree basePoints ptrs) (hp : p ∈ ptrs) : p ≠ [] := by
  obtain ⟨a, n, up, rfl, -⟩ := h.mem_spec p hp
  exact List.cons_ne_nil _ _

/-! ## What the difference has -/

/-- The loop over the values splits them by the sign of the net change. -/
theorem foldl_diffStep (state1 state2 : AList fun _ : ℕ => ℤ) (q : BoundingBox)
    (entries : List (Sigma fun _ : ℕ => Value)) : ∀ outDiff : DiffType,
    entries.foldl (diffStep state1 state2 q) outDiff =
      ⟨outDiff.add ++ (entries.filter fun kv => kv.2.intersects q ∧
          (state1.lookup kv.1).getD 0 < (state2.lookup kv.1).getD 0).map Sigma.snd,
        outDiff.remove ++ (entries.filter fun kv => kv.2.intersects q ∧
          (state2.lookup kv.1).getD 0 < (state1.lookup kv.1).getD 0).map Sigma.snd⟩ := by
  induction entries with
  | nil =>
    intro outDiff
    simp
  | cons kv entries ih =>
    intro outDiff
    rw [List.foldl_cons, ih]
    unfold diffStep
    by_cases hq : kv.2.intersects q = true
    · rcases lt_trichotomy ((state1.lookup kv.1).getD 0) ((state2.lookup kv.1).getD 0) with
        hlt | heq | hgt
      · simp [hq, hlt, hlt.not_gt]
      · simp [hq, heq]
      · simp [hq, hgt, hgt.not_gt]
    · simp [hq]

/-- The walks from two different versions fold the changes of their branches. -/
theorem mapSpatialDiff_eq (h : VersionTree rtree basePoints ptrs) (h1 : v1 ∈ ptrs) (h2 : v2 ∈ ptrs)
    (haddr : v1.address ≠ v2.address) (q : BoundingBox) (outDiff : DiffType) :
    let trace1 := (changes (branchOf v1 v2)).foldl traceChange ⟨∅, ∅⟩
    let trace2 := (changes (branchOf v2 v1)).foldl traceChange ⟨∅, trace1.values⟩
    mapSpatialDiff v1 v2 q outDiff =
      trace2.values.entries.foldl (diffStep trace1.state trace2.state q) outDiff := by
  have hbranches := branches_spec (h.ne_nil h1) (h.ne_nil h2) (h.coherent h1 h2) (h.deep h1)
    (h.deep h2)
  intro trace1 trace2
  obtain ⟨lca, hlca⟩ : ∃ lca, commonAncestor (raise v1 v2) (raise v2 (raise v1 v2)) = lca :=
    ⟨_, rfl⟩
  rw [hlca] at hbranches
  obtain ⟨hv1, hv2⟩ := hbranches
  have hstop : ∀ v other : Ptr T, other = branchOf other v ++ lca →
      ∀ n ∈ branchOf v other, lca.address ≠ some n.1 := by
    intro v other hother n hn heq
    obtain ⟨m, hm, hmn⟩ := Option.map_eq_some_iff.mp heq
    refine of_decide_eq_true (List.mem_filter.mp hn).2 ?_
    rw [hother, List.map_append, ← hmn]
    exact List.mem_append_right _ (List.mem_map_of_mem (List.mem_of_head? hm))
  have htrace1 := traceBranch_append _ lca (hstop v1 v2 hv2) ⟨∅, ∅⟩
  have htrace2 := traceBranch_append _ lca (hstop v2 v1 hv1) ⟨∅, trace1.values⟩
  rw [← hv1] at htrace1
  rw [← hv2] at htrace2
  unfold mapSpatialDiff
  rw [if_neg haddr]
  simp only [hlca, htrace1]
  rw [htrace2]

/-- The states and the values that the two walks leave behind. -/
theorem lookup_walks (b1 b2 : Ptr T) :
    let trace1 := (changes b1).foldl traceChange ⟨∅, ∅⟩
    let trace2 := (changes b2).foldl traceChange ⟨∅, trace1.values⟩
    ∀ i, (trace1.state.lookup i).getD 0 = (rank (changesOf b1 i) : ℤ) - 1 ∧
      (trace2.state.lookup i).getD 0 = (rank (changesOf b2 i) : ℤ) - 1 ∧
      trace2.values.lookup i = (oldest (changesOf b2 i)).or (oldest (changesOf b1 i)) := by
  intro trace1 trace2 i
  refine ⟨?_, ?_, ?_⟩
  · rw [lookup_state_foldl, AList.lookup_empty]
    exact foldl_stepState_eq_rank _
  · rw [lookup_state_foldl, AList.lookup_empty]
    exact foldl_stepState_eq_rank _
  · rw [lookup_values_foldl, lookup_values_foldl, AList.lookup_empty, Option.or_none]
    rfl

/-- Values stored under their identifiers, as many as are selected: none comes twice. -/
theorem nodup_selected {values : AList fun _ : ℕ => Value}
    (hkey : ∀ kv ∈ values.entries, kv.2.id = kv.1) (sel : (Sigma fun _ : ℕ => Value) → Bool) :
    ((values.entries.filter sel).map Sigma.snd).Nodup := by
  have hkeys : ((values.entries.filter sel).map Sigma.fst).Nodup :=
    List.Nodup.sublist (List.filter_sublist.map _) values.nodupKeys
  have heq : ((values.entries.filter sel).map Sigma.snd).map Value.id =
      (values.entries.filter sel).map Sigma.fst := by
    rw [List.map_map]
    exact List.map_congr_left fun kv hkv => hkey kv (List.mem_of_mem_filter hkv)
  exact (heq ▸ hkeys).of_map _

theorem mem_selected {values : AList fun _ : ℕ => Value}
    (hkey : ∀ kv ∈ values.entries, kv.2.id = kv.1) (sel : ℕ → Bool) (w : Value) :
    w ∈ (values.entries.filter fun kv => kv.2.intersects q && sel kv.1).map Sigma.snd ↔
      values.lookup w.id = some w ∧ w.intersects q = true ∧ sel w.id = true := by
  rw [← Option.mem_def, AList.mem_lookup_iff, List.mem_map]
  constructor
  · rintro ⟨kv, hkv, rfl⟩
    obtain ⟨hkv, hsel⟩ := List.mem_filter.mp hkv
    rw [hkey kv hkv]
    exact ⟨hkv, Bool.and_eq_true_iff.mp hsel⟩
  · rintro ⟨hkv, hsel⟩
    exact ⟨_, List.mem_filter.mpr ⟨hkv, Bool.and_eq_true_iff.mpr hsel⟩, rfl⟩

/-- A point that is only seen where it lies in the box. -/
def inBox (q : BoundingBox) (val : Option Value) : Option Value := val.filter (·.intersects q)

/-- The point that the oldest change names, on the second branch if there is one, and where it lies in
the box. -/
def firstIn (branch1 branch2 : Ptr T) (q : BoundingBox) (i : ℕ) : Option Value :=
  inBox q ((oldest (changesOf branch2 i)).or (oldest (changesOf branch1 i)))

/-- Both lists have no identifier twice. The added points are those that the oldest change names,
where the second branch has the higher rank, the removed ones those where the first branch has. -/
theorem mapSpatialDiff_spec (h : VersionTree rtree basePoints ptrs) (h1 : v1 ∈ ptrs)
    (h2 : v2 ∈ ptrs) (q : BoundingBox) :
    let d := mapSpatialDiff v1 v2 q ⟨[], []⟩
    d.add.Nodup ∧ d.remove.Nodup ∧
      ∀ w, (w ∈ d.add ↔ firstIn (branchOf v1 v2) (branchOf v2 v1) q w.id = some w ∧
          rank (changesOf (branchOf v1 v2) w.id) < rank (changesOf (branchOf v2 v1) w.id)) ∧
        (w ∈ d.remove ↔ firstIn (branchOf v1 v2) (branchOf v2 v1) q w.id = some w ∧
          rank (changesOf (branchOf v2 v1) w.id) < rank (changesOf (branchOf v1 v2) w.id)) := by
  by_cases haddr : v1.address = v2.address
  · obtain rfl : v1 = v2 :=
      h.coherent h1 h2 v1 v2 (h.ne_nil h1) List.suffix_rfl List.suffix_rfl haddr
    have hbranch : branchOf v1 v1 = [] := by
      refine List.filter_eq_nil_iff.mpr fun n hn => ?_
      have hmem : n.1 ∈ v1.map Prod.fst := List.mem_map_of_mem hn
      simpa using hmem
    unfold mapSpatialDiff
    rw [if_pos haddr, hbranch]
    refine ⟨List.nodup_nil, List.nodup_nil, fun w => ⟨?_, ?_⟩⟩
    · simp [firstIn, inBox, changesOf, changes, oldest]
    · simp [firstIn, inBox, changesOf, changes, oldest]
  · intro d
    have hd : d = _ := mapSpatialDiff_eq h h1 h2 haddr q ⟨[], []⟩
    generalize hb1 : branchOf v1 v2 = b1 at hd ⊢
    generalize hb2 : branchOf v2 v1 = b2 at hd ⊢
    rw [foldl_diffStep] at hd
    have hwalks := lookup_walks b1 b2
    dsimp only at hwalks
    generalize (changes b1).foldl traceChange ⟨∅, ∅⟩ = trace1 at hd hwalks
    generalize (changes b2).foldl traceChange ⟨∅, trace1.values⟩ = trace2 at hd hwalks
    have hkey : ∀ kv ∈ trace2.values.entries, kv.2.id = kv.1 := by
      rintro ⟨i, w⟩ hkv
      have hw := (hwalks i).2.2
      rw [AList.mem_lookup_iff.mpr hkv] at hw
      rcases Option.or_eq_some_iff.mp hw.symm with hw | ⟨-, hw⟩
      · exact id_of_oldest hw
      · exact id_of_oldest hw
    have hmem : ∀ (sel : ℕ → Bool) (w : Value), w ∈ (trace2.values.entries.filter fun kv =>
        kv.2.intersects q && sel kv.1).map Sigma.snd ↔
          firstIn b1 b2 q w.id = some w ∧ sel w.id = true := by
      intro sel w
      unfold firstIn inBox
      rw [mem_selected hkey, Option.filter_eq_some_iff, (hwalks w.id).2.2, and_assoc]
    simp only [fun i => (hwalks i).1, fun i => (hwalks i).2.1, sub_lt_sub_iff_right, Nat.cast_lt,
      List.nil_append, Bool.decide_and, Bool.decide_eq_true] at hd
    rw [hd]
    refine ⟨nodup_selected hkey _, nodup_selected hkey _, fun w => ⟨?_, ?_⟩⟩
    · rw [hmem fun i => decide (rank (changesOf b1 i) < rank (changesOf b2 i)), decide_eq_true_iff]
    · rw [hmem fun i => decide (rank (changesOf b2 i) < rank (changesOf b1 i)), decide_eq_true_iff]

theorem id_of_firstIn {branch1 branch2 : Ptr T} {w : Value}
    (h : firstIn branch1 branch2 q i = some w) : w.id = i := by
  unfold firstIn inBox at h
  rcases Option.or_eq_some_iff.mp (Option.filter_eq_some_iff.mp h).1 with h | ⟨-, h⟩
  · exact id_of_oldest h
  · exact id_of_oldest h

/-! ## What the difference should have -/

theorem stored_eq_some_iff {v : Ptr T} (hu : ((contents basePoints v).map Value.id).Nodup) {w : Value} :
    stored basePoints v i = some w ↔ w ∈ contents basePoints v ∧ w.id = i := by
  constructor
  · intro h
    have hw := List.find?_some h
    rw [decide_eq_true_iff] at hw
    exact ⟨List.mem_of_find?_eq_some h, hw⟩
  · rintro ⟨hmem, hi⟩
    cases hfind : stored basePoints v i with
    | none => exact absurd (List.find?_eq_none.mp hfind w hmem) (by simp [hi])
    | some w' =>
      have hw' := List.find?_some hfind
      rw [decide_eq_true_iff] at hw'
      exact congrArg some (List.inj_on_of_nodup_map hu (List.mem_of_find?_eq_some hfind) hmem
        (hw'.trans hi.symm))

theorem stored_eq_none_iff {v : Ptr T} :
    stored basePoints v i = none ↔ ∀ w ∈ contents basePoints v, w.id ≠ i := by
  unfold stored
  simp [List.find?_eq_none]

theorem inBox_stored_eq_some_iff {v : Ptr T} (hu : ((contents basePoints v).map Value.id).Nodup)
    {w : Value} : inBox q (stored basePoints v w.id) = some w ↔
      w ∈ contents basePoints v ∧ w.intersects q = true := by
  unfold inBox
  rw [Option.filter_eq_some_iff, stored_eq_some_iff hu, and_iff_left rfl]

theorem id_of_stored {v : Ptr T} {w : Value} (h : inBox q (stored basePoints v i) = some w) :
    w.id = i := by
  have hw := List.find?_some (Option.filter_eq_some_iff.mp h).1
  rwa [decide_eq_true_iff] at hw

/-- The points of the second version in the box that the first one does not have. -/
theorem mem_expected_iff (hu1 : ((contents basePoints v1).map Value.id).Nodup)
    (hu2 : ((contents basePoints v2).map Value.id).Nodup) {w : Value} :
    (w ∈ (contents basePoints v2).filter fun w =>
        w.intersects q ∧ w ∉ contents basePoints v1) ↔
      inBox q (stored basePoints v2 w.id) = some w ∧
        inBox q (stored basePoints v1 w.id) ≠ some w := by
  rw [List.mem_filter, decide_eq_true_iff, inBox_stored_eq_some_iff hu2, Ne,
    inBox_stored_eq_some_iff hu1]
  tauto

/-! ## What a log tells -/

theorem Proper.nodup {v : Ptr T} (h : Proper basePoints v) :
    ((contents basePoints v).map Value.id).Nodup := by
  cases v with
  | nil => exact h
  | cons n parent => exact h.2.2

/-- A call only inserts or only deletes. -/
theorem single_of_apply {v next : VersionNode T} {s : Step} (hnext : s.apply rtree v = some next) :
    next.deltaRemoves = [] ∨ next.deltaInserts = [] := by
  have hcompact : ∀ (p : FT) {w next : VersionNode T}, checkCompact rtree p w = some next →
      next.deltaRemoves = w.deltaRemoves ∧ next.deltaInserts = w.deltaInserts := by
    intro p w next h
    cases w with
    | nullptr => cases h
    | node parent depth ins rem cached logSize baseSize =>
      simp only [checkCompact] at h
      split at h
      · obtain ⟨base, -, h⟩ := Option.bind_eq_some_iff.mp h
        cases h
        exact ⟨rfl, rfl⟩
      · cases h
        exact ⟨rfl, rfl⟩
  cases s with
  | mapInsert insertPts p =>
    left
    rw [(hcompact p hnext).1]
    cases v <;> rfl
  | mapDelete deletePts p =>
    right
    rw [(hcompact p hnext).2]
    cases v <;> rfl

theorem VersionTree.single (h : VersionTree rtree basePoints ptrs) : ∀ p ∈ ptrs, ∀ n ∈ p,
    n.2.deltaRemoves = [] ∨ n.2.deltaInserts = [] := by
  induction h with
  | mapInit =>
    intro p hp n hn
    rw [List.mem_singleton.mp hp] at hn
    rw [List.mem_singleton.mp hn]
    exact .inl rfl
  | apply h hparent s hnext ih =>
    intro p hp n hn
    rcases List.mem_append.mp hp with hp | hp
    · exact ih p hp n hn
    · rw [List.mem_singleton.mp hp] at hn
      rcases List.mem_cons.mp hn with rfl | hn
      · exact single_of_apply hnext
      · exact ih _ hparent n hn

/-- The point of an identifier after a log, newest change first, from the point that it had before. -/
def pointAfter (before : Option Value) : List Change → Option Value
  | [] => before
  | .removed _ :: _ => none
  | .inserted val :: _ => some val

/-- The oldest change of a log fits the point before it: a removal names it, an insertion needs
none. -/
def Fits (before : Option Value) : Change → Prop
  | .removed val => before = some val
  | .inserted _ => before = none

theorem changesOf_cons (n : ℕ × VersionNode T) (b : Ptr T) (i : ℕ) : changesOf (n :: b) i =
    ((n.2.deltaRemoves.filter fun w => w.id = i).map .removed ++
      (n.2.deltaInserts.filter fun w => w.id = i).map .inserted) ++ changesOf b i := by
  unfold changesOf changes
  rw [List.flatMap_cons, List.filter_append, List.filter_append, List.filter_map, List.filter_map]
  rfl

/-- A version that only deletes. -/
theorem stored_delete (basePoints : List Value) {n : ℕ × VersionNode T} (hins : n.2.deltaInserts = [])
    (parent : Ptr T) (i : ℕ) : stored basePoints (n :: parent) i =
      if i ∈ n.2.deltaRemoves.map Value.id then none else stored basePoints parent i := by
  unfold stored
  rw [contents, hins, DeltaLog.Delta.apply_insert, List.append_nil, DeltaLog.Delta.apply_delete,
    List.find?_filter]
  by_cases hi : i ∈ n.2.deltaRemoves.map Value.id
  · rw [if_pos hi]
    refine List.find?_eq_none.mpr fun w _ hw => ?_
    simp only [decide_eq_true_eq] at hw
    exact hw.1 (hw.2 ▸ hi)
  · rw [if_neg hi]
    congr 1
    funext w
    by_cases hw : w.id = i
    · simp [hw, hi]
    · simp [hw]

/-- A version that only inserts. -/
theorem stored_insert (basePoints : List Value) {n : ℕ × VersionNode T} (hrem : n.2.deltaRemoves = [])
    (parent : Ptr T) (i : ℕ) : stored basePoints (n :: parent) i =
      (stored basePoints parent i).or (n.2.deltaInserts.find? fun w => w.id = i) := by
  unfold stored
  rw [contents, hrem, DeltaLog.Delta.apply_insert, DeltaLog.Delta.apply_delete, List.find?_append]
  congr 2
  exact List.filter_eq_self.mpr fun w _ => by simp

/-- An insertion in a proper version needs that there is no such point. -/
theorem Proper.stored_eq_none {n : ℕ × VersionNode T} {parent : Ptr T}
    (h : Proper basePoints (n :: parent)) (hrem : n.2.deltaRemoves = []) {w : Value}
    (hw : w ∈ n.2.deltaInserts) : stored basePoints parent w.id = none := by
  rw [stored_eq_none_iff]
  intro u hu hid
  have hall := h.2.2
  rw [contents, hrem, DeltaLog.Delta.apply_insert, List.map_append] at hall
  refine List.disjoint_of_nodup_append hall ?_ (List.mem_map_of_mem hw)
  rw [← hid]
  refine List.mem_map_of_mem ?_
  simpa using hu

/-- The log of an identifier on a branch tells its point, from the point at the branch's start, and
its oldest change fits that point. -/
theorem stored_append (hsingle : ∀ n ∈ b, n.2.deltaRemoves = [] ∨ n.2.deltaInserts = [])
    (h : Proper basePoints (b ++ c)) (i : ℕ) :
    stored basePoints (b ++ c) i = pointAfter (stored basePoints c i) (changesOf b i) ∧
      ∀ ch, (changesOf b i).getLast? = some ch → Fits (stored basePoints c i) ch := by
  induction b with
  | nil => exact ⟨rfl, fun ch hch => by cases hch⟩
  | cons n b ih =>
    obtain ⟨hprev, hfits⟩ := ih (fun m hm => hsingle m (List.mem_cons_of_mem n hm)) h.1
    -- the oldest change is a new one only where the older versions have none
    have hlast : ∀ new : List Change, (∀ ch ∈ new, Fits (stored basePoints (b ++ c) i) ch) →
        ∀ ch, (new ++ changesOf b i).getLast? = some ch → Fits (stored basePoints c i) ch := by
      intro new hnew ch hch
      cases hb : changesOf b i with
      | nil =>
        rw [hb, pointAfter] at hprev
        rw [hb, List.append_nil] at hch
        rw [← hprev]
        exact hnew ch (List.mem_of_getLast? hch)
      | cons ch' older =>
        rw [hb, List.getLast?_append_of_ne_nil _ (List.cons_ne_nil ch' older)] at hch
        exact hfits ch (hb ▸ hch)
    rw [changesOf_cons, List.cons_append]
    rcases hsingle n List.mem_cons_self with hrem | hins
    · rw [hrem, List.filter_nil, List.map_nil, List.nil_append]
      have hnone : ∀ w ∈ n.2.deltaInserts.filter fun w => w.id = i,
          stored basePoints (b ++ c) i = none := by
        intro w hw
        obtain ⟨hw, hid⟩ := List.mem_filter.mp hw
        rw [← of_decide_eq_true hid]
        exact h.stored_eq_none hrem hw
      refine ⟨?_, hlast _ fun ch hch => ?_⟩
      · rw [stored_insert basePoints hrem, ← List.head?_filter, hprev]
        cases hnew : n.2.deltaInserts.filter fun w => w.id = i with
        | nil => exact Option.or_none
        | cons w ws =>
          rw [← hprev, hnone w (hnew ▸ List.mem_cons_self)]
          rfl
      · obtain ⟨w, hw, rfl⟩ := List.mem_map.mp hch
        exact hnone w hw
    · rw [hins, List.filter_nil, List.map_nil, List.append_nil]
      refine ⟨?_, hlast _ fun ch hch => ?_⟩
      · rw [stored_delete basePoints hins, hprev]
        cases hold : n.2.deltaRemoves.filter fun w => w.id = i with
        | nil =>
          rw [if_neg]
          · rfl
          · intro hmem
            obtain ⟨w, hw, hid⟩ := List.mem_map.mp hmem
            exact List.filter_eq_nil_iff.mp hold w hw (decide_eq_true hid)
        | cons w ws =>
          obtain ⟨hw, hid⟩ := List.mem_filter.mp (hold ▸ List.mem_cons_self : w ∈ _)
          rw [if_pos (of_decide_eq_true hid ▸ List.mem_map_of_mem hw)]
          rfl
      · obtain ⟨w, hw, rfl⟩ := List.mem_map.mp hch
        obtain ⟨hw, hid⟩ := List.mem_filter.mp hw
        exact (stored_eq_some_iff h.1.nodup).mpr ⟨h.2.1 hw, of_decide_eq_true hid⟩

/-- When the difference gets a point right that is `d1` in one version and `d2` in the other, with the
ranks of both branches and the point `first` that their oldest change names. -/
def Agrees (d1 d2 first : Option Value) (rank1 rank2 : ℕ) : Prop :=
  (d1 = d2 ∧ (first = none ∨ rank1 = rank2)) ∨
    (d1 = none ∧ d2 ≠ none ∧ first = d2 ∧ rank1 < rank2) ∨
    (d2 = none ∧ d1 ≠ none ∧ first = d1 ∧ rank2 < rank1)

/-- The two lists agree with what they should be, point by point. -/
theorem agrees_iff {d1 d2 first : Option Value} {rank1 rank2 : ℕ} :
    Agrees d1 d2 first rank1 rank2 ↔
      ∀ w, ((first = some w ∧ rank1 < rank2) ↔ (d2 = some w ∧ d1 ≠ some w)) ∧
        ((first = some w ∧ rank2 < rank1) ↔ (d1 = some w ∧ d2 ≠ some w)) := by
  unfold Agrees
  constructor
  · rintro (⟨rfl, rfl | rfl⟩ | ⟨rfl, hd2, rfl, hlt⟩ | ⟨rfl, hd1, rfl, hlt⟩) w
    · simp
    · simp
    · simp [hlt, hlt.not_gt]
    · simp [hlt, hlt.not_gt]
  · intro h
    cases d1 with
    | none =>
      cases d2 with
      | none =>
        refine .inl ⟨rfl, ?_⟩
        cases first with
        | none => exact .inl rfl
        | some w =>
          have hw := h w
          simp only [true_and, reduceCtorEq, false_and, iff_false, not_lt] at hw
          exact .inr (le_antisymm hw.2 hw.1)
      | some w =>
        obtain ⟨hfirst, hlt⟩ := (h w).1.mpr ⟨rfl, by simp⟩
        exact .inr (.inl ⟨rfl, by simp, hfirst, hlt⟩)
    | some w =>
      cases d2 with
      | none =>
        obtain ⟨hfirst, hlt⟩ := (h w).2.mpr ⟨rfl, by simp⟩
        exact .inr (.inr ⟨rfl, by simp, hfirst, hlt⟩)
      | some w' =>
        -- a point that moves inside the box would have to be on both lists
        by_cases heq : w = w'
        · subst heq
          refine .inl ⟨rfl, ?_⟩
          cases first with
          | none => exact .inl rfl
          | some u =>
            have hu := h u
            simp only [true_and, ne_eq, and_not_self, iff_false, not_lt] at hu
            exact .inr (le_antisymm hu.2 hu.1)
        · obtain ⟨-, hlt⟩ := (h w').1.mpr ⟨rfl, by simpa using heq⟩
          obtain ⟨-, hgt⟩ := (h w).2.mpr ⟨rfl, by simpa using Ne.symm heq⟩
          exact absurd hlt hgt.not_gt

theorem agrees_same_rank {d1 d2 first : Option Value} {rank : ℕ} :
    Agrees d1 d2 first rank rank ↔ d1 = d2 := by
  simp [Agrees]

theorem agrees_none_none {first : Option Value} {rank1 rank2 : ℕ} :
    Agrees none none first rank1 rank2 ↔ first = none ∨ rank1 = rank2 := by
  simp [Agrees]

theorem agrees_none_left {d1 first : Option Value} {rank1 rank2 : ℕ} (hlt : rank2 < rank1) :
    Agrees d1 none first rank1 rank2 ↔ first = d1 := by
  unfold Agrees
  cases d1 with
  | none => simp [hlt.ne']
  | some w => simp [hlt]

theorem agrees_first_left {d1 first : Option Value} {rank1 rank2 : ℕ} (hlt : rank2 < rank1) :
    Agrees d1 first first rank1 rank2 ↔ d1 = none ∧ first = none := by
  unfold Agrees
  cases d1 with
  | none =>
    cases first with
    | none => simp
    | some w => simp [hlt.not_gt]
  | some w =>
    cases first with
    | none => simp
    | some w' => simp [hlt.ne']

theorem agrees_comm {d1 d2 first : Option Value} {rank1 rank2 : ℕ} :
    Agrees d1 d2 first rank1 rank2 ↔ Agrees d2 d1 first rank2 rank1 := by
  rw [agrees_iff, agrees_iff]
  exact forall_congr' fun w => and_comm

/-! ## Which logs are misread -/

section Logs

variable {first : Change} {before : Option Value} {log1 log2 older other : List Change} {b : Value}

theorem not_misread_nil : ¬Misread q first [] other := by
  intro h
  cases h

theorem misread_removed : Misread q first (.removed b :: older) other ↔
    older.any Change.isInserted = true ∧ other.any Change.isInserted = false ∧
      ∃ a, first = .removed a ∧ a.intersects q = true := by
  constructor
  · intro h
    cases h with
    | removedAgain holder hother hfirst hbox => exact ⟨holder, hother, _, hfirst, hbox⟩
  · rintro ⟨holder, hother, a, hfirst, hbox⟩
    exact .removedAgain holder hother hfirst hbox

theorem misread_inserted_inserted {c : Value} {older' : List Change} :
    Misread q first (.inserted b :: older) (.inserted c :: older') ↔
      b ≠ c ∧ (b.intersects q = true ∨ c.intersects q = true) := by
  constructor
  · intro h
    cases h with
    | twoPoints hne hbox => exact ⟨hne, hbox⟩
    | otherPoint hother hne hbox => exact absurd (hother _ rfl) (by simp [Change.isInserted])
  · rintro ⟨hne, hbox⟩
    exact .twoPoints hne hbox

theorem misread_inserted_removed {c : Value} {older' : List Change} :
    Misread q first (.inserted b :: older) (.removed c :: older') ↔
      first.val ≠ b ∧ (b.intersects q = true ∨ first.val.intersects q = true) := by
  constructor
  · intro h
    cases h with
    | otherPoint hother hne hbox => exact ⟨hne, hbox⟩
  · rintro ⟨hne, hbox⟩
    refine .otherPoint (fun c hc => ?_) hne hbox
    cases hc
    rfl

theorem misread_inserted_nil : Misread q first (.inserted b :: older) [] ↔
    (first.val ≠ b ∧ (b.intersects q = true ∨ first.val.intersects q = true)) ∨
      (first = .removed b ∧ b.intersects q = true) := by
  constructor
  · intro h
    cases h with
    | otherPoint hother hne hbox => exact .inl ⟨hne, hbox⟩
    | samePoint hfirst hbox => exact .inr ⟨hfirst, hbox⟩
  · rintro (⟨hne, hbox⟩ | ⟨hfirst, hbox⟩)
    · exact .otherPoint (fun c hc => by cases hc) hne hbox
    · exact .samePoint hfirst hbox

/-- Points are equal inside the box where they are equal or both outside. -/
theorem inBox_eq_iff {v w : Value} : inBox q (some v) = inBox q (some w) ↔
    ¬(v ≠ w ∧ (v.intersects q = true ∨ w.intersects q = true)) := by
  unfold inBox
  by_cases heq : v = w
  · simp [heq]
  · by_cases hv : v.intersects q = true <;> by_cases hw : w.intersects q = true <;>
      simp [Option.filter_some, hv, hw, heq]

theorem inBox_none (q : BoundingBox) : inBox q none = none := rfl

theorem inBox_eq_none_iff {v : Value} : inBox q (some v) = none ↔ ¬v.intersects q = true := by
  unfold inBox
  simp

/-- Where there is no point before, a removal comes after an insertion. -/
theorem any_of_fits_none {c : Value}
    (h : ∀ ch, (Change.removed c :: older).getLast? = some ch → Fits none ch) :
    older.any Change.isInserted = true := by
  have hne : Change.removed c :: older ≠ [] := List.cons_ne_nil _ _
  have hlast := h _ (List.getLast?_eq_some_getLast hne)
  have hmem := List.getLast_mem hne
  cases hch : (Change.removed c :: older).getLast hne with
  | removed a =>
    rw [hch] at hlast
    cases hlast
  | inserted a =>
    rw [hch] at hmem
    exact List.any_eq_true.mpr ⟨_, (List.mem_cons.mp hmem).resolve_left (by simp), rfl⟩

/-- An identifier that is inserted at last on one branch only. -/
theorem agrees_inserted_iff (hother : ∀ ch ∈ other.head?, ch.isInserted = false)
    (hfirst : (Change.inserted b :: older).getLast? = some first ∨ other.getLast? = some first)
    (h : ∀ ch, (Change.inserted b :: older).getLast? = some ch → Fits before ch) :
    Agrees (inBox q (some b)) (inBox q (pointAfter before other)) (inBox q (some first.val)) 2
        (rank other) ↔
      ¬(Misread q first (.inserted b :: older) other ∨
        Misread q first other (.inserted b :: older)) := by
  have hnot : ¬Misread q first other (.inserted b :: older) := by
    intro h
    cases h with
    | twoPoints => exact absurd (hother _ rfl) (by simp [Change.isInserted])
    | otherPoint => exact absurd (hother _ rfl) (by simp [Change.isInserted])
    | removedAgain holder hany => simp [Change.isInserted] at hany
  rw [or_iff_left hnot]
  cases other with
  | cons ch other =>
    cases ch with
    | inserted c => exact absurd (hother _ rfl) (by simp [Change.isInserted])
    | removed c =>
      have hlt : rank (.removed c :: other) < 2 := by
        rw [rank_removed]
        split <;> decide
      rw [misread_inserted_removed, pointAfter, inBox_none, agrees_none_left hlt, inBox_eq_iff,
        or_comm]
  | nil =>
    rw [misread_inserted_nil, pointAfter]
    have hfits := h first (hfirst.resolve_right (by simp))
    cases first with
    | inserted a =>
      rw [show before = none from hfits, inBox_none, rank, agrees_none_left (by decide),
        inBox_eq_iff, or_comm]
      simp [or_comm]
    | removed a =>
      rw [show before = some a from hfits, Change.val, agrees_first_left (by decide),
        inBox_eq_none_iff, inBox_eq_none_iff]
      by_cases hab : a = b
      · simp [hab]
      · simp [hab]

/-- An identifier that is not inserted at last on any branch. -/
theorem agrees_removed_iff {c : Value} (hother : ∀ ch ∈ other.head?, ch.isInserted = false)
    (hfirst : (Change.removed c :: older).getLast? = some first ∨ other.getLast? = some first)
    (h1 : ∀ ch, (Change.removed c :: older).getLast? = some ch → Fits before ch)
    (h2 : ∀ ch, other.getLast? = some ch → Fits before ch) :
    Agrees none (inBox q (pointAfter before other)) (inBox q (some first.val))
        (rank (.removed c :: older)) (rank other) ↔
      ¬(Misread q first (.removed c :: older) other ∨ Misread q first other (.removed c :: older)) := by
  have hfits : Fits before first := hfirst.elim (h1 first) (h2 first)
  cases first with
  | inserted a =>
    -- every log has an insertion, so the ranks are equal
    obtain rfl : before = none := hfits
    have hany := any_of_fits_none h1
    cases other with
    | nil =>
      rw [rank_removed, if_pos hany, rank, agrees_same_rank, misread_removed]
      simp [pointAfter, inBox_none, not_misread_nil]
    | cons ch other =>
      cases ch with
      | inserted c' => exact absurd (hother _ rfl) (by simp [Change.isInserted])
      | removed c' =>
        rw [rank_removed, if_pos hany, rank_removed, if_pos (any_of_fits_none h2), agrees_same_rank,
          misread_removed, misread_removed]
        simp [pointAfter, inBox_none]
  | removed a =>
    obtain rfl : before = some a := hfits
    cases other with
    | nil =>
      rw [misread_removed, rank_removed, rank, pointAfter, Change.val]
      by_cases hany : older.any Change.isInserted = true
      · rw [if_pos hany, agrees_same_rank, eq_comm, inBox_eq_none_iff]
        simp [hany, not_misread_nil]
      · rw [if_neg hany, agrees_comm, agrees_none_left (by decide)]
        simp [hany, not_misread_nil]
    | cons ch other =>
      cases ch with
      | inserted c' => exact absurd (hother _ rfl) (by simp [Change.isInserted])
      | removed c' =>
        rw [misread_removed, misread_removed, rank_removed, rank_removed, pointAfter, inBox_none,
          agrees_none_none, Change.val, inBox_eq_none_iff]
        by_cases hany : older.any Change.isInserted = true <;>
          by_cases hany' : other.any Change.isInserted = true <;>
          simp [hany, hany', Change.isInserted]

/-- The values that the walks leave behind give the right answer for an identifier exactly when its
logs are not misread. -/
theorem agrees_iff_not_misread (hfirst : log1.getLast? = some first ∨ log2.getLast? = some first)
    (h1 : ∀ ch, log1.getLast? = some ch → Fits before ch)
    (h2 : ∀ ch, log2.getLast? = some ch → Fits before ch) :
    Agrees (inBox q (pointAfter before log1)) (inBox q (pointAfter before log2))
        (inBox q (some first.val)) (rank log1) (rank log2) ↔
      ¬(Misread q first log1 log2 ∨ Misread q first log2 log1) := by
  have hinserted : ∀ (val : Value) (cs : List Change), ∀ ch ∈ (Change.removed val :: cs).head?,
      ch.isInserted = false := by
    intro val cs ch hch
    cases hch
    rfl
  have hnil : ∀ ch ∈ ([] : List Change).head?, ch.isInserted = false := fun ch hch => by cases hch
  rcases log1 with _ | ⟨⟨c⟩ | ⟨b⟩, older⟩ <;> rcases log2 with _ | ⟨⟨c'⟩ | ⟨b'⟩, older'⟩
  · exact absurd hfirst (by simp)
  · rw [agrees_comm, or_comm]
    exact agrees_removed_iff hnil hfirst.symm h2 h1
  · rw [agrees_comm, or_comm]
    exact agrees_inserted_iff hnil hfirst.symm h2
  · exact agrees_removed_iff hnil hfirst h1 h2
  · exact agrees_removed_iff (hinserted c' older') hfirst h1 h2
  · rw [agrees_comm, or_comm]
    exact agrees_inserted_iff (hinserted c older) hfirst.symm h2
  · exact agrees_inserted_iff hnil hfirst h1
  · exact agrees_inserted_iff (hinserted c' older') hfirst h1
  · rw [misread_inserted_inserted, misread_inserted_inserted, pointAfter, pointAfter, rank, rank,
      agrees_same_rank, inBox_eq_iff, ne_comm, or_comm, or_self]

end Logs

theorem agrees_iff_not_misreported (h : VersionTree rtree basePoints ptrs) (h1 : v1 ∈ ptrs)
    (h2 : v2 ∈ ptrs) (hp1 : Proper basePoints v1) (hp2 : Proper basePoints v2) (q : BoundingBox)
    (i : ℕ) : Agrees (inBox q (stored basePoints v1 i)) (inBox q (stored basePoints v2 i))
        (firstIn (branchOf v1 v2) (branchOf v2 v1) q i) (rank (changesOf (branchOf v1 v2) i))
        (rank (changesOf (branchOf v2 v1) i)) ↔ ¬Misreported v1 v2 q i := by
  obtain ⟨hv1, hv2⟩ := branches_spec (h.ne_nil h1) (h.ne_nil h2) (h.coherent h1 h2) (h.deep h1)
    (h.deep h2)
  generalize commonAncestor (raise v1 v2) (raise v2 (raise v1 v2)) = lca at hv1 hv2
  have hsingle : ∀ v ∈ ptrs, ∀ other, ∀ n ∈ branchOf v other,
      n.2.deltaRemoves = [] ∨ n.2.deltaInserts = [] :=
    fun v hv other n hn => h.single v hv n (List.mem_of_mem_filter hn)
  obtain ⟨hd1, hfits1⟩ := stored_append (hsingle v1 h1 v2) (hv1 ▸ hp1) i
  obtain ⟨hd2, hfits2⟩ := stored_append (hsingle v2 h2 v1) (hv2 ▸ hp2) i
  rw [← hv1] at hd1
  rw [← hv2] at hd2
  unfold Misreported firstIn oldest
  rw [hd1, hd2, ← Option.map_or]
  cases hfirst : (changesOf (branchOf v2 v1) i).getLast?.or (changesOf (branchOf v1 v2) i).getLast? with
  | none =>
    obtain ⟨hlog2, hlog1⟩ := Option.or_eq_none_iff.mp hfirst
    rw [List.getLast?_eq_none_iff.mp hlog1, List.getLast?_eq_none_iff.mp hlog2, pointAfter,
      agrees_same_rank]
    simp
  | some first =>
    have hor := (Option.or_eq_some_iff.mp hfirst).imp_right And.right
    rw [Option.map_some, agrees_iff_not_misread hor.symm hfits1 hfits2]
    simp only [hfirst, Option.some.injEq, exists_eq_left']

/-- The difference of two versions is right exactly when no identifier has logs on their branches that
are misread. -/
theorem map_spatial_diff_iff (h : VersionTree rtree basePoints ptrs) (h1 : v1 ∈ ptrs)
    (h2 : v2 ∈ ptrs) (hp1 : Proper basePoints v1) (hp2 : Proper basePoints v2) (q : BoundingBox) :
    (mapSpatialDiff v1 v2 q ⟨[], []⟩).add.Perm ((contents basePoints v2).filter fun w =>
          w.intersects q ∧ w ∉ contents basePoints v1) ∧
        (mapSpatialDiff v1 v2 q ⟨[], []⟩).remove.Perm ((contents basePoints v1).filter fun w =>
          w.intersects q ∧ w ∉ contents basePoints v2) ↔
      ∀ i, ¬Misreported v1 v2 q i := by
  obtain ⟨haddNodup, hremoveNodup, hmem⟩ := mapSpatialDiff_spec h h1 h2 q
  have hu1 := hp1.nodup
  have hu2 := hp2.nodup
  have hexpected1 : ((contents basePoints v1).filter fun w =>
      w.intersects q ∧ w ∉ contents basePoints v2).Nodup := hu1.of_map.filter _
  have hexpected2 : ((contents basePoints v2).filter fun w =>
      w.intersects q ∧ w ∉ contents basePoints v1).Nodup := hu2.of_map.filter _
  rw [List.perm_ext_iff_of_nodup haddNodup hexpected2,
    List.perm_ext_iff_of_nodup hremoveNodup hexpected1]
  simp only [mem_expected_iff hu1 hu2, mem_expected_iff hu2 hu1]
  have hagrees := fun i => agrees_iff_not_misreported h h1 h2 hp1 hp2 q (i := i)
  constructor
  · rintro ⟨hadd, hremove⟩ i
    rw [← hagrees, agrees_iff]
    intro w
    by_cases hw : w.id = i
    · subst hw
      exact ⟨(hmem w).1.symm.trans (hadd w), (hmem w).2.symm.trans (hremove w)⟩
    · have hfirst : firstIn (branchOf v1 v2) (branchOf v2 v1) q i ≠ some w :=
        fun heq => hw (id_of_firstIn heq)
      have hd1 : inBox q (stored basePoints v1 i) ≠ some w := fun heq => hw (id_of_stored heq)
      have hd2 : inBox q (stored basePoints v2 i) ≠ some w := fun heq => hw (id_of_stored heq)
      simp [hfirst, hd1, hd2]
  · intro hall
    refine ⟨fun w => ?_, fun w => ?_⟩
    · exact (hmem w).1.trans (agrees_iff.mp ((hagrees w.id).mpr (hall w.id)) w).1
    · exact (hmem w).2.trans (agrees_iff.mp ((hagrees w.id).mpr (hall w.id)) w).2

/-- An identifier that changes once, on the second branch, is reported right. -/
theorem not_misreported_of_once {ch : Change} (h1 : changesOf (branchOf v1 v2) i = [])
    (h2 : changesOf (branchOf v2 v1) i = [ch]) : ¬Misreported v1 v2 q i := by
  rintro ⟨first, hfirst, hmis⟩
  rw [h1, h2] at hmis
  rw [h1, h2] at hfirst
  obtain rfl : ch = first := Option.some.inj hfirst
  rcases hmis with hmis | hmis
  · exact not_misread_nil hmis
  · cases hmis with
    | otherPoint hother hne hbox => exact hne rfl
    | samePoint hch hbox => cases hch
    | removedAgain holder hother hch hbox => cases holder

/-- A version that removes one of two points, against its parent. -/
theorem map_spatial_diff_iff_removed :
    let base : List Value := [⟨1, 1, 1⟩, ⟨2, 2, 2⟩]
    let v1 : Ptr (List Value) := [(0, mapInit listTree base)]
    let v2 : Ptr (List Value) :=
      (1, .node (mapInit listTree base) 1 [] [⟨1, 1, 1⟩] none 1 2) :: v1
    let q : BoundingBox := ⟨.ofXY 0 0, .ofXY 5 5⟩
    (mapSpatialDiff v1 v2 q ⟨[], []⟩).add.Perm ((contents base v2).filter fun w =>
        w.intersects q ∧ w ∉ contents base v1) ∧
      (mapSpatialDiff v1 v2 q ⟨[], []⟩).remove.Perm ((contents base v1).filter fun w =>
        w.intersects q ∧ w ∉ contents base v2) := by
  intro base v1 v2 q
  have hnext : Step.apply listTree (Ptr.node v1) (.mapDelete [⟨1, 1, 1⟩] 5) =
      some (.node (mapInit listTree base) 1 [] [⟨1, 1, 1⟩] none 1 2) :=
    if_neg (by norm_num [Ptr.node, v1, mapInit, base, VersionNode.cumulativeLogSize,
      VersionNode.currentBaseSize])
  have htree : VersionTree listTree base [v1, v2] :=
    .apply .mapInit (List.mem_singleton_self _) _ hnext
  have h1 : v1 ∈ [v1, v2] := by simp
  have h2 : v2 ∈ [v1, v2] := by simp
  have hp1 : Proper base v1 := by decide +kernel
  have hp2 : Proper base v2 := by decide +kernel
  refine (map_spatial_diff_iff htree h1 h2 hp1 hp2 q).mpr fun i => ?_
  by_cases hone : i = 1
  · subst hone
    exact not_misreported_of_once (by decide +kernel)
      (by decide +kernel : _ = [Change.removed ⟨1, 1, 1⟩])
  · have hchanges1 : changes (branchOf v1 v2) = [] := by decide +kernel
    have hchanges2 : changes (branchOf v2 v1) = [.removed ⟨1, 1, 1⟩] := by decide +kernel
    rintro ⟨first, hfirst, -⟩
    unfold changesOf at hfirst
    rw [hchanges1, hchanges2] at hfirst
    simp [Change.val, Ne.symm hone] at hfirst

/-- A point that moves inside the box: where it was comes back as added, and nothing as removed. -/
theorem moved_point_misreported :
    let base : List Value := [⟨1, 1, 1⟩]
    let root : VersionNode (List Value) := mapInit listTree base
    let deleted : VersionNode (List Value) := .node root 1 [] [⟨1, 1, 1⟩] none 1 1
    let moved : VersionNode (List Value) := .node deleted 2 [⟨2, 2, 1⟩] [] none 2 1
    let v1 : Ptr (List Value) := [(0, root)]
    let v2 : Ptr (List Value) := [(2, moved), (1, deleted), (0, root)]
    VersionTree listTree base [v1, [(1, deleted), (0, root)], v2] ∧ Proper base v1 ∧ Proper base v2 ∧
      contents base v1 = [⟨1, 1, 1⟩] ∧ contents base v2 = [⟨2, 2, 1⟩] ∧
      mapSpatialDiff v1 v2 ⟨.ofXY 0 0, .ofXY 5 5⟩ ⟨[], []⟩ = ⟨[⟨1, 1, 1⟩], []⟩ := by
  intro base root deleted moved v1 v2
  have hdelete : Step.apply listTree root (.mapDelete [⟨1, 1, 1⟩] 5) = some deleted :=
    if_neg (by norm_num [root, mapInit, base, VersionNode.cumulativeLogSize,
      VersionNode.currentBaseSize])
  have hinsert : Step.apply listTree deleted (.mapInsert [⟨2, 2, 1⟩] 5) = some moved :=
    if_neg (by norm_num [deleted, VersionNode.cumulativeLogSize, VersionNode.currentBaseSize])
  refine ⟨?_, by decide +kernel, by decide +kernel, by decide +kernel, by decide +kernel,
    by decide +kernel⟩
  have hroot : VersionTree listTree base [v1] := .mapInit
  have hsecond : VersionTree listTree base [v1, [(1, deleted), (0, root)]] :=
    .apply hroot (List.mem_singleton_self _) _ hdelete
  exact .apply hsecond (List.mem_cons_of_mem _ (List.mem_singleton_self _)) _ hinsert

end Trees

end Rlog

end Silva
