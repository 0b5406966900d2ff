import Silva.Mvq.Proofs.GcProofs

/-!
# Proofs: histories on the store

In every memory that a history leads to, the retained roots read as versions. An operation adds a root
that reads as the operation on trees, leaves the trees of all retained roots as they are, and shares
with its input every interior node that its batches do not touch.
-/

namespace Silva

open RefCount (Ptr Mem Reach Extends)
open Node (sons)

variable {leafSize : Nat} {m m' : Mem Node} {store : Store} {x x' : Ptr} {t t' : BaseNode}

/-! ## Single updates -/

namespace Store

theorem build_updated (leafSize : Nat) (store : Store) (P : List Point) :
    ∃ store' x', build leafSize store P = some (store', x') ∧
      Updated store none store' x' (Tree.build leafSize P) := by
  unfold build Tree.build
  by_cases hP : P.isEmpty = true
  · rw [if_pos hP, if_pos hP]
    exact ⟨store, none, rfl, .refl .null⟩
  · rw [if_neg hP, if_neg hP]
    exact buildNode_updated leafSize 64 store P

theorem insert_updated (ht : Version leafSize t) (hread : Reads store x t) {Q : List Point}
    (hQ : Batch Q) :
    ∃ store' x', multiVersionBatchInsertSorted leafSize store Q x = some (store', x') ∧
      Updated store x store' x' (Tree.multiVersionBatchInsertSorted leafSize Q t) ∧
      Shares 64 Q store x store' x' :=
  insertNode_updated ht.isVersion hread hQ.cell

theorem delete_updated (ht : Version leafSize t) (hread : Reads store x t) {Q : List Point}
    (hQ : Batch Q) (ht' : Tree.multiVersionBatchDeleteSorted leafSize Q t = some t') :
    ∃ store' x', multiVersionBatchDeleteSorted leafSize store Q x = some (store', x') ∧
      Updated store x store' x' t' ∧ Shares 64 Q store x store' x' :=
  deleteNode_updated ht.isVersion hread hQ.cell ht'

theorem Updated.isInte {store' : Store} (h : Updated store x store' x' t') {a : Nat}
    (ha : IsInte store a) : IsInte store' a := by
  obtain ⟨l, r, n, ha⟩ := ha
  exact ⟨l, r, n, h.extend _ _ ha⟩

end Store

/-! ## Operations -/

/-- What an operation on the root `x` does to the memory: the new root `x'` reads as `t'`. -/
structure Adds (m : Mem Node) (x : Ptr) (batch : List Point) (m' : Mem Node) (x' : Ptr)
    (t' : BaseNode) : Prop where
  vars : m'.vars = m.vars ++ [x']
  reads : Store.Reads m'.store x' t'
  frame : ∀ y t, y ∈ m.vars → Store.Reads m.store y t → Store.Reads m'.store y t
  shares : Store.Shares 64 batch m.store x m'.store x'

theorem Adds.of_updated {batch : List Point} (h : Store.Updated m.store x store x' t')
    (hshares : Store.Shares 64 batch m.store x store x') :
    Adds m x batch { store, vars := m.vars ++ [x'] } x' t' :=
  ⟨rfl, h.reads, fun _ _ _ hy => hy.mono h.extend, hshares⟩

/-- The trees of the other variables survive a garbage collection. -/
theorem reads_of_keeps {i j : Nat} (h : m.Keeps sons i m') (hj : m.vars[j]? = some x) (hji : j ≠ i)
    (hread : Store.Reads m.store x t) :
    Store.Reads m'.store x t ∧
      ∀ path, Store.ptrAt m'.store x path = Store.ptrAt m.store x path := by
  have hframe : ∀ c n, Reach sons m.store x c → m.store[c]? = some n → m'.store[c]? = some n :=
    fun c n hc hn => (h.store c ⟨j, x, hji, hj, hc⟩).trans hn
  exact ⟨hread.frame hframe, hread.ptrAt_frame hframe⟩

theorem Adds.commit (ht : Version leafSize t) (hread : Store.Reads m.store x t)
    {PInsert PDelete : List Point} {v : Nat} (hv : m.vars[v]? = some x)
    (ht' : Tree.commit leafSize t PInsert PDelete = some t') :
    ∃ m' x', (Op.commit v PInsert PDelete).applyStore leafSize m = some m' ∧
      Adds m x (withCodes PDelete ++ withCodes PInsert) m' x' t' := by
  have hD := getSortedPoints_batch PDelete
  obtain ⟨tmp, htmp, ht'⟩ := Option.bind_eq_some_iff.mp ht'
  cases ht'
  obtain ⟨store1, tmpVer, hdel, hud, hsd⟩ := Store.delete_updated ht hread hD htmp
  have htmpVer := ht.delete hD htmp
  obtain ⟨store2, newVer, hins, hui, hsi⟩ :=
    Store.insert_updated htmpVer hud.reads (getSortedPoints_batch PInsert)
  have hext := hud.extend.trans hui.extend
  -- the temporary version is collected
  have hderef : Tree.deref { store := store2, vars := m.vars ++ [newVer, tmpVer] }
      (.var (m.vars.length + 1)) = some tmpVer := by
    rw [Tree.deref, List.getElem?_append_right (Nat.le_add_right _ 1), Nat.add_sub_cancel_left]
    rfl
  obtain ⟨m', hgc, -⟩ := @Tree.gcNocheck_isSome 66 _ _ _ _ hderef (hud.reads.mono hui.extend)
    (Nat.lt_succ_of_le (Tree.height_le htmpVer.isVersion))
  have htmpPrivate : Tree.Private { store := store2, vars := m.vars ++ [newVer, tmpVer] }
      (m.vars.length + 1) (.var (m.vars.length + 1)) := rfl
  have hkeeps := Tree.gcNocheck_keeps htmpPrivate hgc
  have hnew : (m.vars ++ [newVer, tmpVer])[m.vars.length]? = some newVer := by simp
  have hnew' := reads_of_keeps hkeeps hnew (by omega) hui.reads
  refine ⟨{ m' with vars := m'.vars.eraseIdx (m.vars.length + 1) }, newVer, ?_, ?_, hnew'.1, ?_, ?_⟩
  · rw [Op.applyStore, hv]
    simp only [Option.bind_eq_bind, Option.bind_some, hdel, hins, hgc]
    rfl
  · show m'.vars.eraseIdx _ = _
    rw [hkeeps.eraseIdx]
    show (m.vars ++ [newVer, tmpVer]).eraseIdx (m.vars.length + 1) = _
    rw [List.eraseIdx_append_of_length_le (Nat.le_add_right _ 1), Nat.add_sub_cancel_left]
    rfl
  · intro y u hy hyread
    obtain ⟨j, hj⟩ := List.mem_iff_getElem?.mp hy
    have hlt := (List.getElem?_eq_some_iff.mp hj).1
    have hj' : (m.vars ++ [newVer, tmpVer])[j]? = some y := by
      rwa [List.getElem?_append_left hlt]
    exact (reads_of_keeps hkeeps hj' (by omega) (hyread.mono hext)).1
  · intro path a hne ha hpath hfree
    have hfreeD : ∀ p ∈ getSortedPoints PDelete, ¬Store.InRegion 64 path p.mortonId := fun p hp =>
      hfree p (List.mem_append_left _ ((getSortedPoints_perm PDelete).mem_iff.mp hp))
    have hfreeI : ∀ p ∈ getSortedPoints PInsert, ¬Store.InRegion 64 path p.mortonId := fun p hp =>
      hfree p (List.mem_append_right _ ((getSortedPoints_perm PInsert).mem_iff.mp hp))
    have htmpPath := hsd path a hne ha hpath hfreeD
    exact (hnew'.2 path).trans (hsi path a hne (hud.isInte ha) htmpPath hfreeI)

/-! ## Memories that read as versions -/

/-- The variables of the memory read as the versions. -/
structure Stores (leafSize : Nat) (m : Mem Node) (versions : List BaseNode) : Prop where
  reads : List.Forall₂ (Store.Reads m.store) m.vars versions
  version : ∀ t ∈ versions, Version leafSize t

theorem Stores.get {versions : List BaseNode} (h : Stores leafSize m versions) {v : Nat}
    (hv : versions[v]? = some t) :
    ∃ x, m.vars[v]? = some x ∧ Store.Reads m.store x t := by
  obtain ⟨hlt, rfl⟩ := List.getElem?_eq_some_iff.mp hv
  have hlt' : v < m.vars.length := by rw [h.reads.length_eq]; exact hlt
  exact ⟨m.vars[v], List.getElem?_eq_getElem hlt', h.reads.get hlt' hlt⟩

/-- The root in variable `v` is that of version `v`. -/
theorem Stores.reads_at {versions : List BaseNode} (h : Stores leafSize m versions) {v : Nat}
    (hv : versions[v]? = some t) (hx : m.vars[v]? = some x) :
    Store.Reads m.store x t ∧ Version leafSize t := by
  obtain ⟨x0, hx0, hread⟩ := h.get hv
  obtain rfl : x0 = x := Option.some.inj (hx0.symm.trans hx)
  exact ⟨hread, h.version t (List.mem_of_getElem? hv)⟩

theorem Stores.adds {versions : List BaseNode} {batch : List Point}
    (h : Stores leafSize m versions) (hadds : Adds m x batch m' x' t')
    (ht' : Version leafSize t') : Stores leafSize m' (versions ++ [t']) := by
  refine ⟨?_, fun t ht => ?_⟩
  · rw [hadds.vars]
    refine List.rel_append ?_ (.cons hadds.reads .nil)
    refine List.forall₂_iff_get.mpr ⟨h.reads.length_eq, fun i h1 h2 => ?_⟩
    exact hadds.frame _ _ (List.get_mem _ _) (h.reads.get h1 h2)
  · rcases List.mem_append.mp ht with ht | ht
    · exact h.version t ht
    · rwa [List.mem_singleton.mp ht]

/-- One operation: the memory follows the trees. -/
theorem Stores.apply {versions : List BaseNode} (h : Stores leafSize m versions) {op : Op}
    (hop : op.Sorted) (ht' : op.apply leafSize versions = some t') (hx : m.vars[op.version]? = some x) :
    ∃ m' x', op.applyStore leafSize m = some m' ∧ Adds m x op.batch m' x' t' ∧
      Stores leafSize m' (versions ++ [t']) := by
  cases op with
  | insert v P =>
    replace hx : m.vars[v]? = some x := hx
    obtain ⟨t, ht, ht'⟩ := Option.bind_eq_some_iff.mp ht'
    cases ht'
    obtain ⟨hread, hver⟩ := h.reads_at ht hx
    obtain ⟨store, x', hins, hupd, hshares⟩ := Store.insert_updated hver hread hop
    have hadds := Adds.of_updated hupd hshares
    refine ⟨_, x', ?_, hadds, h.adds hadds (hver.insert hop)⟩
    rw [Op.applyStore, hx]
    simp only [Option.bind_eq_bind, Option.bind_some, hins]
    rfl
  | delete v P =>
    replace hx : m.vars[v]? = some x := hx
    obtain ⟨t, ht, ht'⟩ := Option.bind_eq_some_iff.mp ht'
    obtain ⟨hread, hver⟩ := h.reads_at ht hx
    obtain ⟨store, x', hdel, hupd, hshares⟩ := Store.delete_updated hver hread hop ht'
    have hadds := Adds.of_updated hupd hshares
    refine ⟨_, x', ?_, hadds, h.adds hadds (hver.delete hop ht')⟩
    rw [Op.applyStore, hx]
    simp only [Option.bind_eq_bind, Option.bind_some, hdel]
    rfl
  | commit v I D =>
    obtain ⟨t, ht, ht'⟩ := Option.bind_eq_some_iff.mp ht'
    obtain ⟨hread, hver⟩ := h.reads_at ht hx
    obtain ⟨m', x', hrun, hadds⟩ := Adds.commit hver hread hx ht'
    exact ⟨m', x', hrun, hadds, h.adds hadds (hver.commit ht')⟩

theorem Stores.var_iff {versions : List BaseNode} (h : Stores leafSize m versions) {v : Nat}
    (hx : m.vars[v]? = some x) :
    ∃ t, versions[v]? = some t ∧ Store.Reads m.store x t ∧ Version leafSize t := by
  obtain ⟨hlt, rfl⟩ := List.getElem?_eq_some_iff.mp hx
  have hlt' : v < versions.length := by rw [← h.reads.length_eq]; exact hlt
  exact ⟨versions[v], List.getElem?_eq_getElem hlt', h.reads.get hlt hlt',
    h.version _ (List.getElem_mem hlt')⟩

/-- Relations between lists, position by position. -/
theorem forall₂_imp_index {α β : Type*} {R S : α → β → Prop} {xs : List α} {ys : List β}
    (h : List.Forall₂ R xs ys) (hS : ∀ (j : ℕ) x y, xs[j]? = some x → R x y → S x y) :
    List.Forall₂ S xs ys := by
  induction h with
  | nil => exact .nil
  | cons hxy _ ih => exact .cons (hS 0 _ _ rfl hxy) (ih fun j => hS (j + 1))

theorem forall₂_eraseIdx {α β : Type*} {R S : α → β → Prop} {xs : List α} {ys : List β} {v : Nat}
    (h : List.Forall₂ R xs ys) (hS : ∀ (j : ℕ) x y, j ≠ v → xs[j]? = some x → R x y → S x y) :
    List.Forall₂ S (xs.eraseIdx v) (ys.eraseIdx v) := by
  induction h generalizing v with
  | nil => exact .nil
  | cons hxy hrest ih =>
    cases v with
    | zero => exact forall₂_imp_index hrest fun j x y => hS (j + 1) x y (Nat.succ_ne_zero j)
    | succ v =>
      exact .cons (hS 0 _ _ (Nat.succ_ne_zero v).symm rfl hxy)
        (ih fun j x y hj => hS (j + 1) x y (by omega))

/-- A version that is released leaves the other ones as they are. -/
theorem Stores.release {versions : List BaseNode} {v : Nat} (h : Stores leafSize m versions)
    (hgc : Tree.gcNocheck 66 m (.var v) = some m') :
    Stores leafSize { m' with vars := m'.vars.eraseIdx v } (versions.eraseIdx v) := by
  have hprivate : Tree.Private m v (.var v) := rfl
  have hkeeps := Tree.gcNocheck_keeps hprivate hgc
  refine ⟨?_, fun t ht => h.version t (List.mem_of_mem_eraseIdx ht)⟩
  show List.Forall₂ _ (m'.vars.eraseIdx v) _
  rw [hkeeps.eraseIdx]
  exact forall₂_eraseIdx h.reads fun j x t hj hx hread => (reads_of_keeps hkeeps hx hj hread).1

/-- An operation on a version that exists always has a result. -/
theorem Op.apply_isSome {versions : List BaseNode} (hver : ∀ t ∈ versions, Version leafSize t)
    {op : Op} (hop : op.Sorted) (ht : versions[op.version]? = some t) :
    ∃ t', op.apply leafSize versions = some t' := by
  have hw := (hver t (List.mem_of_getElem? ht)).isVersion
  cases op with
  | insert v P => exact ⟨_, by rw [Op.apply, show versions[v]? = some t from ht]; rfl⟩
  | delete v P =>
    obtain ⟨t', ht', -⟩ := hw.delete hop
    exact ⟨t', by rw [Op.apply, show versions[v]? = some t from ht]; exact ht'⟩
  | commit v I D =>
    obtain ⟨t', ht', -⟩ := hw.commit I D
    exact ⟨t', by rw [Op.apply, show versions[v]? = some t from ht]; exact ht'⟩

theorem Op.exists_var {op : Op} (h : op.applyStore leafSize m = some m') :
    ∃ x, m.vars[op.version]? = some x := by
  cases op <;>
    · obtain ⟨x, hx, -⟩ := Option.bind_eq_some_iff.mp h
      exact ⟨x, hx⟩

/-! ## Histories -/

/-- Every memory that a history leads to stores versions. -/
theorem Reachable.stores (h : Reachable leafSize m) : ∃ versions, Stores leafSize m versions := by
  induction h with
  | @build P store x hP hbuild =>
    obtain ⟨store', x', hbuild', hupd⟩ := Store.build_updated leafSize [] P
    rw [hbuild] at hbuild'
    cases hbuild'
    refine ⟨[Tree.build leafSize P], .cons hupd.reads .nil, fun t ht => ?_⟩
    rw [List.mem_singleton.mp ht]
    exact .build hP
  | @step m m' op _ hop hrun ih =>
    obtain ⟨versions, hstores⟩ := ih
    obtain ⟨x, hx⟩ := Op.exists_var hrun
    obtain ⟨t, ht, -, -⟩ := hstores.var_iff hx
    obtain ⟨t', ht'⟩ := Op.apply_isSome hstores.version hop ht
    obtain ⟨m'', x', hrun', -, hstores'⟩ := hstores.apply hop ht' hx
    rw [hrun] at hrun'
    cases hrun'
    exact ⟨_, hstores'⟩
  | release _ _ hgc ih =>
    obtain ⟨versions, hstores⟩ := ih
    exact ⟨_, hstores.release hgc⟩

/-- A history on the store follows the same history on trees. -/
theorem run_refines {ops : List Op} : ∀ {m : Mem Node} {versions versions' : List BaseNode},
    Stores leafSize m versions → (∀ op ∈ ops, op.Sorted) →
    run leafSize ops versions = some versions' →
    ∃ m', runStore leafSize ops m = some m' ∧ Stores leafSize m' versions' := by
  induction ops with
  | nil =>
    intro m versions versions' h _ hrun
    cases hrun
    exact ⟨m, rfl, h⟩
  | cons op ops ih =>
    intro m versions versions' h hops hrun
    obtain ⟨t', ht', hrest⟩ := Option.bind_eq_some_iff.mp hrun
    obtain ⟨x, hx⟩ : ∃ x, m.vars[op.version]? = some x := by
      cases op <;>
        · obtain ⟨t, ht, -⟩ := Option.bind_eq_some_iff.mp ht'
          obtain ⟨x, hx, -⟩ := h.get ht
          exact ⟨x, hx⟩
    obtain ⟨m1, x', hstep, -, h1⟩ := h.apply (hops op (by simp)) ht' hx
    obtain ⟨m2, hrun2, h2⟩ := ih h1 (fun o ho => hops o (List.mem_cons_of_mem _ ho)) hrest
    refine ⟨m2, ?_, h2⟩
    rw [runStore, hstep]
    exact hrun2

/-- Persistence by path copying. In every memory that a history leads to, an operation on a retained
root adds a root; the tree of every retained root is the same before and after, and every interior
node below the input root whose region has no key of the batches is below the new root, at the same
position and the same address. -/
theorem path_copying (hm : Reachable leafSize m) {op : Op} (hop : op.Sorted)
    (hx : m.vars[op.version]? = some x) :
    ∃ m' x', op.applyStore leafSize m = some m' ∧ m'.vars = m.vars ++ [x'] ∧
      (∀ y ∈ m.vars, ∃ t, Store.Reads m.store y t ∧ Store.Reads m'.store y t) ∧
      Store.Shares 64 op.batch m.store x m'.store x' := by
  obtain ⟨versions, hstores⟩ := hm.stores
  obtain ⟨t, ht, -, -⟩ := hstores.var_iff hx
  obtain ⟨t', ht'⟩ := Op.apply_isSome hstores.version hop ht
  obtain ⟨m', x', hrun, hadds, -⟩ := hstores.apply hop ht' hx
  refine ⟨m', x', hrun, hadds.vars, fun y hy => ?_, hadds.shares⟩
  obtain ⟨j, hj⟩ := List.mem_iff_getElem?.mp hy
  obtain ⟨u, -, hread, -⟩ := hstores.var_iff hj
  exact ⟨u, hread, hadds.frame y u hy hread⟩

/-- A commit on a tree with two records in leaves of their own. -/
theorem path_copying_commit :
    ∃ m x, Reachable 1 m ∧ m.vars[0]? = some x ∧
      ∃ m' x', (Op.commit 0 [⟨5, 2, 2, 0⟩] [⟨9, 5, 6, 0⟩]).applyStore 1 m = some m' ∧
        m'.vars = m.vars ++ [x'] ∧
        (∀ y ∈ m.vars, ∃ t, Store.Reads m.store y t ∧ Store.Reads m'.store y t) ∧
        Store.Shares 64 (Op.commit 0 [⟨5, 2, 2, 0⟩] [⟨9, 5, 6, 0⟩]).batch m.store x m'.store x' := by
  obtain ⟨store, x, hbuild, -⟩ := Store.build_updated 1 [] [⟨5, 1, 1, 3⟩, ⟨9, 5, 6, 54⟩]
  have hm := Reachable.build ⟨by decide +kernel, by decide +kernel⟩ hbuild
  exact ⟨_, x, hm, rfl, path_copying hm trivial rfl⟩

end Silva
