import Mathlib

/-!
# Reference-counted nodes in a store

A store is a list of nodes, and an address is an index into it. `kids` gives the pointers that a node
holds. A node can be reached from a pointer through the pointers that nodes hold; the use count of a
node is the number of pointers to it, in nodes and in variables.
-/

namespace RefCount

/-- A shared pointer: null, or the address of a node. -/
abbrev Ptr := Option ℕ

/-- The nodes, and the pointer variables that are alive. -/
structure Mem (N : Type*) where
  /-- The node at each address. -/
  store : List N
  /-- The pointer variables. -/
  vars : List Ptr
  deriving DecidableEq

variable {N : Type*} {kids : N → List Ptr}

/-- Every node of the one store is in the other one. -/
def Extends (store store' : List N) : Prop :=
  ∀ (a : ℕ) (n : N), store[a]? = some n → store'[a]? = some n

/-- Every node of the one store, except the one at `a`, is in the other one. -/
def ExtendsBut (a : ℕ) (store store' : List N) : Prop :=
  ∀ (c : ℕ) (n : N), c ≠ a → store[c]? = some n → store'[c]? = some n

section Extends

variable {store store' store'' : List N} {a : ℕ}

theorem Extends.refl (store : List N) : Extends store store := fun _ _ h => h

theorem Extends.trans (h : Extends store store') (h' : Extends store' store'') :
    Extends store store'' := fun a n hn => h' a n (h a n hn)

theorem Extends.append (store fresh : List N) : Extends store (store ++ fresh) := by
  intro a n hn
  rwa [List.getElem?_append_left (List.getElem?_eq_some_iff.mp hn).1]

theorem Extends.length_le (h : Extends store store') : store.length ≤ store'.length := by
  by_contra hlt
  have hlt' : store'.length < store.length := not_le.mp hlt
  have hnode := h _ _ (List.getElem?_eq_getElem hlt')
  exact absurd (List.getElem?_eq_some_iff.mp hnode).1 (lt_irrefl _)

theorem Extends.extendsBut (h : Extends store store') : ExtendsBut a store store' :=
  fun c n _ hn => h c n hn

theorem ExtendsBut.trans (h : ExtendsBut a store store') (h' : ExtendsBut a store' store'') :
    ExtendsBut a store store'' := fun c n hc hn => h' c n hc (h c n hc hn)

theorem ExtendsBut.set (store : List N) (a : ℕ) (n : N) : ExtendsBut a store (store.set a n) := by
  intro c m hc hm
  rwa [List.getElem?_set_ne (Ne.symm hc)]

/-- An overwritten node that was not there before does not matter. -/
theorem Extends.trans_but (h : Extends store store') (h' : ExtendsBut a store' store'')
    (ha : store.length ≤ a) : Extends store store'' := by
  intro c n hn
  have hc := (List.getElem?_eq_some_iff.mp hn).1
  exact h' c n (by omega) (h c n hn)

end Extends

/-- The nodes that can be reached from a pointer. -/
inductive Reach (kids : N → List Ptr) (store : List N) : Ptr → ℕ → Prop where
  /-- The node that the pointer points to. -/
  | here (a : ℕ) : Reach kids store (some a) a
  /-- What a pointer of that node reaches. -/
  | child {a c : ℕ} {n : N} {y : Ptr} (hn : store[a]? = some n) (hy : y ∈ kids n)
      (h : Reach kids store y c) : Reach kids store (some a) c

namespace Reach

variable {store store' : List N} {x y : Ptr} {a c : ℕ}

theorem not_null : ¬Reach kids store none c := by
  rintro ⟨⟩

theorem trans (h : Reach kids store x a) (h' : Reach kids store (some a) c) :
    Reach kids store x c := by
  induction h with
  | here a => exact h'
  | child hn hy _ ih => exact .child hn hy (ih h')

theorem kid {n : N} (h : Reach kids store x a) (hn : store[a]? = some n) (hy : y ∈ kids n)
    (hc : Reach kids store y c) : Reach kids store x c :=
  h.trans (.child hn hy hc)

/-- A node that is reached is the one pointed at, or a node on the way points at it. -/
theorem eq_or_exists_parent (h : Reach kids store x c) :
    x = some c ∨ ∃ d n, Reach kids store x d ∧ store[d]? = some n ∧ some c ∈ kids n := by
  induction h with
  | here a => exact Or.inl rfl
  | @child a c n y hn hy _ ih =>
    rcases ih with rfl | ⟨d, m, hd, hm, hc⟩
    · exact Or.inr ⟨a, n, .here a, hn, hy⟩
    · exact Or.inr ⟨d, m, .child hn hy hd, hm, hc⟩

/-- What a pointer reaches depends only on the nodes that it reaches. -/
theorem of_agree (hagree : ∀ c, Reach kids store x c → store'[c]? = store[c]?)
    (h : Reach kids store x c) : Reach kids store' x c := by
  induction h with
  | here a => exact .here a
  | child hn hy hc ih =>
    refine .child ((hagree _ (.here _)).trans hn) hy (ih fun d hd => hagree d ?_)
    exact .child hn hy hd

theorem agree_iff (hagree : ∀ c, Reach kids store x c → store'[c]? = store[c]?) :
    Reach kids store' x c ↔ Reach kids store x c := by
  constructor
  · intro h
    induction h with
    | here a => exact .here a
    | @child a c n y hn hy hc ih =>
      rw [hagree a (.here a)] at hn
      exact .child hn hy (ih fun d hd => hagree d (.child hn hy hd))
  · exact of_agree hagree

/-- Allocation keeps what can be reached. -/
theorem mono (h : Reach kids store x c) (hext : Extends store store') : Reach kids store' x c := by
  induction h with
  | here a => exact .here a
  | child hn hy _ ih => exact .child (hext _ _ hn) hy ih

end Reach

/-! ## Use counts -/

/-- The number of pointers to a node. -/
def Mem.useCount (kids : N → List Ptr) (m : Mem N) (a : ℕ) : ℕ :=
  m.vars.count (some a) + (m.store.flatMap kids).count (some a)

/-- Two places of a list that hold the element. -/
theorem two_le_count {α : Type*} [BEq α] [LawfulBEq α] {xs : List α} {i j : ℕ} {x : α} (hij : i ≠ j)
    (hi : xs[i]? = some x) (hj : xs[j]? = some x) : 2 ≤ xs.count x := by
  wlog hlt : i < j generalizing i j
  · exact this hij.symm hj hi (by omega)
  have hsplit : xs = xs.take j ++ xs.drop j := (List.take_append_drop j xs).symm
  have htake : x ∈ xs.take j := List.mem_of_getElem? (by rwa [List.getElem?_take_of_lt hlt])
  have hdrop : x ∈ xs.drop j := List.mem_of_getElem? (by rwa [List.getElem?_drop, Nat.add_zero])
  have h1 := List.count_pos_iff.mpr htake
  have h2 := List.count_pos_iff.mpr hdrop
  rw [hsplit, List.count_append]
  omega

/-- Two places of a list of lists that hold the element. -/
theorem two_le_count_flatMap {α : Type*} [BEq α] [LawfulBEq α] {xs : List N} {f : N → List α} {i j : ℕ}
    {x : α} {n m : N} (hij : i ≠ j) (hi : xs[i]? = some n) (hj : xs[j]? = some m) (hn : x ∈ f n)
    (hm : x ∈ f m) : 2 ≤ (xs.flatMap f).count x := by
  wlog hlt : i < j generalizing i j n m
  · exact this hij.symm hj hi hm hn (by omega)
  have hsplit : xs = xs.take j ++ xs.drop j := (List.take_append_drop j xs).symm
  have htake : n ∈ xs.take j := List.mem_of_getElem? (by rwa [List.getElem?_take_of_lt hlt])
  have hdrop : m ∈ xs.drop j := List.mem_of_getElem? (by rwa [List.getElem?_drop, Nat.add_zero])
  have h1 := List.count_pos_iff.mpr (List.mem_flatMap.mpr ⟨n, htake, hn⟩)
  have h2 := List.count_pos_iff.mpr (List.mem_flatMap.mpr ⟨m, hdrop, hm⟩)
  rw [hsplit, List.flatMap_append, List.count_append]
  omega

variable {m : Mem N} {S : Set ℕ} {i j a c : ℕ} {x : Ptr}

/-- The nodes that the variables of `S` can reach. -/
def Mem.Protected (kids : N → List Ptr) (m : Mem N) (S : Set ℕ) (c : ℕ) : Prop :=
  ∃ j x, j ∈ S ∧ m.vars[j]? = some x ∧ Reach kids m.store x c

/-- The nodes that some variable other than `i` can reach. -/
def Mem.Kept (kids : N → List Ptr) (m : Mem N) (i : ℕ) (c : ℕ) : Prop :=
  ∃ j x, j ≠ i ∧ m.vars[j]? = some x ∧ Reach kids m.store x c

theorem Mem.Protected.kid {n : N} {y : Ptr} (h : m.Protected kids S a) (hn : m.store[a]? = some n)
    (hy : y ∈ kids n) (hc : Reach kids m.store y c) : m.Protected kids S c := by
  obtain ⟨j, x, hj, hx, hreach⟩ := h
  exact ⟨j, x, hj, hx, hreach.kid hn hy hc⟩

/-- A node that a variable points to and that a variable of `S` reaches is shared. -/
theorem two_le_useCount_of_var (hi : m.vars[i]? = some (some a)) (hiS : i ∉ S)
    (hprot : m.Protected kids S a) : 2 ≤ m.useCount kids a := by
  obtain ⟨j, x, hjS, hj, hreach⟩ := hprot
  have hji : j ≠ i := fun h => hiS (h ▸ hjS)
  unfold Mem.useCount
  rcases hreach.eq_or_exists_parent with rfl | ⟨d, n, -, hn, hmem⟩
  · have := two_le_count hji hj hi
    omega
  · have h1 := List.count_pos_iff.mpr (List.mem_of_getElem? hi)
    have h2 := List.count_pos_iff.mpr
      (List.mem_flatMap.mpr ⟨n, List.mem_of_getElem? hn, hmem⟩)
    omega

/-- A node that a node outside the reach of `S` points to, and that a variable of `S` reaches, is
shared. -/
theorem two_le_useCount_of_node {n : N} (hc : m.store[c]? = some n) (hmem : some a ∈ kids n)
    (hnot : ¬m.Protected kids S c) (hprot : m.Protected kids S a) : 2 ≤ m.useCount kids a := by
  obtain ⟨j, x, hjS, hj, hreach⟩ := hprot
  unfold Mem.useCount
  rcases hreach.eq_or_exists_parent with rfl | ⟨d, n', hd, hn', hmem'⟩
  · have h1 := List.count_pos_iff.mpr (List.mem_of_getElem? hj)
    have h2 := List.count_pos_iff.mpr
      (List.mem_flatMap.mpr ⟨n, List.mem_of_getElem? hc, hmem⟩)
    omega
  · have hdc : d ≠ c := by
      rintro rfl
      exact hnot ⟨j, x, hjS, hj, hd⟩
    have := two_le_count_flatMap hdc hn' hc hmem' hmem
    omega

/-! ## Frames -/

/-- The memory `m'` has the variables of `S` as `m` has them, and the nodes that they reach. -/
structure Mem.Protects (kids : N → List Ptr) (S : Set ℕ) (m m' : Mem N) : Prop where
  vars : ∀ j ∈ S, m'.vars[j]? = m.vars[j]?
  store : ∀ c, m.Protected kids S c → m'.store[c]? = m.store[c]?

/-- The memory `m'` has the variables of `m` other than `i`, and the nodes that they reach. -/
structure Mem.Keeps (kids : N → List Ptr) (i : ℕ) (m m' : Mem N) : Prop where
  vars : ∀ j, j ≠ i → m'.vars[j]? = m.vars[j]?
  store : ∀ c, m.Kept kids i c → m'.store[c]? = m.store[c]?

theorem Mem.Protects.refl (S : Set ℕ) (m : Mem N) : m.Protects kids S m :=
  ⟨fun _ _ => rfl, fun _ _ => rfl⟩

theorem Mem.Protects.protected_iff {m m' : Mem N} (h : m.Protects kids S m') :
    m'.Protected kids S c ↔ m.Protected kids S c := by
  have hreach : ∀ j x, j ∈ S → m.vars[j]? = some x →
      (Reach kids m'.store x c ↔ Reach kids m.store x c) := by
    intro j x hjS hj
    exact Reach.agree_iff fun d hd => h.store d ⟨j, x, hjS, hj, hd⟩
  constructor
  · rintro ⟨j, x, hjS, hj, hc⟩
    rw [h.vars j hjS] at hj
    exact ⟨j, x, hjS, hj, (hreach j x hjS hj).mp hc⟩
  · rintro ⟨j, x, hjS, hj, hc⟩
    exact ⟨j, x, hjS, (h.vars j hjS).trans hj, (hreach j x hjS hj).mpr hc⟩

theorem Mem.Protects.trans {m m' m'' : Mem N} (h : m.Protects kids S m')
    (h' : m'.Protects kids S m'') : m.Protects kids S m'' :=
  ⟨fun j hj => (h'.vars j hj).trans (h.vars j hj),
    fun c hc => (h'.store c (h.protected_iff.mpr hc)).trans (h.store c hc)⟩

/-- Overwriting a node that the variables do not reach. -/
theorem Mem.Protects.set_store (hc : ¬m.Protected kids S c) (n : N) :
    m.Protects kids S { m with store := m.store.set c n } := by
  refine ⟨fun _ _ => rfl, fun d hd => ?_⟩
  exact List.getElem?_set_ne (by rintro rfl; exact hc hd)

/-- Overwriting another variable. -/
theorem Mem.Protects.set_var (hi : i ∉ S) (m : Mem N) (x : Ptr) :
    m.Protects kids S { m with vars := m.vars.set i x } :=
  ⟨fun _ hj => List.getElem?_set_ne (by rintro rfl; exact hi hj), fun _ _ => rfl⟩

/-- To keep all variables but one is to protect them. -/
theorem Mem.Protects.keeps {m m' : Mem N} (h : m.Protects kids {i}ᶜ m') : m.Keeps kids i m' :=
  ⟨h.vars, h.store⟩

/-- Without the variable itself, the variables are the same. -/
theorem Mem.Keeps.eraseIdx {m m' : Mem N} (h : m.Keeps kids i m') :
    m'.vars.eraseIdx i = m.vars.eraseIdx i := by
  refine List.ext_getElem? fun j => ?_
  rw [List.getElem?_eraseIdx, List.getElem?_eraseIdx]
  by_cases hj : j < i
  · rw [if_pos hj, if_pos hj, h.vars j (by omega)]
  · rw [if_neg hj, if_neg hj, h.vars (j + 1) (by omega)]

end RefCount
