import Silva.Mvq.Proofs.PathCopyProofs

/-!
# Proofs: `gc_nocheck` spares what other roots reach

The walk resets fields of nodes that only one pointer refers to. The invariant is that the reference
it stands at belongs to no node that another variable reaches; a node behind it that another variable
reaches has a second pointer to it, so the walk does not enter it.
-/

namespace Silva

open RefCount (Ptr Mem Reach)
open Node (sons)

namespace Tree

variable {m m' : Mem Node} {x : Ref} {p : Ptr} {S : Set Nat} {i a depth : Nat} {t : BaseNode}

/-! ## References -/

/-- The reference is variable `i`, or a field of a node that no other variable reaches. -/
def Private (m : Mem Node) (i : Nat) : Ref → Prop
  | .var j => j = i
  | .lSon c => ¬m.Kept sons i c
  | .rSon c => ¬m.Kept sons i c

/-- The reference is a variable that is not in `S`, or a field of a node that no variable of `S`
reaches. -/
def Outside (m : Mem Node) (S : Set Nat) : Ref → Prop
  | .var j => j ∉ S
  | .lSon c => ¬m.Protected sons S c
  | .rSon c => ¬m.Protected sons S c

theorem Private.outside (h : Private m i x) : Outside m {i}ᶜ x := by
  cases x with
  | var j => exact fun hj => hj h
  | lSon c => exact h
  | rSon c => exact h

theorem Outside.protects (h : Outside m S x) (hprot : m.Protects sons S m') : Outside m' S x := by
  cases x with
  | var j => exact h
  | lSon c => exact fun hc => h (hprot.protected_iff.mp hc)
  | rSon c => exact fun hc => h (hprot.protected_iff.mp hc)

/-- A field of an interior node. -/
theorem deref_lSon (h : deref m (.lSon a) = some p) :
    ∃ r n, m.store[a]? = some (.inteNode p r n) := by
  unfold deref at h
  obtain ⟨node, hnode, hp⟩ := Option.bind_eq_some_iff.mp h
  cases node with
  | inteNode l r n => cases hp; exact ⟨r, n, hnode⟩
  | leafNode P => cases hp

theorem deref_rSon (h : deref m (.rSon a) = some p) :
    ∃ l n, m.store[a]? = some (.inteNode l p n) := by
  unfold deref at h
  obtain ⟨node, hnode, hp⟩ := Option.bind_eq_some_iff.mp h
  cases node with
  | inteNode l r n => cases hp; exact ⟨l, n, hnode⟩
  | leafNode P => cases hp

/-- A node behind a reference outside `S` that a variable of `S` reaches has two owners. -/
theorem Outside.two_le_useCount (h : Outside m S x) (hx : deref m x = some (some a))
    (hprot : m.Protected sons S a) : 2 ≤ m.useCount sons a := by
  cases x with
  | var j => exact RefCount.two_le_useCount_of_var hx h hprot
  | lSon c =>
    obtain ⟨r, n, hc⟩ := deref_lSon hx
    exact RefCount.two_le_useCount_of_node hc (by simp [sons]) h hprot
  | rSon c =>
    obtain ⟨l, n, hc⟩ := deref_rSon hx
    exact RefCount.two_le_useCount_of_node hc (by simp [sons]) h hprot

/-- Resetting a reference outside `S`. -/
theorem Outside.reset (h : Outside m S x) : m.Protects sons S (reset m x) := by
  cases x with
  | var j => exact .set_var h m none
  | lSon c =>
    rw [Tree.reset]
    split
    · exact .set_store h _
    · exact .refl S m
  | rSon c =>
    rw [Tree.reset]
    split
    · exact .set_store h _
    · exact .refl S m

/-! ## One step of the walk -/

/-- What the walk can do: nothing at an empty reference, reset the reference, or first sweep the sons
of a node that has no other owner. -/
theorem gcNocheck_cases (h : gcNocheck (depth + 1) m x = some m') :
    (deref m x = some none ∧ m' = m) ∨
    (∃ a, deref m x = some (some a) ∧ m' = reset m x) ∨
    (∃ a m1 m2, deref m x = some (some a) ∧ m.useCount sons a = 1 ∧
      gcNocheck depth m (.lSon a) = some m1 ∧ gcNocheck depth m1 (.rSon a) = some m2 ∧
      m' = reset m2 x) := by
  rw [gcNocheck] at h
  obtain ⟨p, hp, h⟩ := Option.bind_eq_some_iff.mp h
  cases p with
  | none => exact Or.inl ⟨hp, (Option.some.inj h).symm⟩
  | some a =>
    obtain ⟨node, -, h⟩ := Option.bind_eq_some_iff.mp h
    cases node with
    | leafNode P => exact Or.inr (Or.inl ⟨a, hp, (Option.some.inj h).symm⟩)
    | inteNode l r n =>
      by_cases hcount : m.useCount sons a = 1
      · simp only [hcount, if_true] at h
        obtain ⟨m1, h1, h⟩ := Option.bind_eq_some_iff.mp h
        obtain ⟨m2, h2, h⟩ := Option.bind_eq_some_iff.mp h
        exact Or.inr (Or.inr ⟨a, m1, m2, hp, hcount, h1, h2, (Option.some.inj h).symm⟩)
      · simp only [hcount, if_false] at h
        exact Or.inr (Or.inl ⟨a, hp, (Option.some.inj h).symm⟩)

/-! ## The frame -/

/-- The walk from a reference outside `S` changes no variable of `S`, and no node that one reaches. -/
theorem gcNocheck_protects : ∀ {depth : Nat} {m m' : Mem Node} {x : Ref}, Outside m S x →
    gcNocheck depth m x = some m' → m.Protects sons S m' := by
  intro depth
  induction depth with
  | zero => intro m m' x _ h; cases h
  | succ depth ih =>
    intro m m' x hx h
    obtain ⟨-, rfl⟩ | ⟨a, -, rfl⟩ | ⟨a, m1, m2, hp, hcount, h1, h2, rfl⟩ := gcNocheck_cases h
    · exact .refl S _
    · exact hx.reset
    · -- the only owner: the node is outside as well
      have ha : ¬m.Protected sons S a := fun hprot => by
        have := hx.two_le_useCount hp hprot
        omega
      have hk1 := ih (x := .lSon a) ha h1
      have ha1 : Outside m1 S (.rSon a) := Outside.protects (x := .rSon a) ha hk1
      have hk2 := hk1.trans (ih ha1 h2)
      exact hk2.trans (hx.protects hk2).reset

/-- The walk from a private reference changes no other variable, and no node that one reaches. -/
theorem gcNocheck_keeps (hx : Private m i x) (h : gcNocheck depth m x = some m') :
    m.Keeps sons i m' := (gcNocheck_protects hx.outside h).keeps

/-! ## Termination -/

/-- What the walk does to a node: it may reset the sons. -/
inductive Pruned : Node → Node → Prop where
  | leaf (P : List Point) : Pruned (.leafNode P) (.leafNode P)
  | inte {l r l' r' : Ptr} (n : Nat) (hl : l' = l ∨ l' = none) (hr : r' = r ∨ r' = none) :
      Pruned (.inteNode l r n) (.inteNode l' r' n)

/-- What the walk does to the store. -/
def Prunes (store store' : Store) : Prop :=
  ∀ (a : Nat) (n : Node), store[a]? = some n → ∃ n', store'[a]? = some n' ∧ Pruned n n'

theorem Pruned.refl (n : Node) : Pruned n n := by
  cases n with
  | inteNode l r n => exact .inte n (Or.inl rfl) (Or.inl rfl)
  | leafNode P => exact .leaf P

theorem Prunes.refl (store : Store) : Prunes store store := fun _ n hn => ⟨n, hn, .refl n⟩

theorem Prunes.trans {store store' store'' : Store} (h : Prunes store store')
    (h' : Prunes store' store'') : Prunes store store'' := by
  intro a n hn
  obtain ⟨n', hn', hp⟩ := h a n hn
  obtain ⟨n'', hn'', hp'⟩ := h' a n' hn'
  refine ⟨n'', hn'', ?_⟩
  cases hp with
  | leaf P => exact hp'
  | inte k hl hr =>
    cases hp' with
    | inte _ hl' hr' =>
      refine .inte k ?_ ?_
      · rcases hl' with rfl | rfl
        · exact hl
        · exact Or.inr rfl
      · rcases hr' with rfl | rfl
        · exact hr
        · exact Or.inr rfl

theorem Prunes.set {store : Store} {n n' : Node} (ha : store[a]? = some n) (hp : Pruned n n') :
    Prunes store (store.set a n') := by
  intro c k hk
  by_cases hc : c = a
  · subst hc
    rw [ha] at hk
    cases hk
    exact ⟨n', List.getElem?_set_self (List.getElem?_eq_some_iff.mp ha).1, hp⟩
  · exact ⟨k, by rwa [List.getElem?_set_ne (Ne.symm hc)], .refl k⟩

theorem reset_prunes (m : Mem Node) (x : Ref) : Prunes m.store (reset m x).store := by
  cases x with
  | var i => exact .refl _
  | lSon a =>
    rw [Tree.reset]
    split
    · rename_i hcell
      exact .set hcell (.inte _ (Or.inr rfl) (Or.inl rfl))
    · exact .refl _
  | rSon a =>
    rw [Tree.reset]
    split
    · rename_i hcell
      exact .set hcell (.inte _ (Or.inl rfl) (Or.inr rfl))
    · exact .refl _

theorem reset_length (m : Mem Node) (x : Ref) : (reset m x).store.length = m.store.length := by
  cases x with
  | var i => rfl
  | lSon a =>
    rw [Tree.reset]
    split
    · exact List.length_set
    · rfl
  | rSon a =>
    rw [Tree.reset]
    split
    · exact List.length_set
    · rfl

/-- The walk neither allocates nor frees addresses. -/
theorem gcNocheck_length : ∀ {depth : Nat} {m m' : Mem Node} {x : Ref},
    gcNocheck depth m x = some m' → m'.store.length = m.store.length := by
  intro depth
  induction depth with
  | zero => intro m m' x h; cases h
  | succ depth ih =>
    intro m m' x h
    obtain ⟨-, rfl⟩ | ⟨a, -, rfl⟩ | ⟨a, m1, m2, -, -, h1, h2, rfl⟩ := gcNocheck_cases h
    · rfl
    · exact reset_length m x
    · exact (reset_length m2 x).trans ((ih h2).trans (ih h1))

/-- The number of levels of a tree. -/
def height : BaseNode → Nat
  | .nullptr => 0
  | .leafNode _ => 1
  | .inteNode lSon rSon _ => max (height lSon) (height rSon) + 1

theorem height_le {leafSize b c : Nat} {P : List Point} (h : WellFormed leafSize b c t P) :
    height t ≤ b + 1 := by
  induction h with
  | null b c => exact Nat.zero_le _
  | leaf cell fits => exact Nat.le_add_left 1 _
  | inte left right hl hr large ihl ihr => exact Nat.succ_le_succ (max_le ihl ihr)

/-- Resetting sons leaves no more levels. -/
theorem Prunes.reads {store store' : Store} (h : Prunes store store') (hread : Store.Reads store p t) :
    ∃ t', Store.Reads store' p t' ∧ height t' ≤ height t := by
  induction hread with
  | null => exact ⟨.nullptr, .null, le_rfl⟩
  | leaf ha =>
    obtain ⟨n', hn', hp⟩ := h _ _ ha
    cases hp with
    | leaf P => exact ⟨_, .leaf hn', le_rfl⟩
  | @inte a n l r tl tr ha hl hr ihl ihr =>
    obtain ⟨n', hn', hp⟩ := h _ _ ha
    obtain ⟨tl', hl', hheightL⟩ := ihl
    obtain ⟨tr', hr', hheightR⟩ := ihr
    have hson : ∀ {x x' : Ptr} {t : BaseNode} {k : Nat}, x' = x ∨ x' = none →
        Store.Reads store' x t → height t ≤ k → ∃ t', Store.Reads store' x' t' ∧ height t' ≤ k := by
      intro x x' t k hx hread hk
      rcases hx with rfl | rfl
      · exact ⟨t, hread, hk⟩
      · exact ⟨.nullptr, .null, Nat.zero_le k⟩
    cases hp with
    | inte _ hxl hxr =>
      obtain ⟨tl'', hl'', hle⟩ := hson hxl hl' hheightL
      obtain ⟨tr'', hr'', hre⟩ := hson hxr hr' hheightR
      exact ⟨_, .inte hn' hl'' hr'', Nat.succ_le_succ (max_le_max hle hre)⟩

/-- The walk ends within the levels of the tree. -/
theorem gcNocheck_isSome : ∀ {depth : Nat} {m : Mem Node} {x : Ref} {p : Ptr} {t : BaseNode},
    deref m x = some p → Store.Reads m.store p t → height t < depth →
    ∃ m', gcNocheck depth m x = some m' ∧ Prunes m.store m'.store := by
  intro depth
  induction depth with
  | zero => intro m x p t _ _ h; exact absurd h (Nat.not_lt_zero _)
  | succ depth ih =>
    intro m x p t hx hread hheight
    rw [gcNocheck, hx]
    cases hread with
    | null => exact ⟨m, rfl, .refl _⟩
    | leaf ha =>
      refine ⟨reset m x, ?_, reset_prunes m x⟩
      simp only [Option.bind_eq_bind, Option.bind_some, ha]
    | @inte a n l r tl tr ha hl hr =>
      have hdepth := Nat.lt_of_succ_lt_succ hheight
      simp only [Option.bind_eq_bind, Option.bind_some, ha]
      by_cases hcount : m.useCount sons a = 1
      · have hderefL : deref m (.lSon a) = some l := by rw [deref, ha]; rfl
        obtain ⟨m1, h1, hp1⟩ := ih hderefL hl ((le_max_left _ _).trans_lt hdepth)
        obtain ⟨n', hn', hpruned⟩ := hp1 a _ ha
        cases hpruned with
        | @inte _ _ l' r' _ hxl hxr =>
          have hderefR : deref m1 (.rSon a) = some r' := by rw [deref, hn']; rfl
          obtain ⟨tr', hr', hle⟩ : ∃ t', Store.Reads m1.store r' t' ∧ height t' ≤ height tr := by
            rcases hxr with rfl | rfl
            · exact hp1.reads hr
            · exact ⟨.nullptr, .null, Nat.zero_le _⟩
          obtain ⟨m2, h2, hp2⟩ := ih hderefR hr'
            (hle.trans_lt ((le_max_right _ _).trans_lt hdepth))
          refine ⟨reset m2 x, ?_, (hp1.trans hp2).trans (reset_prunes m2 x)⟩
          simp only [hcount, if_true, h1, h2, Option.bind_some]
          rfl
      · refine ⟨reset m x, ?_, reset_prunes m x⟩
        simp only [hcount, if_false]
        rfl

end Tree

end Silva
