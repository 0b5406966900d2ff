import Silva.Mvq.Purge
import Silva.Mvq.Proofs.GcProofs

/-!
# Proofs: what a purge resets

Both overloads of `garbage_collect` end within the levels of the trees. They reset fields and the
reference that they are given, and they leave that reference null unless it was shared at the start.
-/

namespace Silva

open RefCount (Ptr Mem)
open Node (sons)

namespace Tree

variable {cutoff depth : Nat} {m m' m1 m2 : Mem Node} {base newVer x y : Ref} {p q pb pn : Ptr}
  {S : Set Nat} {a b c k n : Nat} {t tb tn : BaseNode}

/-! ## What a sweep may do -/

/-- Fields are reset and nothing else, apart from the variable that `x` may be. -/
structure Swept (m : Mem Node) (x : Ref) (m' : Mem Node) : Prop where
  prunes : Prunes m.store m'.store
  vars : ∀ j p, m.vars[j]? = some p →
    m'.vars[j]? = some p ∨ x = .var j ∧ m'.vars[j]? = some none

theorem Swept.refl (m : Mem Node) (x : Ref) : Swept m x m :=
  ⟨.refl _, fun _ _ h => Or.inl h⟩

theorem Swept.trans (h : Swept m x m1) (h' : Swept m1 x m') : Swept m x m' := by
  refine ⟨h.prunes.trans h'.prunes, fun j p hp => ?_⟩
  rcases h.vars j p hp with h1 | ⟨hx, h1⟩
  · exact h'.vars j p h1
  · rcases h'.vars j none h1 with h2 | ⟨-, h2⟩
    · exact Or.inr ⟨hx, h2⟩
    · exact Or.inr ⟨hx, h2⟩

/-- A sweep from a field is a sweep from any reference. -/
theorem Swept.of_field (h : Swept m y m') (hy : ∀ j, y ≠ .var j) (x : Ref) : Swept m x m' := by
  refine ⟨h.prunes, fun j p hp => ?_⟩
  rcases h.vars j p hp with h | ⟨hj, -⟩
  · exact Or.inl h
  · exact absurd hj (hy j)

/-- The field of an interior node on one side. -/
def sonRef (a : Nat) : Bool → Ref
  | false => .lSon a
  | true => .rSon a

theorem deref_sonRef (ha : Store.IsInte m.store a) (side : Bool) :
    deref m (sonRef a side) = some (Store.son m.store (some a) side) := by
  obtain ⟨l, r, n, ha⟩ := ha
  rw [Store.son_inte ha]
  cases side
  · show deref m (.lSon a) = some l
    rw [deref, ha]
    rfl
  · show deref m (.rSon a) = some r
    rw [deref, ha]
    rfl

theorem Prunes.isInte_iff {store store' : Store} {node : Node} (h : Prunes store store')
    (ha : store[a]? = some node) : Store.IsInte store' a ↔ Store.IsInte store a := by
  obtain ⟨node', ha', hp⟩ := h a node ha
  constructor
  · rintro ⟨l, r, n, hl⟩
    rw [ha'] at hl
    cases hl
    cases hp with
    | inte n hl hr => exact ⟨_, _, n, ha⟩
  · rintro ⟨l, r, n, hl⟩
    rw [ha] at hl
    cases hl
    cases hp with
    | inte n hl hr => exact ⟨_, _, n, ha'⟩

/-- A field keeps its pointer or is reset. -/
theorem Prunes.deref_sonRef (h : Prunes m.store m'.store) (side : Bool)
    (hy : deref m (sonRef a side) = some p) :
    deref m' (sonRef a side) = some p ∨ deref m' (sonRef a side) = some none := by
  cases side with
  | false =>
    obtain ⟨r, n, ha⟩ := deref_lSon hy
    obtain ⟨node, ha', hp⟩ := h a _ ha
    cases hp with
    | @inte _ _ l' r' _ hl hr =>
      have hd : deref m' (.lSon a) = some l' := by rw [deref, ha']; rfl
      rcases hl with rfl | rfl
      · exact Or.inl hd
      · exact Or.inr hd
  | true =>
    obtain ⟨l, n, ha⟩ := deref_rSon hy
    obtain ⟨node, ha', hp⟩ := h a _ ha
    cases hp with
    | @inte _ _ l' r' _ hl hr =>
      have hd : deref m' (.rSon a) = some r' := by rw [deref, ha']; rfl
      rcases hr with rfl | rfl
      · exact Or.inl hd
      · exact Or.inr hd

/-- A reference keeps its pointer or is reset. -/
theorem Swept.deref (h : Swept m x m') (hy : Tree.deref m y = some p) :
    Tree.deref m' y = some p ∨ Tree.deref m' y = some none := by
  cases y with
  | var j =>
    rcases h.vars j p hy with h | ⟨-, h⟩
    · exact Or.inl h
    · exact Or.inr h
  | lSon a => exact h.prunes.deref_sonRef false hy
  | rSon a => exact h.prunes.deref_sonRef true hy

theorem Swept.exists_deref (h : Swept m x m') (hy : Tree.deref m y = some p) :
    ∃ p', Tree.deref m' y = some p' := by
  rcases h.deref hy with h | h <;> exact ⟨_, h⟩

/-- A reference that is reset stays so. -/
theorem Swept.deref_none (h : Swept m x m') (hy : Tree.deref m y = some none) :
    Tree.deref m' y = some none := by
  rcases h.deref hy with h | h <;> exact h

/-- A reference behind which there is a tree still has one, with no more levels. -/
theorem Swept.reads (h : Swept m x m') (hy : Tree.deref m y = some p)
    (hread : Store.Reads m.store p t) (hheight : height t < depth) :
    ∃ p' t', Tree.deref m' y = some p' ∧ Store.Reads m'.store p' t' ∧ height t' < depth := by
  rcases h.deref hy with hy' | hy'
  · obtain ⟨t', hread', hle⟩ := h.prunes.reads hread
    exact ⟨p, t', hy', hread', hle.trans_lt hheight⟩
  · exact ⟨none, .nullptr, hy', .null, (Nat.zero_le _).trans_lt hheight⟩

theorem reset_swept (m : Mem Node) (x : Ref) : Swept m x (reset m x) := by
  refine ⟨reset_prunes m x, fun j p hj => ?_⟩
  cases x with
  | var i =>
    show (m.vars.set i none)[j]? = some p ∨ _ ∧ (m.vars.set i none)[j]? = some none
    by_cases hij : i = j
    · subst hij
      exact Or.inr ⟨rfl, List.getElem?_set_self (List.getElem?_eq_some_iff.mp hj).1⟩
    · rw [List.getElem?_set_ne hij]
      exact Or.inl hj
  | lSon a =>
    rw [Tree.reset]
    split <;> exact Or.inl hj
  | rSon a =>
    rw [Tree.reset]
    split <;> exact Or.inl hj

theorem deref_reset (hx : deref m x = some p) : deref (reset m x) x = some none := by
  cases x with
  | var i => exact List.getElem?_set_self (List.getElem?_eq_some_iff.mp hx).1
  | lSon a =>
    obtain ⟨r, n, ha⟩ := deref_lSon hx
    rw [Tree.reset, ha]
    show deref { m with store := m.store.set a (.inteNode none r n) } (.lSon a) = some none
    rw [deref, List.getElem?_set_self (List.getElem?_eq_some_iff.mp ha).1]
    rfl
  | rSon a =>
    obtain ⟨l, n, ha⟩ := deref_rSon hx
    rw [Tree.reset, ha]
    show deref { m with store := m.store.set a (.inteNode l none n) } (.rSon a) = some none
    rw [deref, List.getElem?_set_self (List.getElem?_eq_some_iff.mp ha).1]
    rfl

/-! ## Every sweep ends, and resets what it is given -/

theorem gcNocheck_swept : ∀ {depth : Nat} {m m' : Mem Node} {x : Ref},
    gcNocheck depth m x = some m' → Swept m x m' ∧ deref m' x = some none := by
  intro depth
  induction depth with
  | zero => intro m m' x h; cases h
  | succ depth ih =>
    intro m m' x h
    obtain ⟨hp, rfl⟩ | ⟨a, hp, rfl⟩ | ⟨a, m1, m2, hp, -, h1, h2, rfl⟩ := gcNocheck_cases h
    · exact ⟨.refl _ x, hp⟩
    · exact ⟨reset_swept m x, deref_reset hp⟩
    · have hs1 := (ih h1).1.of_field (by simp) x
      have hs : Swept m x m2 := hs1.trans ((ih h2).1.of_field (by simp) x)
      refine ⟨hs.trans (reset_swept m2 x), ?_⟩
      obtain ⟨p', hp'⟩ := hs.exists_deref hp
      exact deref_reset hp'

/-- `release` after the sons of the node behind `x` are swept. -/
theorem release_swept (hs : Swept m x m1) (hx : deref m x = some p)
    (hread : Store.Reads m.store p t) (hheight : height t < depth) :
    ∃ m', release depth m1 x = some m' ∧ Swept m x m' ∧ deref m' x = some none := by
  obtain ⟨p', t', hx', hread', hheight'⟩ := hs.reads hx hread hheight
  obtain ⟨m', hgc, -⟩ := gcNocheck_isSome hx' hread' hheight'
  obtain ⟨hs', hnone⟩ := gcNocheck_swept hgc
  exact ⟨m', hgc, hs.trans hs', hnone⟩

/-- The sons of a node, which a sweep leaves with no more levels. -/
theorem Swept.reads_son (h : Swept m x m') (ha : Store.IsInte m.store a)
    (hread : Store.Reads m.store (some a) t) (hheight : height t < depth + 1) (side : Bool) :
    ∃ p' t', Tree.deref m' (sonRef a side) = some p' ∧ Store.Reads m'.store p' t' ∧
      height t' < depth := by
  refine h.reads (deref_sonRef ha side) (hread.son side) ?_
  obtain ⟨l, r, n, ha⟩ := ha
  cases hread with
  | leaf ha' => rw [ha] at ha'; cases ha'
  | @inte _ n l r tl tr ha' hl hr =>
    have hdepth : max (height tl) (height tr) < depth := Nat.lt_of_succ_lt_succ hheight
    cases side
    · exact (le_max_left _ _).trans_lt hdepth
    · exact (le_max_right _ _).trans_lt hdepth

/-- The calls on the two sons. -/
theorem sons_swept {f : Bool → Mem Node → Option (Mem Node)} {C : Prop} [Decidable C]
    (hf : ∀ side m1, Swept m x m1 → ∃ m2, f side m1 = some m2 ∧ Swept m1 (sonRef c side) m2) :
    ∃ m', (if C then (f false m).bind (f true) else some m) = some m' ∧ Swept m x m' := by
  by_cases hC : C
  · obtain ⟨m1, h1, hs1⟩ := hf false m (.refl m x)
    have hs1 : Swept m x m1 := hs1.of_field (by simp [sonRef]) x
    obtain ⟨m2, h2, hs2⟩ := hf true m1 hs1
    refine ⟨m2, ?_, hs1.trans (hs2.of_field (by simp [sonRef]) x)⟩
    rw [if_pos hC, h1, Option.bind_some, h2]
  · exact ⟨m, if_neg hC, .refl m x⟩

/-! ## One step of `garbage_collect` -/

theorem asInte_some (h : asInte m.store p = some b) : p = some b ∧ Store.IsInte m.store b := by
  obtain ⟨a, rfl, h⟩ := Option.bind_eq_some_iff.mp h
  obtain ⟨node, ha, h⟩ := Option.bind_eq_some_iff.mp h
  cases node with
  | inteNode l r n => cases h; exact ⟨rfl, l, r, n, ha⟩
  | leafNode P => cases h

theorem asInte_of_isInte (ha : Store.IsInte m.store a) : asInte m.store (some a) = some a := by
  obtain ⟨l, r, n, ha⟩ := ha
  rw [asInte, Option.bind_eq_bind, Option.bind_some, ha]
  rfl

theorem garbageCollectBase_same (hb : deref m base = some pb) (hx : deref m x = some p)
    (h : p = none ∨ p = pb) : garbageCollectBase cutoff (depth + 1) m base x = some m := by
  rw [garbageCollectBase, hb, hx]
  simp only [Option.bind_eq_bind, Option.bind_some]
  cases p with
  | none => rfl
  | some a => exact if_pos (h.resolve_left (by simp)).symm

theorem garbageCollectBase_step {node : Node} (hb : deref m base = some pb)
    (hx : deref m x = some (some a)) (hne : pb ≠ some a) : m.store[a]? = some node →
    garbageCollectBase cutoff (depth + 1) m base x = (match node with
      | .leafNode _ => release (depth + 1) m x
      | .inteNode _ _ n =>
        match asInte m.store pb with
        | none => gcNocheck (depth + 1) m x
        | some b =>
          (if cutoff < n then
            (garbageCollectBase cutoff depth m (sonRef b false) (sonRef a false)).bind fun m =>
              garbageCollectBase cutoff depth m (sonRef b true) (sonRef a true)
          else some m).bind fun m => release (depth + 1) m x) := by
  intro ha
  rw [garbageCollectBase, hb, hx]
  simp only [Option.bind_eq_bind, Option.bind_some]
  rw [if_neg hne, ha]
  rfl

theorem garbageCollect_same (hb : deref m base = some pb) (hn : deref m newVer = some pn)
    (hx : deref m x = some p) (h : p = none ∨ p = pb ∨ p = pn) :
    garbageCollect cutoff (depth + 1) m base newVer x = some m := by
  rw [garbageCollect, hb, hn, hx]
  simp only [Option.bind_eq_bind, Option.bind_some]
  cases p with
  | none => rfl
  | some a =>
    refine if_pos ?_
    rcases h with h | h | h
    · cases h
    · exact Or.inl h.symm
    · exact Or.inr h.symm

theorem garbageCollect_step {node : Node} (hb : deref m base = some pb)
    (hn : deref m newVer = some pn) (hx : deref m x = some (some a)) (hneB : pb ≠ some a)
    (hneN : pn ≠ some a) : m.store[a]? = some node →
    garbageCollect cutoff (depth + 1) m base newVer x = (match node with
      | .leafNode _ => release (depth + 1) m x
      | .inteNode _ _ n =>
        match asInte m.store pb, asInte m.store pn with
        | none, _ => garbageCollectBase cutoff (depth + 1) m newVer x
        | some _, none => garbageCollectBase cutoff (depth + 1) m base x
        | some b, some c =>
          (if cutoff < n then
            (garbageCollect cutoff depth m (sonRef b false) (sonRef a false) (sonRef c false)).bind
              fun m => garbageCollect cutoff depth m (sonRef b true) (sonRef a true) (sonRef c true)
          else some m).bind fun m => release (depth + 1) m x) := by
  intro ha
  rw [garbageCollect, hb, hn, hx]
  simp only [Option.bind_eq_bind, Option.bind_some]
  rw [if_neg (not_or.mpr ⟨hneB, hneN⟩), ha]
  rfl

/-! ## Every purge ends -/

theorem garbageCollectBase_swept (cutoff : Nat) : ∀ {depth : Nat} {m : Mem Node} {base x : Ref}
    {pb p : Ptr} {t : BaseNode}, deref m base = some pb → deref m x = some p →
    Store.Reads m.store p t → height t < depth →
    ∃ m', garbageCollectBase cutoff depth m base x = some m' ∧ Swept m x m' ∧
      (p ≠ none → p ≠ pb → deref m' x = some none) := by
  intro depth
  induction depth with
  | zero => intro m base x pb p t _ _ _ h; exact absurd h (Nat.not_lt_zero _)
  | succ depth ih =>
    intro m base x pb p t hb hx hread hheight
    obtain ⟨m0, hrun0, hs0, hnone0⟩ := release_swept (.refl m x) hx hread hheight
    by_cases hsame : p = none ∨ p = pb
    · refine ⟨m, garbageCollectBase_same hb hx hsame, .refl m x, fun h1 h2 => ?_⟩
      exact absurd hsame (not_or.mpr ⟨h1, h2⟩)
    · obtain ⟨hnull, hne⟩ := not_or.mp hsame
      obtain ⟨a, rfl⟩ := Option.ne_none_iff_exists'.mp hnull
      obtain ⟨node, ha⟩ := hread.exists_node (.here a)
      rw [garbageCollectBase_step hb hx (Ne.symm hne) ha]
      cases node with
      | leafNode P => exact ⟨m0, hrun0, hs0, fun _ _ => hnone0⟩
      | inteNode l r n =>
        dsimp only
        cases hasInte : asInte m.store pb with
        | none => exact ⟨m0, hrun0, hs0, fun _ _ => hnone0⟩
        | some b =>
          have hb' := (asInte_some hasInte).2
          obtain ⟨m1, h1, hs1⟩ := sons_swept (c := a) (C := cutoff < n)
            (f := fun side m => garbageCollectBase cutoff depth m (sonRef b side) (sonRef a side))
            (m := m) (x := x) fun side m1 hs1 => by
              obtain ⟨p', t', hx', hread', hheight'⟩ :=
                hs1.reads_son ⟨l, r, n, ha⟩ hread hheight side
              obtain ⟨pb', hpb'⟩ := hs1.exists_deref (deref_sonRef hb' side)
              obtain ⟨m2, h2, hs2, -⟩ := ih hpb' hx' hread' hheight'
              exact ⟨m2, h2, hs2⟩
          obtain ⟨m', hrun, hs, hnone⟩ := release_swept hs1 hx hread hheight
          refine ⟨m', ?_, hs, fun _ _ => hnone⟩
          exact (congrArg (·.bind fun m => release (depth + 1) m x) h1).trans hrun

theorem garbageCollect_swept (cutoff : Nat) : ∀ {depth : Nat} {m : Mem Node} {base newVer x : Ref}
    {pb pn p : Ptr} {tn t : BaseNode}, deref m base = some pb → deref m newVer = some pn →
    deref m x = some p → Store.Reads m.store pn tn → Store.Reads m.store p t → height tn < depth →
    height t < depth →
    ∃ m', garbageCollect cutoff depth m base newVer x = some m' ∧ Swept m x m' ∧
      (p ≠ none → p ≠ pb → p ≠ pn → deref m' x = some none) := by
  intro depth
  induction depth with
  | zero => intro m base newVer x pb pn p tn t _ _ _ _ _ h; exact absurd h (Nat.not_lt_zero _)
  | succ depth ih =>
    intro m base newVer x pb pn p tn t hb hn hx hreadN hread hheightN hheight
    by_cases hsame : p = none ∨ p = pb ∨ p = pn
    · refine ⟨m, garbageCollect_same hb hn hx hsame, .refl m x, fun h1 h2 h3 => ?_⟩
      exact absurd hsame (not_or.mpr ⟨h1, not_or.mpr ⟨h2, h3⟩⟩)
    · rw [not_or, not_or] at hsame
      obtain ⟨hnull, hneB, hneN⟩ := hsame
      obtain ⟨a, rfl⟩ := Option.ne_none_iff_exists'.mp hnull
      obtain ⟨node, ha⟩ := hread.exists_node (.here a)
      rw [garbageCollect_step hb hn hx (Ne.symm hneB) (Ne.symm hneN) ha]
      cases node with
      | leafNode P =>
        obtain ⟨m', hrun, hs, hnone⟩ := release_swept (.refl m x) hx hread hheight
        exact ⟨m', hrun, hs, fun _ _ _ => hnone⟩
      | inteNode l r n =>
        dsimp only
        cases hasB : asInte m.store pb with
        | none =>
          obtain ⟨m', hrun, hs, hnone⟩ := garbageCollectBase_swept cutoff hn hx hread hheight
          exact ⟨m', hrun, hs, fun h _ hpn => hnone h hpn⟩
        | some b =>
          cases hasN : asInte m.store pn with
          | none =>
            obtain ⟨m', hrun, hs, hnone⟩ := garbageCollectBase_swept cutoff hb hx hread hheight
            exact ⟨m', hrun, hs, fun h hpb _ => hnone h hpb⟩
          | some c =>
            have hb' := (asInte_some hasB).2
            obtain ⟨rfl, hc'⟩ := asInte_some hasN
            -- the sons of `new_ver` are in the place of `x`
            obtain ⟨m1, h1, hs1⟩ := sons_swept (c := c) (C := cutoff < n)
              (f := fun side m =>
                garbageCollect cutoff depth m (sonRef b side) (sonRef a side) (sonRef c side))
              (m := m) (x := x) fun side m1 hs1 => by
                obtain ⟨pa, ta, ha1, hreadA1, hheightA1⟩ :=
                  hs1.reads_son ⟨l, r, n, ha⟩ hread hheight side
                obtain ⟨pc, tc, hc1, hreadC1, hheightC1⟩ :=
                  hs1.reads_son hc' hreadN hheightN side
                obtain ⟨pb', hpb'⟩ := hs1.exists_deref (deref_sonRef hb' side)
                obtain ⟨m2, h2, hs2, -⟩ := ih hpb' ha1 hc1 hreadA1 hreadC1 hheightA1 hheightC1
                exact ⟨m2, h2, hs2⟩
            obtain ⟨m', hrun, hs, hnone⟩ := release_swept hs1 hx hread hheight
            refine ⟨m', ?_, hs, fun _ _ _ => hnone⟩
            exact (congrArg (·.bind fun m => release (depth + 1) m x) h1).trans hrun

end Tree

end Silva
