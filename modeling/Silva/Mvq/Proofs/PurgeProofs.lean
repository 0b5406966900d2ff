import Silva.Mvq.Proofs.PersistenceProofs
import Silva.Mvq.Proofs.PositionProofs
import Silva.Mvq.Proofs.SweepProofs

/-!
# Proofs: purging a version

The two-tree version of `garbage_collect` leaves `base` alone: an interior node sits at one position
in all versions, so a node of `x` that differs from the one of `base` at its position is not reached
from `base`. The three-tree version swaps the roles of `x` and `new_ver` in its calls on the sons,
so it is right exactly when these calls have nothing to reset.
-/

namespace Silva

open RefCount (Ptr Mem Reach)
open Node (sons)

namespace Tree

variable {cutoff depth : Nat} {m m' m1 m2 : Mem Node} {base newVer x y : Ref} {p q pb pn : Ptr}
  {S : Set Nat} {a b c k n : Nat} {t tb tn : BaseNode}

/-! ## The two-tree version spares `base` -/

/-- `x` and `base` point to nodes at one position, and `S` protects `base`: the interior nodes of
`x` that it protects are nodes of `base`. -/
structure Beside (leafSize : Nat) (m : Mem Node) (S : Set Nat) (b k : Nat) (base x : Ptr)
    (tb t : BaseNode) (B A : List Point) : Prop where
  readsBase : Store.Reads m.store base tb
  wfBase : WellFormed leafSize b k tb B
  reads : Store.Reads m.store x t
  wf : WellFormed leafSize b k t A
  held : ∀ c, Reach sons m.store base c → m.Protected sons S c
  meet : ∀ c, Store.IsInte m.store c → Reach sons m.store x c → m.Protected sons S c →
    Reach sons m.store base c

section Beside

variable {leafSize : Nat} {base x : Ptr} {A B : List Point}

/-- An interior node that is not the one of `base` is not protected. -/
theorem Beside.not_protected (h : Beside leafSize m S b k base (some a) tb t B A)
    (ha : Store.IsInte m.store a) (hne : base ≠ some a) : ¬m.Protected sons S a := by
  intro hprot
  have hreach := h.meet a ha (.here a) hprot
  have hlarge := Store.lt_of_isInte h.wf h.reads ha (show Store.ptrAt _ _ [] = _ from rfl)
  rcases h.readsBase.level_of_reach h.wfBase h.wf h.reads hlarge hreach with ⟨-, heq⟩ | hlt
  · exact hne heq
  · exact lt_irrefl b hlt

/-- The sons on one side of two interior nodes. -/
theorem Beside.son (h : Beside leafSize m S b k (some c) (some a) tb t B A)
    (ha : Store.IsInte m.store a) (hc : Store.IsInte m.store c) (side : Bool) :
    ∃ b' k' tb' t' B' A', Beside leafSize m S b' k' (Store.son m.store (some c) side)
      (Store.son m.store (some a) side) tb' t' B' A' := by
  obtain ⟨hreadB, hwB, hreadA, hwA, hheld, hmeet⟩ := h
  have hlargeB := Store.lt_of_isInte hwB hreadB hc (show Store.ptrAt _ _ [] = _ from rfl)
  obtain ⟨lc, rc, nc, hc⟩ := hc
  obtain ⟨la, ra, na, ha⟩ := ha
  have hreadB' := hreadB
  have hwB' := hwB
  cases hreadB with
  | leaf hc' => rw [hc] at hc'; cases hc'
  | inte hc' hreadLB hreadRB =>
    rw [hc] at hc'
    cases hc'
    cases hreadA with
    | leaf ha' => rw [ha] at ha'; cases ha'
    | inte ha' hreadLA hreadRA =>
      rw [ha] at ha'
      cases ha'
      cases hwB with
      | @inte b _ _ _ AB BB leftB rightB hlB hrB largeB =>
        cases hwA with
        | inte leftA rightA hlA hrA largeA =>
          have hheldSon : ∀ y ∈ [lc, rc], ∀ d,
              Reach sons m.store y d → m.Protected sons S d :=
            fun y hy d hd => hheld d (.child hc hy hd)
          -- below the node of `base`, and not the node itself
          have hbelow : ∀ {y : Ptr} {s : BaseNode} {Q : List Point} {k' : Nat},
              y ∈ [la, ra] → Store.Reads m.store y s →
              WellFormed leafSize b k' s Q → ∀ d, Store.IsInte m.store d → Reach sons m.store y d →
              m.Protected sons S d → Reach sons m.store lc d ∨ Reach sons m.store rc d := by
            intro y s Q k' hy hs hws d hd hyd hprot
            cases hmeet d hd (.child ha hy hyd) hprot with
            | here =>
              rcases hs.level_of_reach hws hwB' hreadB' hlargeB hyd with ⟨h, -⟩ | h <;> omega
            | child hn hz hzd =>
              rw [hc] at hn
              cases hn
              simp only [sons, List.mem_cons, List.not_mem_nil, or_false] at hz
              rcases hz with rfl | rfl
              · exact Or.inl hzd
              · exact Or.inr hzd
          rw [Store.son_inte hc, Store.son_inte ha]
          cases side with
          | false =>
            refine ⟨b, _, _, _, _, _, hreadLB, leftB, hreadLA, leftA, hheldSon lc (by simp),
              fun d hd hreach hprot => ?_⟩
            rcases hbelow (by simp) hreadLA leftA d hd hreach hprot with h | h
            · exact h
            · exact absurd h (hreadLA.disjoint hreadRB leftA rightB hlA hreach)
          | true =>
            refine ⟨b, _, _, _, _, _, hreadRB, rightB, hreadRA, rightA, hheldSon rc (by simp),
              fun d hd hreach hprot => ?_⟩
            rcases hbelow (by simp) hreadRA rightA d hd hreach hprot with h | h
            · exact absurd hreach (hreadLB.disjoint hreadRA leftB rightA hlB h)
            · exact h

end Beside

/-- A sweep from a reference outside `S`, some steps after the memory `m`. -/
theorem gcNocheck_protects_after (hprot : m.Protects sons S m1) (hprunes : Prunes m.store m1.store)
    (hout : Outside m S x) (h : gcNocheck depth m1 x = some m') :
    m.Protects sons S m' ∧ Prunes m.store m'.store :=
  ⟨hprot.trans (gcNocheck_protects (hout.protects hprot) h),
    hprunes.trans (gcNocheck_swept h).1.prunes⟩

/-- `garbage_collect(base, x)` changes nothing that `S` protects. The positions are those in the
memory `m` at the start; other calls may have swept nodes of it before. -/
theorem garbageCollectBase_protects {leafSize : Nat} {m : Mem Node} : ∀ {depth : Nat}
    {m1 m' : Mem Node} {base x : Ref} {pb p : Ptr} {b k : Nat} {tb t : BaseNode} {B A : List Point},
    m.Protects sons S m1 → Prunes m.store m1.store → Outside m S x → deref m1 base = some pb →
    (deref m1 x = some p ∨ deref m1 x = some none) → Beside leafSize m S b k pb p tb t B A →
    garbageCollectBase cutoff depth m1 base x = some m' →
    m.Protects sons S m' ∧ Prunes m.store m'.store := by
  intro depth
  induction depth with
  | zero => intro m1 m' base x pb p b k tb t B A _ _ _ _ _ _ h; cases h
  | succ depth ih =>
    intro m1 m' base x pb p b k tb t B A hprot hprunes hout hb hx hbeside h
    -- there may be nothing left behind `x`
    obtain ⟨p', hp', hx1⟩ : ∃ p', (p' = p ∨ p' = none) ∧ deref m1 x = some p' := by
      rcases hx with hx | hx
      · exact ⟨p, Or.inl rfl, hx⟩
      · exact ⟨none, Or.inr rfl, hx⟩
    by_cases hsame : p' = none ∨ p' = pb
    · rw [garbageCollectBase_same hb hx1 hsame] at h
      cases h
      exact ⟨hprot, hprunes⟩
    · obtain ⟨hnull, hne⟩ := not_or.mp hsame
      obtain rfl := hp'.resolve_right hnull
      obtain ⟨a, rfl⟩ := Option.ne_none_iff_exists'.mp hnull
      obtain ⟨nodeA, ha⟩ := hbeside.reads.exists_node (.here a)
      obtain ⟨node, ha1, -⟩ := hprunes a nodeA ha
      rw [garbageCollectBase_step hb hx1 (Ne.symm hne) ha1] at h
      cases node with
      | leafNode P => exact gcNocheck_protects_after hprot hprunes hout h
      | inteNode l r n =>
        dsimp only at h
        cases hasInte : asInte m1.store pb with
        | none =>
          rw [hasInte] at h
          exact gcNocheck_protects_after hprot hprunes hout h
        | some c =>
          rw [hasInte] at h
          obtain ⟨m3, hsons, hrelease⟩ := Option.bind_eq_some_iff.mp h
          obtain ⟨rfl, hc1⟩ := asInte_some hasInte
          obtain ⟨nodeC, hc⟩ := hbeside.readsBase.exists_node (.here c)
          have hinteA := (hprunes.isInte_iff ha).mp ⟨l, r, n, ha1⟩
          have hinteC := (hprunes.isInte_iff hc).mp hc1
          have hnot := hbeside.not_protected hinteA (Ne.symm hne)
          -- one call on the sons
          have hson : ∀ {m2 m3 : Mem Node} (side : Bool), m.Protects sons S m2 →
              Prunes m.store m2.store →
              garbageCollectBase cutoff depth m2 (sonRef c side) (sonRef a side) = some m3 →
              m.Protects sons S m3 ∧ Prunes m.store m3.store := by
            intro m2 m3 side hprot2 hprunes2 hcall
            obtain ⟨b', k', tb', t', B', A', hbeside'⟩ := hbeside.son hinteA hinteC side
            have houtA : Outside m S (sonRef a side) := by cases side <;> exact hnot
            have hc2 : m2.store[c]? = m.store[c]? := hprot2.store c (hbeside.held c (.here c))
            have hderefC : deref m2 (sonRef c side) = deref m (sonRef c side) := by
              cases side <;> simp only [sonRef, deref, hc2]
            refine ih hprot2 hprunes2 houtA ?_ ?_ hbeside' hcall
            · rw [hderefC, deref_sonRef hinteC]
            · exact hprunes2.deref_sonRef side (deref_sonRef hinteA side)
          have h3 : m.Protects sons S m3 ∧ Prunes m.store m3.store := by
            by_cases hcut : cutoff < n
            · rw [if_pos hcut] at hsons
              obtain ⟨m2, h2, h3⟩ := Option.bind_eq_some_iff.mp hsons
              obtain ⟨hprot2, hprunes2⟩ := hson false hprot hprunes h2
              exact hson true hprot2 hprunes2 h3
            · rw [if_neg hcut] at hsons
              cases hsons
              exact ⟨hprot, hprunes⟩
          exact gcNocheck_protects_after h3.1 h3.2 hout hrelease

/-- Nothing interior is reached from a null pointer or a leaf. -/
theorem not_reach_of_asInte {root : Ptr} (h : asInte m.store root = none)
    (ha : Store.IsInte m.store a) : ¬Reach sons m.store root a := by
  intro hreach
  cases hreach with
  | here =>
    obtain ⟨l, r, n, ha⟩ := ha
    rw [asInte, Option.bind_eq_bind, Option.bind_some, ha] at h
    cases h
  | @child d _ node y hn hy hc =>
    cases node with
    | leafNode P => simp [sons] at hy
    | inteNode l r n =>
      rw [asInte, Option.bind_eq_bind, Option.bind_some, hn] at h
      cases h

/-- At the roots, when the other protected variables are null or point to leaves. -/
theorem Beside.roots {leafSize v : Nat} {root x : Ptr} {B A : List Point}
    (hv : m.vars[v]? = some root) (hvS : v ∈ S) (hreadB : Store.Reads m.store root tb)
    (hread : Store.Reads m.store x t)
    (hwB : IsVersion leafSize tb B) (hw : IsVersion leafSize t A)
    (hflat : ∀ j y, j ∈ S → m.vars[j]? = some y → y = root ∨ asInte m.store y = none) :
    Beside leafSize m S 64 0 root x tb t B A := by
  refine ⟨hreadB, hwB, hread, hw, fun d hd => ⟨v, root, hvS, hv, hd⟩, ?_⟩
  rintro d hd - ⟨j, y, hj, hy, hreach⟩
  rcases hflat j y hj hy with rfl | hnone
  · exact hreach
  · exact absurd hreach (not_reach_of_asInte hnone hd)

/-! ## The three-tree version -/

/-- A call on the sons sweeps from the son of `new_ver`, and resets it when it is an own one,
whatever the calls before it have reset. -/
theorem sonCall_swept (hs : Swept m y m1) (haI : Store.IsInte m.store a)
    (hbI : Store.IsInte m.store b) (hcI : Store.IsInte m.store c)
    (hreadA : Store.Reads m.store (some a) t)
    (hreadC : Store.Reads m.store (some c) tn) (hheightA : height t < depth + 1)
    (hheightC : height tn < depth + 1) {side : Bool}
    (hrun : garbageCollect cutoff depth m1 (sonRef b side) (sonRef a side) (sonRef c side) =
      some m2) :
    Swept m1 (sonRef c side) m2 ∧ (OwnSon m.store (some b) (some c) (some a) side →
      deref m2 (sonRef c side) = some none) := by
  obtain ⟨pa, ta, ha1, hreadA1, hheightA1⟩ := hs.reads_son haI hreadA hheightA side
  obtain ⟨pc, tc, hc1, hreadC1, hheightC1⟩ := hs.reads_son hcI hreadC hheightC side
  obtain ⟨pb, hb1⟩ := hs.exists_deref (deref_sonRef hbI side)
  obtain ⟨m2', hrun', hs2, hcleared⟩ :=
    garbageCollect_swept cutoff hb1 ha1 hc1 hreadA1 hreadC1 hheightA1 hheightC1
  obtain rfl : m2 = m2' := Option.some.inj (hrun.symm.trans hrun')
  refine ⟨hs2, fun hown => ?_⟩
  by_cases hnull : pc = none
  · exact hs2.deref_none (hnull ▸ hc1)
  · -- the sons that are still there are the ones from the start
    have hpast : ∀ {d : Nat} {q : Ptr}, Store.IsInte m.store d → deref m1 (sonRef d side) = some q →
        q ≠ none → q = Store.son m.store (some d) side := by
      intro d q hd hq hne
      rcases hs.deref (deref_sonRef hd side) with h | h
      · exact Option.some.inj (hq.symm.trans h)
      · exact absurd (Option.some.inj (hq.symm.trans h)) hne
    have hpc := hpast hcI hc1 hnull
    refine hcleared hnull ?_ ?_
    · rintro rfl
      exact hown.2.1 (hpc.symm.trans (hpast hbI hb1 hnull))
    · rintro rfl
      exact hown.2.2 (hpc.symm.trans (hpast haI ha1 hnull))

end Tree

/-! ## What the roots still read -/

open Silva.Tree (Swept Outside garbageCollect release sonRef)

variable {leafSize cutoff b c i : Nat} {m m' : Mem Node} {base newVer x y : Ptr}
  {t tb tn : BaseNode} {S : Set Nat}

theorem Intact.of_protects {v : Nat} (h : m.Protects sons S m') (hv : v ∈ S)
    (hy : m.vars[v]? = some y) (hread : Store.Reads m.store y t) : Intact m m' v :=
  ⟨y, y, t, hy, (h.vars v hv).trans hy, hread,
    hread.frame fun d _ hd hn => (h.store d ⟨v, y, hv, hy, hd⟩).trans hn⟩

/-- A son of `new_ver` that is reset was part of its tree. -/
theorem not_intact_of_son {a d : Nat} {side : Bool} (hd : m.vars[d]? = some (some a))
    (hd' : m'.vars[d]? = some (some a)) (ha' : Store.IsInte m'.store a)
    (hson : Store.son m.store (some a) side ≠ none)
    (hson' : Tree.deref m' (sonRef a side) = some none) : ¬Intact m m' d := by
  rintro ⟨z, z', t, hz, hz', hread, hread'⟩
  obtain rfl := Option.some.inj (hz.symm.trans hd)
  obtain rfl := Option.some.inj (hz'.symm.trans hd')
  have h := hread.son side
  have h' := hread'.son side
  rw [Tree.deref_sonRef ha'] at hson'
  rw [Option.some.inj hson'] at h'
  exact hson (h.null_iff.mpr (h'.null_iff.mp rfl))

/-- The swapped calls damage `new_ver`. -/
theorem Misdirected.not_intact (h : Misdirected cutoff m.store base newVer x)
    (hb : Tree.deref m (.var b) = some base) (hc : Tree.deref m (.var c) = some newVer)
    (hx : Tree.deref m (.var i) = some x) (hreadN : Store.Reads m.store newVer tn)
    (hread : Store.Reads m.store x t) (hheightN : Tree.height tn < 66)
    (hheight : Tree.height t < 66)
    (hrun : garbageCollect cutoff 66 m (.var b) (.var c) (.var i) = some m') : ¬Intact m m' c := by
  obtain ⟨a, b0, c0, l, r, n, rfl, rfl, rfl, hab, hac, ha, hbI, hcI, hcut, side, hown⟩ := h
  have haI : Store.IsInte m.store a := ⟨l, r, n, ha⟩
  rw [Tree.garbageCollect_step hb hc hx (fun h => hab (Option.some.inj h).symm)
    (fun h => hac (Option.some.inj h).symm) ha] at hrun
  dsimp only at hrun
  rw [Tree.asInte_of_isInte hbI, Tree.asInte_of_isInte hcI] at hrun
  dsimp only at hrun
  rw [if_pos hcut] at hrun
  obtain ⟨m2, h2, hrelease⟩ := Option.bind_eq_some_iff.mp hrun
  obtain ⟨m1, h1, h2⟩ := Option.bind_eq_some_iff.mp h2
  obtain ⟨hs1, hreset1⟩ := Tree.sonCall_swept (.refl m (.var i)) haI hbI hcI hread hreadN hheight
    hheightN h1
  have hs1' : Swept m (.var i) m1 := hs1.of_field (by simp [sonRef]) _
  obtain ⟨hs2, hreset2⟩ := Tree.sonCall_swept hs1' haI hbI hcI hread hreadN hheight hheightN h2
  obtain ⟨hs3, -⟩ := Tree.gcNocheck_swept hrelease
  have hs : Swept m (.var i) m' :=
    (hs1'.trans (hs2.of_field (by simp [sonRef]) _)).trans hs3
  have hson' : Tree.deref m' (sonRef c0 side) = some none := by
    cases side with
    | false => exact hs3.deref_none (hs2.deref_none (hreset1 hown))
    | true => exact hs3.deref_none (hreset2 hown)
  have hc' : m'.vars[c]? = some (some c0) := by
    rcases hs.vars c _ hc with h | ⟨hic, -⟩
    · exact h
    · cases hic
      exact absurd (Option.some.inj (Option.some.inj (hx.symm.trans hc))) hac
  obtain ⟨node, hnode⟩ := hreadN.exists_node (.here c0)
  exact not_intact_of_son hc hc' ((hs.prunes.isInte_iff hnode).mpr hcI) hown.1 hson'

/-- Otherwise the calls on the sons have nothing to reset. -/
theorem sonCall_same {depth a b0 c0 n : Nat} {l r : Ptr}
    (h : ¬Misdirected cutoff m.store (some b0) (some c0) (some a)) (hab : a ≠ b0) (hac : a ≠ c0)
    (ha : m.store[a]? = some (.inteNode l r n)) (hbI : Store.IsInte m.store b0)
    (hcI : Store.IsInte m.store c0) (hcut : cutoff < n) (side : Bool) :
    garbageCollect cutoff (depth + 1) m (sonRef b0 side) (sonRef a side) (sonRef c0 side) =
      some m := by
  refine Tree.garbageCollect_same (Tree.deref_sonRef hbI side)
    (Tree.deref_sonRef ⟨l, r, n, ha⟩ side) (Tree.deref_sonRef hcI side) ?_
  by_contra hown
  rw [not_or, not_or] at hown
  exact h ⟨a, b0, c0, l, r, n, rfl, rfl, rfl, hab, hac, ha, hbI, hcI, hcut, side, hown⟩

/-- Then nothing that `base` and `new_ver` reach is touched. -/
theorem protects_of_not_misdirected {tb : BaseNode} {B N A : List Point}
    (h : ¬Misdirected cutoff m.store base newVer x)
    (hb : Tree.deref m (.var b) = some base) (hc : Tree.deref m (.var c) = some newVer)
    (hx : Tree.deref m (.var i) = some x) (hreadB : Store.Reads m.store base tb)
    (hreadN : Store.Reads m.store newVer tn) (hread : Store.Reads m.store x t)
    (hwB : IsVersion leafSize tb B) (hwN : IsVersion leafSize tn N) (hw : IsVersion leafSize t A)
    (hrun : garbageCollect cutoff 66 m (.var b) (.var c) (.var i) = some m') :
    m.Protects sons {b, c} m' := by
  by_cases hsame : x = none ∨ x = base ∨ x = newVer
  · rw [Tree.garbageCollect_same hb hc hx hsame] at hrun
    cases hrun
    exact .refl _ m
  · rw [not_or, not_or] at hsame
    obtain ⟨hnull, hxb, hxc⟩ := hsame
    have hout : Outside m {b, c} (.var i) := by
      rintro (rfl | rfl)
      · exact hxb (Option.some.inj (hx.symm.trans hb))
      · exact hxc (Option.some.inj (hx.symm.trans hc))
    have hvar : ∀ {j : Nat} {z : Ptr}, j ∈ ({b, c} : Set Nat) → m.vars[j]? = some z →
        z = base ∨ z = newVer := by
      rintro j z (rfl | rfl) hz
      · exact Or.inl (Option.some.inj (hz.symm.trans hb))
      · exact Or.inr (Option.some.inj (hz.symm.trans hc))
    obtain ⟨a, rfl⟩ := Option.ne_none_iff_exists'.mp hnull
    obtain ⟨node, ha⟩ := hread.exists_node (.here a)
    rw [Tree.garbageCollect_step hb hc hx (Ne.symm hxb) (Ne.symm hxc) ha] at hrun
    cases node with
    | leafNode P => exact Tree.gcNocheck_protects hout hrun
    | inteNode l r n =>
      dsimp only at hrun
      cases hasB : Tree.asInte m.store base with
      | none =>
        rw [hasB] at hrun
        have hroots : Tree.Beside leafSize m {b, c} 64 0 newVer (some a) tn t N A :=
          .roots hc (Or.inr rfl) hreadN hread hwN hw fun j z hj hz =>
            (hvar hj hz).elim (fun h => Or.inr (h ▸ hasB)) Or.inl
        exact (Tree.garbageCollectBase_protects (.refl _ m) (.refl _) hout hc (Or.inl hx) hroots
          hrun).1
      | some b0 =>
        rw [hasB] at hrun
        cases hasC : Tree.asInte m.store newVer with
        | none =>
          rw [hasC] at hrun
          have hroots : Tree.Beside leafSize m {b, c} 64 0 base (some a) tb t B A :=
            .roots hb (Or.inl rfl) hreadB hread hwB hw fun j z hj hz =>
              (hvar hj hz).elim Or.inl (fun h => Or.inr (h ▸ hasC))
          exact (Tree.garbageCollectBase_protects (.refl _ m) (.refl _) hout hb (Or.inl hx) hroots
            hrun).1
        | some c0 =>
          rw [hasC] at hrun
          obtain ⟨m1, hsons, hrelease⟩ := Option.bind_eq_some_iff.mp hrun
          obtain ⟨rfl, hbI⟩ := Tree.asInte_some hasB
          obtain ⟨rfl, hcI⟩ := Tree.asInte_some hasC
          have hcall : cutoff < n → ∀ side, garbageCollect cutoff 65 m (sonRef b0 side)
              (sonRef a side) (sonRef c0 side) = some m :=
            sonCall_same h (fun h => hxb (congrArg some h)) (fun h => hxc (congrArg some h)) ha hbI
              hcI
          obtain rfl : m = m1 := by
            by_cases hcut : cutoff < n
            · rw [if_pos hcut, hcall hcut false, Option.bind_some, hcall hcut true] at hsons
              exact Option.some.inj hsons
            · rw [if_neg hcut] at hsons
              exact Option.some.inj hsons
          exact Tree.gcNocheck_protects hout hrelease

/-- Purging the version `x` between `base` and `new_ver`: the trees of `base` and of `new_ver` are
what they were if and only if the swapped calls get no son that only `new_ver` has. -/
theorem garbage_collect_intact_iff (hm : Reachable leafSize m) (hb : m.vars[b]? = some base)
    (hc : m.vars[c]? = some newVer) (hx : m.vars[i]? = some x) (cutoff : Nat) :
    ∃ m', garbageCollect cutoff 66 m (.var b) (.var c) (.var i) = some m' ∧
      ((Intact m m' b ∧ Intact m m' c) ↔ ¬Misdirected cutoff m.store base newVer x) := by
  obtain ⟨versions, hstores⟩ := hm.stores
  obtain ⟨tb, -, hreadB, hverB⟩ := hstores.var_iff hb
  obtain ⟨tn, -, hreadN, hverN⟩ := hstores.var_iff hc
  obtain ⟨t, -, hread, hver⟩ := hstores.var_iff hx
  have hheightN := Nat.lt_succ_of_le (Tree.height_le hverN.isVersion)
  have hheight := Nat.lt_succ_of_le (Tree.height_le hver.isVersion)
  obtain ⟨m', hrun, -⟩ := @Tree.garbageCollect_swept cutoff 66 m (.var b) (.var c) (.var i)
    _ _ _ _ _ hb hc hx hreadN hread hheightN hheight
  refine ⟨m', hrun, fun h hmis => ?_, fun h => ?_⟩
  · exact hmis.not_intact hb hc hx hreadN hread hheightN hheight hrun h.2
  · have hprot := protects_of_not_misdirected h hb hc hx hreadB hreadN hread hverB.isVersion
      hverN.isVersion hver.isVersion hrun
    exact ⟨.of_protects hprot (Or.inl rfl) hb hreadB, .of_protects hprot (Or.inr rfl) hc hreadN⟩

/-- A version with a leaf on either side, and two insertions into its left leaf. -/
def twoInsertions : Mem Node where
  store := [.leafNode [⟨1, 0, 0, 0⟩],
    .leafNode [⟨2, 2 ^ 31, 0, 2 ^ 63⟩, ⟨3, 2 ^ 31, 0, 2 ^ 63⟩],
    .inteNode (some 0) (some 1) 3,
    .inteNode (some 4) (some 1) 4, .leafNode [⟨1, 0, 0, 0⟩, ⟨4, 0, 0, 0⟩],
    .inteNode (some 6) (some 1) 4, .leafNode [⟨1, 0, 0, 0⟩, ⟨5, 0, 0, 0⟩]]
  vars := [some 2, some 3, some 5]

theorem twoInsertions_reachable : Reachable 2 twoInsertions := by
  have h0 : Reachable 2 { store := twoInsertions.store.take 3, vars := [some 2] } :=
    .build (P := [⟨1, 0, 0, 0⟩, ⟨2, 2 ^ 31, 0, 2 ^ 63⟩, ⟨3, 2 ^ 31, 0, 2 ^ 63⟩])
      ⟨by decide +kernel, by decide +kernel⟩ (by decide +kernel)
  have h1 : Reachable 2 { store := twoInsertions.store.take 5, vars := [some 2, some 3] } :=
    @Reachable.step 2 _ _ (.insert 0 [⟨4, 0, 0, 0⟩]) h0 ⟨by decide +kernel, by decide +kernel⟩
      (by decide +kernel)
  exact @Reachable.step 2 _ _ (.insert 0 [⟨5, 0, 0, 0⟩]) h1 ⟨by decide +kernel, by decide +kernel⟩
    (by decide +kernel)

theorem garbage_collect_intact_iff_two :
    Reachable 2 twoInsertions ∧ twoInsertions.vars[0]? = some (some 2) ∧
      twoInsertions.vars[2]? = some (some 5) ∧ twoInsertions.vars[1]? = some (some 3) ∧
      ∃ m', garbageCollect 9 66 twoInsertions (.var 0) (.var 2) (.var 1) = some m' ∧
        ((Intact twoInsertions m' 0 ∧ Intact twoInsertions m' 2) ↔
          ¬Misdirected 9 twoInsertions.store (some 2) (some 5) (some 3)) :=
  ⟨twoInsertions_reachable, rfl, rfl, rfl,
    garbage_collect_intact_iff twoInsertions_reachable rfl rfl rfl 9⟩

/-- With a cutoff of 0, the purge of the first insertion takes the left leaf of the second one. -/
theorem purge_empties_new_version :
    Reachable 2 twoInsertions ∧
      ∃ m', garbageCollect 0 66 twoInsertions (.var 0) (.var 2) (.var 1) = some m' ∧
        ¬Intact twoInsertions m' 2 := by
  refine ⟨twoInsertions_reachable,
    { store := (twoInsertions.store.set 3 (.inteNode none none 4)).set 5 (.inteNode none (some 1) 4)
      vars := [some 2, none, some 5] }, by decide +kernel, ?_⟩
  exact @not_intact_of_son _ _ 5 2 false rfl rfl ⟨_, _, _, rfl⟩ (by decide) rfl

end Silva
