import Silva.Mvq.Proofs.StoreProofs

/-!
# Proofs: the persistent updates on the store

An update copies the node it works on, updates the copies of the sons that the batch reaches, and
keeps the pointers to the other sons. The induction is on the invariant of the tree, as for the
updates on trees, which the updates on the store follow step by step.
-/

namespace Silva

open RefCount (Ptr Mem Reach Extends ExtendsBut)
open Node (sons)

namespace Store

variable {leafSize b : Nat} {store store' : Store} {x x' l r l' r' : Ptr}
  {t t' tl tr tl' tr' : BaseNode} {a a0 c n : Nat} {Q QA QB : List Point}

/-! ## Updating a copy of a son -/

/-- `node_copy`, and then an update of the copy. -/
def updateCopy (f : Store → Ptr → Option (Store × Ptr)) (store : Store) (x : Ptr) :
    Option (Store × Ptr) := do
  let (store, y) ← nodeCopy store x
  f store y

theorem updateCopy_some (f : Store → Ptr → Option (Store × Ptr)) {m : Node}
    (ha : store[a]? = some m) :
    updateCopy f store (some a) = f (store ++ [m]) (some store.length) := by
  have hcopy : nodeCopy store (some a) = some (store ++ [m], some store.length) := by
    rw [nodeCopy, ha]
    rfl
  unfold updateCopy
  rw [hcopy]
  rfl

/-- As `Shares`, with the position of `x` itself. -/
def SharesAll (b : Nat) (P : List Point) (store : Store) (x : Ptr) (store' : Store) (x' : Ptr) :
    Prop :=
  ∀ path a, IsInte store a → ptrAt store x path = some a →
    (∀ p ∈ P, ¬InRegion b path p.mortonId) → ptrAt store' x' path = some a

theorem SharesAll.of_shares (h : Shares b Q store x store' x') (hQ : Q ≠ []) :
    SharesAll b Q store x store' x' := by
  intro path a ha hpath hfree
  by_cases hnil : path = []
  · obtain ⟨p, hp⟩ := List.exists_mem_of_ne_nil Q hQ
    rw [hnil] at hfree
    exact absurd trivial (hfree p hp)
  · exact h path a hnil ha hpath hfree

theorem ptrAt_none (store : Store) (path : List Bool) : ptrAt store none path = none := by
  induction path with
  | nil => rfl
  | cons side path ih => exact ih

/-- Below a null pointer or a leaf there is nothing to share. -/
theorem Shares.of_son_none (h : ∀ side, son store x side = none) :
    Shares b Q store x store' x' := by
  intro path c hne _ hpath _
  cases path with
  | nil => exact absurd rfl hne
  | cons side path =>
    change ptrAt store (son store x side) path = some c at hpath
    rw [h side, ptrAt_none] at hpath
    cases hpath

theorem Shares.null : Shares b Q store none store' x' := .of_son_none fun _ => rfl

theorem Shares.leaf {P : List Point} (ha : store[a]? = some (.leafNode P)) :
    Shares b Q store (some a) store' x' :=
  .of_son_none (son_leaf ha)

/-- A son is updated only when its part of the batch is not empty. -/
theorem son_update {f : Store → Ptr → Option (Store × Ptr)} (t' : BaseNode)
    (hread : Reads store x t) (h0 : Q = [] → t' = t)
    (hf : Q ≠ [] → ∃ store' x', updateCopy f store x = some (store', x') ∧
      Updated store x store' x' t' ∧ Shares b Q store x store' x') :
    ∃ store' x', (if Q = [] then some (store, x) else updateCopy f store x) = some (store', x') ∧
      Updated store x store' x' t' ∧ SharesAll b Q store x store' x' := by
  by_cases hQ : Q = []
  · obtain rfl := h0 hQ
    exact ⟨store, x, if_pos hQ, .refl hread, fun path a _ hpath _ => hpath⟩
  · obtain ⟨store', x', hrun, hupd, hshares⟩ := hf hQ
    exact ⟨store', x', (if_neg hQ).trans hrun, hupd, .of_shares hshares hQ⟩

/-- Both sons of a copied interior node are updated, one after the other. -/
theorem sons_update {store2 store3 : Store} (ha : store[a0]? = some (.inteNode l r n))
    (hl : Reads store l tl) (hr : Reads store r tr)
    (hul : Updated (store ++ [.inteNode l r n]) l store2 l' tl')
    (hsl : SharesAll b QA (store ++ [.inteNode l r n]) l store2 l')
    (hur : Updated store2 r store3 r' tr') (hsr : SharesAll b QB store2 r store3 r') :
    SonsUpdated (fun c => Reach sons store (some a0) c ∨ store.length ≤ c) store store.length store3
        l' r' tl' tr' ∧
      store.length < store3.length ∧ SharesAll b QA store l store3 l' ∧
      SharesAll b QB store r store3 r' := by
  have hext1 : Extends store (store ++ [Node.inteNode l r n]) := .append _ _
  have hext2 := hext1.trans hul.extend
  have hlen1 : (store ++ [Node.inteNode l r n]).length = store.length + 1 := by simp
  have hlen2 := hul.extend.length_le
  refine ⟨⟨(hext2.trans hur.extend).extendsBut, hul.reads.mono hur.extend, hur.reads, ?_, ?_⟩, ?_,
    ?_, ?_⟩
  · intro c hc
    have hc2 := (hul.reads.reach_iff fun c n _ => hur.extend c n).mp hc
    rcases hul.fresh c hc2 with hc1 | hge
    · have hc0 := (hl.reach_iff fun c n _ => hext1 c n).mp hc1
      exact ⟨(hl.lt_length hc0).ne, Or.inl (.child ha (by simp [sons]) hc0)⟩
    · exact ⟨by omega, Or.inr (by omega)⟩
  · intro c hc
    rcases hur.fresh c hc with hc2 | hge
    · have hc0 := (hr.reach_iff fun c n _ => hext2 c n).mp hc2
      exact ⟨(hr.lt_length hc0).ne, Or.inl (.child ha (by simp [sons]) hc0)⟩
    · exact ⟨by omega, Or.inr (by omega)⟩
  · have := hur.extend.length_le
    omega
  · intro path c hc hpath hfree
    have hpath1 := (hl.ptrAt_frame (fun c n _ => hext1 c n) path).trans hpath
    obtain ⟨l0, r0, n0, hc0⟩ := hc
    have hpath2 := hsl path c ⟨l0, r0, n0, hext1 _ _ hc0⟩ hpath1 hfree
    exact (hul.reads.ptrAt_frame (fun c n _ => hur.extend c n) path).trans hpath2
  · intro path c hc hpath hfree
    have hpath2 := (hr.ptrAt_frame (fun c n _ => hext2 c n) path).trans hpath
    obtain ⟨l0, r0, n0, hc0⟩ := hc
    exact hsr path c ⟨l0, r0, n0, hext2 _ _ hc0⟩ hpath2 hfree

/-! ## Regions of the two sons -/

theorem Cell.testBit_left {b c : Nat} {A : List Point} (hA : Cell b (2 * c) A) {p : Point}
    (hp : p ∈ A) : p.mortonId.testBit b = false := by
  have hless := hA.bitLess_left hp
  rw [(hA.coded p hp).bitLess] at hless
  simpa using hless

theorem Cell.testBit_right {b c : Nat} {B : List Point} (hB : Cell b (2 * c + 1) B) {p : Point}
    (hp : p ∈ B) : p.mortonId.testBit b = true := by
  have hless := hB.bitLess_right hp
  rw [(hB.coded p hp).bitLess] at hless
  simpa using hless

/-- A node shares what its sons share. -/
theorem Shares.of_sons {k : Nat} {store3 : Store} (ha : store[a0]? = some (.inteNode l r n))
    (hQA : Cell b (2 * k) QA) (hQB : Cell b (2 * k + 1) QB) (hext : Extends store store3)
    (hsl : SharesAll b QA store l store3 l') (hsr : SharesAll b QB store r store3 r')
    (hkeeps : ∀ side path d, IsInte store3 d → ptrAt store3 (if side then r' else l') path = some d →
      ptrAt store' x' (side :: path) = some d) :
    Shares (b + 1) (QA ++ QB) store (some a0) store' x' := by
  intro path d hne hd hpath hfree
  cases path with
  | nil => exact absurd rfl hne
  | cons side path =>
    change ptrAt store (son store (some a0) side) path = some d at hpath
    rw [son_inte ha] at hpath
    obtain ⟨l0, r0, n0, hd0⟩ := hd
    refine hkeeps side path d ⟨l0, r0, n0, hext _ _ hd0⟩ ?_
    cases side with
    | false =>
      refine hsl path d ⟨l0, r0, n0, hd0⟩ hpath fun p hp hin => ?_
      exact hfree p (List.mem_append_left _ hp) ⟨Cell.testBit_left hQA hp, hin⟩
    | true =>
      refine hsr path d ⟨l0, r0, n0, hd0⟩ hpath fun p hp hin => ?_
      exact hfree p (List.mem_append_right _ hp) ⟨Cell.testBit_right hQB hp, hin⟩

/-! ## The node above two updated sons -/

/-- `x'` takes the place of the node at `a` with the sons `l` and `r`: the interior nodes below the sons
keep their positions. -/
structure Placed (F : Nat → Prop) (a : Nat) (store : Store) (l r : Ptr) (store' : Store) (x' : Ptr)
    (t' : BaseNode) : Prop where
  extend : ExtendsBut a store store'
  reads : Reads store' x' t'
  uses : ∀ c, Reach sons store' x' c → F c
  keeps : ∀ side path d, IsInte store d → ptrAt store (if side then r else l) path = some d →
    ptrAt store' x' (side :: path) = some d

section SonsUpdated

variable {F : Nat → Prop} {store3 store5 : Store}

theorem SonsUpdated.sharesL (h : SonsUpdated F store a store3 l' r' tl tr)
    (hbut : ExtendsBut a store3 store5) (hs : SharesAll b Q store l store3 l') :
    SharesAll b Q store l store5 l' := fun path d hd hpath hfree =>
  (h.readsL.ptrAt_frame (h.frameL hbut) path).trans (hs path d hd hpath hfree)

theorem SonsUpdated.sharesR (h : SonsUpdated F store a store3 l' r' tl tr)
    (hbut : ExtendsBut a store3 store5) (hs : SharesAll b Q store r store3 r') :
    SharesAll b Q store r store5 r' := fun path d hd hpath hfree =>
  (h.readsR.ptrAt_frame (h.frameR hbut) path).trans (hs path d hd hpath hfree)

/-- The node stays. -/
theorem SonsUpdated.placed_self (h : SonsUpdated F store a store3 l r tl tr)
    (hbut : ExtendsBut a store3 store5) (ha : store5[a]? = some (.inteNode l r n)) (hFa : F a) :
    Placed F a store3 l r store5 (some a) (.inteNode tl tr n) := by
  have h5 := h.but hbut
  refine ⟨hbut, .inte ha h5.readsL h5.readsR, fun c hc => ?_, fun side path d _ hpath => ?_⟩
  · rcases h5.reach ha hc with rfl | hc
    · exact hFa
    · exact hc
  · show ptrAt store5 (son store5 (some a) side) path = some d
    rw [son_inte ha]
    cases side with
    | false => exact (h.readsL.ptrAt_frame (h.frameL hbut) path).trans hpath
    | true => exact (h.readsR.ptrAt_frame (h.frameR hbut) path).trans hpath

end SonsUpdated

/-! ## Insertion -/

theorem insertNode_inte {k : Nat} (ha : store[a]? = some (.inteNode l r n))
    (hQA : Cell b (2 * k) QA) (hQB : Cell b (2 * k + 1) QB) :
    multiVersionBatchInsertSortedNode leafSize (b + 1) store (some a) (QA ++ QB) = (do
      let (store, newLSon) ← (if QA = [] then some (store, l)
        else updateCopy (multiVersionBatchInsertSortedNode leafSize b · · QA) store l)
      let (store, newRSon) ← (if QB = [] then some (store, r)
        else updateCopy (multiVersionBatchInsertSortedNode leafSize b · · QB) store r)
      let store ← mergeNodes store newLSon newRSon a
      return (store, some a)) := by
  rw [multiVersionBatchInsertSortedNode, ha]
  simp only [splitByBit_append hQA hQB, List.take_left, List.drop_left, Option.bind_eq_bind,
    Option.bind_some]
  by_cases hA0 : QA = [] <;> by_cases hB0 : QB = [] <;>
    simp [hA0, hB0, List.length_pos_iff, updateCopy]

/-- Inserting into a copy: the store follows the tree, and shares what the batch does not touch. -/
theorem insertNode_updated {k : Nat} {P : List Point} (h : WellFormed leafSize b k t P) :
    ∀ {store : Store} {x : Ptr} {Q : List Point}, Reads store x t → Cell b k Q →
      ∃ store' x', updateCopy (multiVersionBatchInsertSortedNode leafSize b · · Q) store x =
        some (store', x') ∧
        Updated store x store' x' (Tree.multiVersionBatchInsertSortedNode leafSize t Q b) ∧
        Shares b Q store x store' x' := by
  induction h with
  | null b k =>
    intro store x Q hread _
    obtain rfl := hread.null_iff.mpr rfl
    obtain ⟨store', x', hbuild, hupd⟩ := buildNode_updated leafSize b store Q
    refine ⟨store', x', ?_, hupd, .null⟩
    show multiVersionBatchInsertSortedNode leafSize b store none Q = _
    rw [multiVersionBatchInsertSortedNode, hbuild]
  | @leaf b k P cell fits =>
    intro store x Q hread _
    obtain ⟨a, rfl, ha⟩ := hread.exists_leaf
    have hcopy : (store ++ [Node.leafNode P])[store.length]? = some (.leafNode P) :=
      List.getElem?_concat_length
    rw [updateCopy_some _ ha, multiVersionBatchInsertSortedNode, hcopy,
      Tree.multiVersionBatchInsertSortedNode]
    simp only [Option.bind_eq_bind, Option.bind_some]
    by_cases hfit : b = 0 ∨ P.length + Q.length ≤ leafSize
    · rw [if_pos hfit, if_pos hfit, List.set_append_right _ _ le_rfl, Nat.sub_self]
      exact ⟨_, _, rfl, .leaf store _ _, .leaf ha⟩
    · rw [if_neg hfit, if_neg hfit]
      obtain ⟨store', x', hbuild, hupd⟩ := buildNode_updated leafSize b
        (store ++ [Node.leafNode P]) (parlayMerge mortonCmp P Q)
      have hext : Extends store (store ++ [Node.leafNode P]) := .append _ _
      refine ⟨store', x', hbuild, ⟨hext.trans hupd.extend, hupd.reads, fun c hc => ?_⟩, .leaf ha⟩
      exact Or.inr (hext.length_le.trans ((hupd.fresh c hc).resolve_left Reach.not_null))
  | @inte b k tl tr A B left right hl hr large ihl ihr =>
    intro store x Q hread hQ
    obtain ⟨QA, QB, rfl, -, hQA, hQB⟩ := hQ.split
    cases hread with
    | @inte a0 _ l r _ _ ha hreadL hreadR =>
      have hext : Extends store (store ++ [Node.inteNode l r (A.length + B.length)]) := .append _ _
      obtain ⟨store2, l', hl', hul, hsl⟩ := son_update
        (if QA = [] then tl else Tree.multiVersionBatchInsertSortedNode leafSize tl QA b)
        (hreadL.mono hext) (fun h0 => if_pos h0) fun hne => by
          rw [if_neg hne]
          exact ihl (hreadL.mono hext) hQA
      have hreadR2 := hreadR.mono (hext.trans hul.extend)
      obtain ⟨store3, r', hr', hur, hsr⟩ := son_update
        (if QB = [] then tr else Tree.multiVersionBatchInsertSortedNode leafSize tr QB b)
        hreadR2 (fun h0 => if_pos h0) fun hne => by rw [if_neg hne]; exact ihr hreadR2 hQB
      obtain ⟨hsons, hlen, hshareL, hshareR⟩ :=
        sons_update ha hreadL hreadR hul hsl hur hsr
      obtain ⟨store4, hmerge, hsons4, hbut, hcell⟩ := hsons.mergeNodes hlen
      have hplaced := hsons.placed_self hbut hcell (Or.inr le_rfl)
      refine ⟨store4, some store.length, ?_, ⟨hsons4.extends le_rfl, ?_, ?_⟩, ?_⟩
      · rw [updateCopy_some _ ha, insertNode_inte List.getElem?_concat_length hQA hQB, hl']
        simp only [Option.bind_eq_bind, Option.bind_some, hr', hmerge]
        rfl
      · rw [Silva.insertNode_inte hQA hQB]
        exact hplaced.reads
      · exact hplaced.uses
      · exact .of_sons ha hQA hQB (hsons.extends le_rfl) hshareL hshareR hplaced.keeps

/-! ## Deletion -/

/-- Below an interior node there are more records than a leaf holds. -/
theorem lt_of_isInte {k : Nat} {P : List Point} (h : WellFormed leafSize b k t P)
    {path : List Bool} {d : Nat} (hread : Reads store x t) (hd : IsInte store d)
    (hpath : ptrAt store x path = some d) : leafSize < P.length := by
  induction h generalizing x path with
  | null b k =>
    obtain rfl := hread.null_iff.mpr rfl
    rw [ptrAt_none] at hpath
    cases hpath
  | leaf cell fits =>
    obtain ⟨l, r, n, hd⟩ := hd
    cases hread with
    | @leaf a _ ha =>
      cases path with
      | nil => cases hpath; rw [ha] at hd; cases hd
      | cons side path =>
        change ptrAt store (son store (some a) side) path = some d at hpath
        rw [son_leaf ha, ptrAt_none] at hpath
        cases hpath
  | inte left right hl hr large ihl ihr =>
    rw [List.length_append]
    cases path with
    | nil => exact large
    | cons side path =>
      have hson := hread.son side
      cases side with
      | false => exact (ihl hson hpath).trans_le (Nat.le_add_right _ _)
      | true => exact (ihr hson hpath).trans_le (Nat.le_add_left _ _)

section Collapse

variable {F : Nat → Prop} {store3 store5 : Store} {k : Nat} {A B : List Point}

theorem destroyUnless_of_ne (hx : x ≠ some a) :
    ExtendsBut a store (destroyUnless store a x) := by
  unfold destroyUnless
  rw [if_neg hx]
  exact .set store a _

/-- The node goes: both sons fit into leaves, so no interior node is below them. -/
theorem Placed.of_small (h : SonsUpdated F store a store3 l r tl tr)
    (hleft : WellFormed leafSize b (2 * k) tl A) (hright : WellFormed leafSize b (2 * k + 1) tr B)
    (hsmall : A.length + B.length ≤ leafSize) (hbut : ExtendsBut a store3 store5)
    (hreads : Reads store5 x' t') (huses : ∀ c, Reach sons store5 x' c → F c) :
    Placed F a store3 l r store5 x' t' := by
  refine ⟨hbut, hreads, huses, fun side path d hd hpath => ?_⟩
  cases side with
  | false => have := lt_of_isInte hleft h.readsL hd hpath; omega
  | true => have := lt_of_isInte hright h.readsR hd hpath; omega

theorem updateNumPts_eq (ha : store[a]? = some (.inteNode l r n)) :
    updateNumPts store a = mergeNodes store l r a := by
  unfold updateNumPts
  rw [ha]
  rfl

/-- After the choice of `x'` the node is brought up to date, and destroyed if it was not chosen. -/
theorem SonsUpdated.collapse (h : SonsUpdated F store a store3 l r tl tr)
    (hne : ¬(l = none ∧ r = none)) (hchoose : chooseNode leafSize store' a l r = some (store3, x'))
    (ha : store3[a]? = some (.inteNode l r n)) :
    ∃ store5, Store.collapse leafSize store' a l r = some (destroyUnless store5 a x', x') ∧
      ExtendsBut a store3 store5 ∧
      store5[a]? = some (.inteNode l r (tl.getNumPoints + tr.getNumPoints)) := by
  obtain ⟨store5, hmerge, -, hbut, hcell⟩ := h.mergeNodes (List.getElem?_eq_some_iff.mp ha).1
  refine ⟨store5, ?_, hbut, hcell⟩
  unfold Store.collapse
  rw [if_neg hne, hchoose]
  simp only [Option.bind_eq_bind, Option.bind_some, updateNumPts_eq ha, hmerge]
  rfl

section Cases

variable (h : SonsUpdated F store a store3 l r tl tr) (hne : ¬(l = none ∧ r = none))
  (hF : ∀ c, a ≤ c → F c)

include h hne hF

/-- The choice falls on the node itself. -/
theorem SonsUpdated.collapse_self (hchoose : chooseNode leafSize store3 a l r = some (store5, some a))
    (hbut : ExtendsBut a store3 store5) (ha : store5[a]? = some (.inteNode l r n)) :
    ∃ store' x', Store.collapse leafSize store3 a l r = some (store', x') ∧
      Placed F a store3 l r store' x' (.inteNode tl tr (tl.getNumPoints + tr.getNumPoints)) := by
  obtain ⟨store6, hrun, hbut6, hcell⟩ := (h.but hbut).collapse hne hchoose ha
  have hself : destroyUnless store6 a (some a) = store6 := if_pos rfl
  rw [hself] at hrun
  exact ⟨store6, some a, hrun, h.placed_self (hbut.trans hbut6) hcell (hF a le_rfl)⟩

variable (hleft : WellFormed leafSize b (2 * k) tl A)
  (hright : WellFormed leafSize b (2 * k + 1) tr B)

include hleft hright

omit hF in
/-- The choice falls on another node, which takes all records. -/
theorem SonsUpdated.collapse_other (hchoose : chooseNode leafSize store3 a l r = some (store5, x'))
    (hbut : ExtendsBut a store3 store5) (ha : store5[a]? = some (.inteNode l r n))
    (hsmall : A.length + B.length ≤ leafSize) (hx : x' ≠ some a)
    (hother : ∀ store6, ExtendsBut a store5 store6 →
      Reads store6 x' t' ∧ ∀ c, Reach sons store6 x' c → F c) :
    ∃ store' x', Store.collapse leafSize store3 a l r = some (store', x') ∧
      Placed F a store3 l r store' x' t' := by
  obtain ⟨store6, hrun, hbut6, -⟩ := (h.but hbut).collapse hne hchoose ha
  have hbut7 := hbut6.trans (destroyUnless_of_ne hx)
  obtain ⟨hreads, huses⟩ := hother _ hbut7
  exact ⟨_, x', hrun, .of_small h hleft hright hsmall (hbut.trans hbut7) hreads huses⟩

theorem SonsUpdated.collapse_left (ha : store3[a]? = some (.inteNode l r n)) (hl : l = none)
    (ht' : Tree.collapse leafSize tl tr = some t') :
    ∃ store' x', Store.collapse leafSize store3 a l r = some (store', x') ∧
      Placed F a store3 l r store' x' t' := by
  subst hl
  obtain rfl := h.readsL.null_iff.mp rfl
  have hr : r ≠ none := fun hr => hne ⟨rfl, hr⟩
  rw [collapse_nullptr_left (mt h.readsR.null_iff.mpr hr), Option.some_inj] at ht'
  have hchoose : chooseNode leafSize store3 a none r =
      some (store3, if tr.getNumPoints ≤ leafSize then r else some a) := by
    unfold chooseNode
    rw [h.readsL.getNumPoints, h.readsR.getNumPoints]
    rfl
  by_cases hfit : tr.getNumPoints ≤ leafSize
  · rw [if_pos hfit] at hchoose ht'
    subst ht'
    refine h.collapse_other hne hleft hright hchoose (Extends.refl _).extendsBut ha ?_ ?_ ?_
    · rw [hleft.nullptr_iff, ← hright.getNumPoints, List.length_nil, Nat.zero_add]
      exact hfit
    · exact fun hra => (h.usesR a (hra ▸ .here a)).1 rfl
    · exact fun _ hbut => ⟨(h.but hbut).readsR, fun c hc => ((h.but hbut).usesR c hc).2⟩
  · rw [if_neg hfit] at hchoose ht'
    subst ht'
    exact h.collapse_self hne hF hchoose (Extends.refl _).extendsBut ha

theorem SonsUpdated.collapse_right (ha : store3[a]? = some (.inteNode l r n)) (hr : r = none)
    (ht' : Tree.collapse leafSize tl tr = some t') :
    ∃ store' x', Store.collapse leafSize store3 a l r = some (store', x') ∧
      Placed F a store3 l r store' x' t' := by
  subst hr
  obtain rfl := h.readsR.null_iff.mp rfl
  have hl : l ≠ none := fun hl => hne ⟨hl, rfl⟩
  rw [collapse_nullptr_right (mt h.readsL.null_iff.mpr hl), Option.some_inj] at ht'
  have hchoose : chooseNode leafSize store3 a l none =
      some (store3, if tl.getNumPoints ≤ leafSize then l else some a) := by
    unfold chooseNode
    rw [h.readsL.getNumPoints, h.readsR.getNumPoints]
    simp only [Option.bind_eq_bind, Option.bind_some, if_neg hl, if_true]
    rfl
  by_cases hfit : tl.getNumPoints ≤ leafSize
  · rw [if_pos hfit] at hchoose ht'
    subst ht'
    refine h.collapse_other hne hleft hright hchoose (Extends.refl _).extendsBut ha ?_ ?_ ?_
    · rw [hright.nullptr_iff, ← hleft.getNumPoints, List.length_nil, Nat.add_zero]
      exact hfit
    · exact fun hla => (h.usesL a (hla ▸ .here a)).1 rfl
    · exact fun _ hbut => ⟨(h.but hbut).readsL, fun c hc => ((h.but hbut).usesL c hc).2⟩
  · rw [if_neg hfit] at hchoose ht'
    subst ht'
    exact h.collapse_self hne hF hchoose (Extends.refl _).extendsBut ha

omit hne in
theorem SonsUpdated.collapse_both (ha : store3[a]? = some (.inteNode l r n)) (hl : l ≠ none)
    (hr : r ≠ none) (ht' : Tree.collapse leafSize tl tr = some t') :
    ∃ store' x', Store.collapse leafSize store3 a l r = some (store', x') ∧
      Placed F a store3 l r store' x' t' := by
  have hne : ¬(l = none ∧ r = none) := fun hnull => hl hnull.1
  have halt := (List.getElem?_eq_some_iff.mp ha).1
  have htl := mt h.readsL.null_iff.mpr hl
  have htr := mt h.readsR.null_iff.mpr hr
  rw [collapse_of_ne htl htr] at ht'
  by_cases hfit : tl.getNumPoints + tr.getNumPoints ≤ leafSize
  · have hsmall : A.length + B.length ≤ leafSize := by
      rwa [← hleft.getNumPoints, ← hright.getNumPoints]
    have hleafL := hleft.asLeaf htl (by omega)
    have hleafR := hright.asLeaf htr (by omega)
    rw [if_pos hfit, hleafL, hleafR] at ht'
    cases ht'
    -- the leaf is created twice, and the second one stays
    have hext : Extends store3 (store3 ++ [Node.leafNode (parlayMerge mortonCmp A B)] ++
        [.leafNode (parlayMerge mortonCmp A B)]) := by
      rw [List.append_assoc]
      exact .append _ _
    have hchoose : chooseNode leafSize store3 a l r = some (store3 ++
        [.leafNode (parlayMerge mortonCmp A B)] ++ [.leafNode (parlayMerge mortonCmp A B)],
        some (store3.length + 1)) := by
      unfold chooseNode
      rw [h.readsL.getNumPoints, h.readsR.getNumPoints, h.readsL.asLeaf hleafL,
        h.readsR.asLeaf hleafR]
      simp [hl, hr, hfit, createLeaf, alloc]
    refine h.collapse_other hne hleft hright hchoose hext.extendsBut (hext _ _ ha) hsmall
      (fun hx => by cases hx; omega) fun store6 hbut => ?_
    have hnew := hbut (store3.length + 1) (.leafNode (parlayMerge mortonCmp A B)) (by omega)
      (by simp)
    refine ⟨.leaf hnew, fun c hc => ?_⟩
    cases hc with
    | here => exact hF _ (by omega)
    | child hn hy hc => rw [hnew] at hn; cases hn; simp [sons] at hy
  · rw [if_neg hfit, Option.some_inj] at ht'
    subst ht'
    obtain ⟨store4, hmerge, -, hbut4, hcell4⟩ := h.mergeNodes halt
    have hchoose : chooseNode leafSize store3 a l r = some (store4, some a) := by
      unfold chooseNode
      rw [h.readsL.getNumPoints, h.readsR.getNumPoints]
      simp [hl, hr, hfit, hmerge]
    exact h.collapse_self hne hF hchoose hbut4 hcell4

end Cases

/-- The step on the store takes the same branch as the step on trees. -/
theorem collapse_placed (h : SonsUpdated F store a store3 l r tl tr)
    (ha : store3[a]? = some (.inteNode l r n)) (hF : ∀ c, a ≤ c → F c)
    (hleft : WellFormed leafSize b (2 * k) tl A) (hright : WellFormed leafSize b (2 * k + 1) tr B)
    (ht' : Tree.collapse leafSize tl tr = some t') :
    ∃ store' x', collapse leafSize store3 a l r = some (store', x') ∧
      Placed F a store3 l r store' x' t' := by
  by_cases hnull : l = none ∧ r = none
  · obtain ⟨rfl, rfl⟩ := hnull
    obtain rfl := h.readsL.null_iff.mp rfl
    obtain rfl := h.readsR.null_iff.mp rfl
    cases ht'
    refine ⟨_, none, if_pos ⟨rfl, rfl⟩, destroyUnless_of_ne (by simp), .null,
      fun c hc => absurd hc Reach.not_null, fun side path d _ hpath => ?_⟩
    rw [ite_self, ptrAt_none] at hpath
    cases hpath
  · by_cases hl : l = none
    · exact h.collapse_left hnull hF hleft hright ha hl ht'
    · by_cases hr : r = none
      · exact h.collapse_right hnull hF hleft hright ha hr ht'
      · exact h.collapse_both hF hleft hright ha hl hr ht'

end Collapse

theorem deleteNode_inte {k : Nat} (ha : store[a]? = some (.inteNode l r n))
    (hQA : Cell b (2 * k) QA) (hQB : Cell b (2 * k + 1) QB) :
    multiVersionBatchDeleteSortedNode leafSize (b + 1) store (some a) (QA ++ QB) = (do
      let (store, newLSon) ← (if QA = [] then some (store, l)
        else updateCopy (multiVersionBatchDeleteSortedNode leafSize b · · QA) store l)
      let (store, newRSon) ← (if QB = [] then some (store, r)
        else updateCopy (multiVersionBatchDeleteSortedNode leafSize b · · QB) store r)
      collapse leafSize (store.set a (.inteNode newLSon newRSon n)) a newLSon newRSon) := by
  rw [multiVersionBatchDeleteSortedNode, ha]
  simp only [splitByBit_append hQA hQB, List.take_left, List.drop_left, Option.bind_eq_bind,
    Option.bind_some]
  by_cases hA0 : QA = [] <;> by_cases hB0 : QB = [] <;>
    simp [hA0, hB0, List.length_pos_iff, updateCopy]

/-- Deleting from a copy: the store follows the tree, and shares what the batch does not touch. -/
theorem deleteNode_updated {k : Nat} {P : List Point} (h : WellFormed leafSize b k t P) :
    ∀ {store : Store} {x : Ptr} {t' : BaseNode} {Q : List Point}, Reads store x t → Cell b k Q →
      Tree.multiVersionBatchDeleteSortedNode leafSize t Q b = some t' →
      ∃ store' x', updateCopy (multiVersionBatchDeleteSortedNode leafSize b · · Q) store x =
        some (store', x') ∧ Updated store x store' x' t' ∧ Shares b Q store x store' x' := by
  induction h with
  | null b k =>
    intro store x t' Q hread _ ht'
    obtain rfl := hread.null_iff.mpr rfl
    cases ht'
    refine ⟨store, none, ?_, .refl .null, .null⟩
    show multiVersionBatchDeleteSortedNode leafSize b store none Q = _
    rw [multiVersionBatchDeleteSortedNode]
  | @leaf b k P cell fits =>
    intro store x t' Q hread _ ht'
    obtain ⟨a, rfl, ha⟩ := hread.exists_leaf
    have hcopy : (store ++ [Node.leafNode P])[store.length]? = some (.leafNode P) :=
      List.getElem?_concat_length
    have hnew := Updated.leaf store (some a) (getDeleteP P Q 0 Q.length fun _ => true)
    rw [updateCopy_some _ ha, multiVersionBatchDeleteSortedNode, hcopy]
    simp only [Option.bind_eq_bind, Option.bind_some]
    rw [List.set_append_right _ _ le_rfl, Nat.sub_self]
    rw [Tree.multiVersionBatchDeleteSortedNode] at ht'
    by_cases h0 : (getDeleteP P Q 0 Q.length fun _ => true).length = 0
    · rw [if_pos h0] at ht' ⊢
      cases ht'
      exact ⟨_, none, rfl, ⟨hnew.extend, .null, fun c hc => absurd hc Reach.not_null⟩, .leaf ha⟩
    · rw [if_neg h0] at ht' ⊢
      cases ht'
      exact ⟨_, _, rfl, hnew, .leaf ha⟩
  | @inte b k tl tr A B left right hl hr large ihl ihr =>
    intro store x t' Q hread hQ ht'
    obtain ⟨QA, QB, rfl, -, hQA, hQB⟩ := hQ.split
    obtain ⟨tl', hl', hlw, -⟩ := left.deleteSon hl (left.deleteNode hQA)
    obtain ⟨tr', hr', hrw, -⟩ := right.deleteSon hr (right.deleteNode hQB)
    rw [Silva.deleteNode_inte hQA hQB, hl', hr'] at ht'
    cases hread with
    | @inte a0 _ l r _ _ ha hreadL hreadR =>
      have hext : Extends store (store ++ [Node.inteNode l r (A.length + B.length)]) := .append _ _
      obtain ⟨store2, l', hrunL, hul, hsl⟩ := son_update tl' (hreadL.mono hext)
        (fun h0 => by rw [if_pos h0] at hl'; exact (Option.some.inj hl').symm)
        fun hne => by rw [if_neg hne] at hl'; exact ihl (hreadL.mono hext) hQA hl'
      have hreadR2 := hreadR.mono (hext.trans hul.extend)
      obtain ⟨store3, r', hrunR, hur, hsr⟩ := son_update tr' hreadR2
        (fun h0 => by rw [if_pos h0] at hr'; exact (Option.some.inj hr').symm)
        fun hne => by rw [if_neg hne] at hr'; exact ihr hreadR2 hQB hr'
      obtain ⟨hsons, hlen, hshareL, hshareR⟩ := sons_update ha hreadL hreadR hul hsl hur hsr
      have hbut : ExtendsBut store.length store3
          (store3.set store.length (.inteNode l' r' (A.length + B.length))) := .set _ _ _
      obtain ⟨store', x', hcollapse, hplaced⟩ := collapse_placed (hsons.but hbut)
        (List.getElem?_set_self hlen) (fun c hc => Or.inr hc) hlw hrw ht'
      have hstore' : Extends store store' :=
        (hsons.extends le_rfl).trans_but (hbut.trans hplaced.extend) le_rfl
      refine ⟨store', x', ?_, ⟨hstore', hplaced.reads, hplaced.uses⟩, ?_⟩
      · rw [updateCopy_some _ ha, deleteNode_inte List.getElem?_concat_length hQA hQB, hrunL]
        simp only [Option.bind_eq_bind, Option.bind_some, hrunR]
        exact hcollapse
      · exact .of_sons ha hQA hQB ((hsons.extends le_rfl).trans_but hbut le_rfl)
          (hsons.sharesL hbut hshareL) (hsons.sharesR hbut hshareR) hplaced.keeps

end Store

end Silva
