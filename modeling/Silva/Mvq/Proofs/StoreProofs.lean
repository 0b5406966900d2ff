import Silva.Mvq.Store
import Silva.Mvq.Versioning
import Silva.Mvq.Proofs.HistoryProofs

/-!
# Proofs: path copying on the store

Every update on the store reads back as the update on trees, only adds nodes, and builds its result
from nodes of the old tree and fresh nodes.
-/

namespace Silva

open RefCount (Ptr Mem Reach Extends ExtendsBut)
open Node (sons)

namespace Store

variable {store store' : Store} {x x' : Ptr} {t t' : BaseNode} {a c : Nat}

/-! ## Reading trees -/

theorem Reads.null_iff (h : Reads store x t) : x = none ↔ t = .nullptr := by
  cases h <;> simp

theorem Reads.exists_leaf {P : List Point} (h : Reads store x (.leafNode P)) :
    ∃ a, x = some a ∧ store[a]? = some (.leafNode P) := by
  cases h with
  | leaf ha => exact ⟨_, rfl, ha⟩

theorem Reads.det (h : Reads store x t) (h' : Reads store x t') : t = t' := by
  induction h generalizing t' with
  | null => cases h'; rfl
  | leaf ha =>
    cases h' with
    | leaf ha' => rw [ha] at ha'; cases ha'; rfl
    | inte ha' => rw [ha] at ha'; cases ha'
  | inte ha _ _ ihl ihr =>
    cases h' with
    | leaf ha' => rw [ha] at ha'; cases ha'
    | inte ha' hl' hr' =>
      rw [ha] at ha'
      cases ha'
      rw [ihl hl', ihr hr']

/-- The tree depends only on the nodes that are reached. -/
theorem Reads.frame (h : Reads store x t)
    (hframe : ∀ c n, Reach sons store x c → store[c]? = some n → store'[c]? = some n) :
    Reads store' x t := by
  induction h with
  | null => exact .null
  | leaf ha => exact .leaf (hframe _ _ (.here _) ha)
  | inte ha _ _ ihl ihr =>
    refine .inte (hframe _ _ (.here _) ha) (ihl fun c n hc hn => ?_) (ihr fun c n hc hn => ?_)
    · exact hframe c n (.child ha (by simp [sons]) hc) hn
    · exact hframe c n (.child ha (by simp [sons]) hc) hn

theorem Reads.mono (h : Reads store x t) (hext : Extends store store') : Reads store' x t :=
  h.frame fun c n _ hn => hext c n hn

/-- Overwriting a node that the tree does not use. -/
theorem Reads.but (h : Reads store x t) (hext : ExtendsBut a store store')
    (hne : ∀ c, Reach sons store x c → c ≠ a) : Reads store' x t :=
  h.frame fun c n hc hn => hext c n (hne c hc) hn

theorem Reads.exists_node (h : Reads store x t) (hc : Reach sons store x c) :
    ∃ n, store[c]? = some n := by
  induction h with
  | null => cases hc
  | leaf ha =>
    cases hc with
    | here => exact ⟨_, ha⟩
    | child hn hy hc => rw [ha] at hn; cases hn; simp [sons] at hy
  | inte ha _ _ ihl ihr =>
    cases hc with
    | here => exact ⟨_, ha⟩
    | child hn hy hc =>
      rw [ha] at hn
      cases hn
      simp only [sons, List.mem_cons, List.not_mem_nil, or_false] at hy
      rcases hy with rfl | rfl
      · exact ihl hc
      · exact ihr hc

theorem Reads.lt_length (h : Reads store x t) (hc : Reach sons store x c) : c < store.length := by
  obtain ⟨n, hn⟩ := h.exists_node hc
  exact (List.getElem?_eq_some_iff.mp hn).1

/-- A tree reaches the same nodes in every store that keeps them. -/
theorem Reads.reach_iff (h : Reads store x t)
    (hframe : ∀ c n, Reach sons store x c → store[c]? = some n → store'[c]? = some n) :
    Reach sons store' x c ↔ Reach sons store x c := by
  refine Reach.agree_iff fun d hd => ?_
  obtain ⟨n, hn⟩ := h.exists_node hd
  rw [hframe d n hd hn, hn]

theorem Reads.getNumPoints (h : Reads store x t) : store.getNumPoints x = some t.getNumPoints := by
  cases h with
  | null => rfl
  | leaf ha => rw [Store.getNumPoints, ha]; rfl
  | inte ha => rw [Store.getNumPoints, ha]; rfl

theorem Reads.asLeaf {P : List Point} (h : Reads store x t) (ht : t.asLeaf = some P) :
    store.asLeaf x = some P := by
  cases h with
  | null => cases ht
  | leaf ha => rw [Store.asLeaf, ha]; exact ht
  | inte ha => cases ht

/-! ## Positions -/

theorem son_leaf {P : List Point} (ha : store[a]? = some (.leafNode P)) (side : Bool) :
    Store.son store (some a) side = none := by
  unfold Store.son
  rw [Option.bind_some, ha]

theorem son_inte {l r : Ptr} {n : Nat} (ha : store[a]? = some (.inteNode l r n)) (side : Bool) :
    Store.son store (some a) side = if side then r else l := by
  unfold Store.son
  rw [Option.bind_some, ha]

/-- Following a path in the store and in the tree. -/
theorem Reads.son (h : Reads store x t) (side : Bool) :
    Reads store (Store.son store x side) (t.child side) := by
  cases h with
  | null => cases side <;> exact .null
  | leaf ha =>
    rw [son_leaf ha]
    cases side <;> exact .null
  | inte ha hl hr =>
    rw [son_inte ha]
    cases side
    · exact hl
    · exact hr

theorem Reads.ptrAt (h : Reads store x t) (path : List Bool) :
    Reads store (Store.ptrAt store x path) (t.subtree path) := by
  induction path generalizing x t with
  | nil => exact h
  | cons side path ih => exact ih (h.son side)

theorem Reads.reach_son (h : Reads store x t) {side : Bool}
    (hc : Reach sons store (Store.son store x side) c) : Reach sons store x c := by
  cases h with
  | null => exact absurd hc Reach.not_null
  | leaf ha =>
    rw [son_leaf ha] at hc
    exact absurd hc Reach.not_null
  | inte ha hl hr =>
    rw [son_inte ha] at hc
    refine .child ha ?_ hc
    cases side <;> simp [sons]

/-- Positions in a tree are the same in every store that keeps its nodes. -/
theorem Reads.ptrAt_frame (h : Reads store x t)
    (hframe : ∀ c n, Reach sons store x c → store[c]? = some n → store'[c]? = some n)
    (path : List Bool) : Store.ptrAt store' x path = Store.ptrAt store x path := by
  induction path generalizing x t with
  | nil => rfl
  | cons side path ih =>
    have hson : Store.son store' x side = Store.son store x side := by
      cases h with
      | null => rfl
      | leaf ha => rw [son_leaf ha, son_leaf (hframe _ _ (.here _) ha)]
      | inte ha => rw [son_inte ha, son_inte (hframe _ _ (.here _) ha)]
    show Store.ptrAt store' (Store.son store' x side) path = _
    rw [hson]
    exact ih (h.son side) fun c n hc hn => hframe c n (h.reach_son hc) hn

/-- Which pointer comparisons succeed on a walk down two trees in one store. -/
def ptrEq (h : Reads store x t) (h' : Reads store x' t') : PtrEq t t' where
  same path := ptrAt store x path = ptrAt store x' path
  sound path hsame := by
    have h1 := h.ptrAt path
    rw [of_decide_eq_true hsame] at h1
    exact h1.det (h'.ptrAt path)

/-! ## What an update does to the store -/

/-- An update of `x` to `x'`: no node of the old store changes, `x'` reads as `t'`, and it uses nodes of
`x` and fresh ones. -/
structure Updated (store : Store) (x : Ptr) (store' : Store) (x' : Ptr) (t' : BaseNode) : Prop where
  extend : Extends store store'
  reads : Reads store' x' t'
  fresh : ∀ c, Reach sons store' x' c → Reach sons store x c ∨ store.length ≤ c

theorem Updated.refl (h : Reads store x t) : Updated store x store x t :=
  ⟨.refl store, h, fun _ hc => Or.inl hc⟩

/-- A fresh leaf. -/
theorem Updated.leaf (store : Store) (x : Ptr) (P : List Point) :
    Updated store x (store ++ [.leafNode P]) (some store.length) (.leafNode P) := by
  have hnew : (store ++ [Node.leafNode P])[store.length]? = some (.leafNode P) :=
    List.getElem?_concat_length
  refine ⟨.append _ _, .leaf hnew, fun c hc => ?_⟩
  cases hc with
  | here => exact Or.inr le_rfl
  | child hn hy hc => rw [hnew] at hn; cases hn; simp [sons] at hy

/-- The sons of the node at `a` are updated to `l` and `r`, which use only nodes that satisfy `F`, and
not the node itself. -/
structure SonsUpdated (F : Nat → Prop) (store : Store) (a : Nat) (store' : Store) (l r : Ptr)
    (tl tr : BaseNode) : Prop where
  extend : ExtendsBut a store store'
  readsL : Reads store' l tl
  readsR : Reads store' r tr
  usesL : ∀ c, Reach sons store' l c → c ≠ a ∧ F c
  usesR : ∀ c, Reach sons store' r c → c ≠ a ∧ F c

section SonsUpdated

variable {F : Nat → Prop} {store'' : Store} {l r : Ptr} {tl tr : BaseNode}

theorem SonsUpdated.frameL (h : SonsUpdated F store a store' l r tl tr)
    (hext : ExtendsBut a store' store'') :
    ∀ c n, Reach sons store' l c → store'[c]? = some n → store''[c]? = some n :=
  fun c n hc hn => hext c n (h.usesL c hc).1 hn

theorem SonsUpdated.frameR (h : SonsUpdated F store a store' l r tl tr)
    (hext : ExtendsBut a store' store'') :
    ∀ c n, Reach sons store' r c → store'[c]? = some n → store''[c]? = some n :=
  fun c n hc hn => hext c n (h.usesR c hc).1 hn

/-- Overwriting the node itself does not change its sons. -/
theorem SonsUpdated.but (h : SonsUpdated F store a store' l r tl tr)
    (hext : ExtendsBut a store' store'') : SonsUpdated F store a store'' l r tl tr := by
  refine ⟨h.extend.trans hext, h.readsL.frame (h.frameL hext), h.readsR.frame (h.frameR hext), ?_, ?_⟩
  · intro c hc
    exact h.usesL c ((h.readsL.reach_iff (h.frameL hext)).mp hc)
  · intro c hc
    exact h.usesR c ((h.readsR.reach_iff (h.frameR hext)).mp hc)

/-- Setting the fields of the node. -/
theorem SonsUpdated.mergeNodes (h : SonsUpdated F store a store' l r tl tr)
    (ha : a < store'.length) :
    ∃ store'', mergeNodes store' l r a = some store'' ∧ SonsUpdated F store a store'' l r tl tr ∧
      ExtendsBut a store' store'' ∧
      store''[a]? = some (.inteNode l r (tl.getNumPoints + tr.getNumPoints)) := by
  refine ⟨_, ?_, h.but (.set store' a _), .set store' a _, List.getElem?_set_self ha⟩
  unfold Store.mergeNodes
  rw [h.readsL.getNumPoints, h.readsR.getNumPoints]
  rfl

theorem SonsUpdated.extends (h : SonsUpdated F store a store' l r tl tr)
    (ha : store.length ≤ a) : Extends store store' :=
  (Extends.refl store).trans_but h.extend ha

/-- What the node reaches. -/
theorem SonsUpdated.reach (h : SonsUpdated F store a store' l r tl tr) {n : Nat}
    (ha : store'[a]? = some (.inteNode l r n)) (hc : Reach sons store' (some a) c) :
    c = a ∨ F c := by
  cases hc with
  | here => exact Or.inl rfl
  | child hn hy hc =>
    rw [ha] at hn
    cases hn
    simp only [sons, List.mem_cons, List.not_mem_nil, or_false] at hy
    rcases hy with rfl | rfl
    · exact Or.inr (h.usesL c hc).2
    · exact Or.inr (h.usesR c hc).2

end SonsUpdated

/-! ## Building -/

theorem createInternal_updated {l r : Ptr} {tl tr : BaseNode} (hl : Reads store l tl)
    (hr : Reads store r tr) :
    ∃ store', createInternal store l r = some (store', some store.length) ∧ Extends store store' ∧
      Reads store' (some store.length) (Tree.createInternal tl tr) ∧
      ∀ c, Reach sons store' (some store.length) c →
        c = store.length ∨ Reach sons store l c ∨ Reach sons store r c := by
  have hext : Extends store (store ++ [Node.inteNode none none 0]) := .append _ _
  have hsons : SonsUpdated (fun c => Reach sons store l c ∨ Reach sons store r c) store store.length
      (store ++ [Node.inteNode none none 0]) l r tl tr := by
    refine ⟨hext.extendsBut, hl.mono hext, hr.mono hext, fun c hc => ?_, fun c hc => ?_⟩
    · have hc := (hl.reach_iff fun c n _ => hext c n).mp hc
      exact ⟨(hl.lt_length hc).ne, Or.inl hc⟩
    · have hc := (hr.reach_iff fun c n _ => hext c n).mp hc
      exact ⟨(hr.lt_length hc).ne, Or.inr hc⟩
  obtain ⟨store', hmerge, hsons', -, ha⟩ := hsons.mergeNodes (by simp)
  refine ⟨store', ?_, hsons'.extends le_rfl, .inte ha hsons'.readsL hsons'.readsR,
    fun c hc => hsons'.reach ha hc⟩
  unfold Store.createInternal
  dsimp only
  rw [hmerge]
  rfl

theorem buildNode_updated (leafSize : Nat) : ∀ (b : Nat) (store : Store) (P : List Point),
    ∃ store' x', buildNode leafSize b store P = some (store', x') ∧
      Updated store none store' x' (Tree.buildNode leafSize P b) := by
  intro b
  induction b with
  | zero =>
    intro store P
    rw [buildNode_zero]
    exact ⟨_, _, rfl, .leaf store none P⟩
  | succ b ih =>
    intro store P
    by_cases hlen : P.length ≤ leafSize
    · rw [buildNode_small hlen, buildNode, if_pos hlen]
      exact ⟨_, _, rfl, .leaf store none P⟩
    · have hchild : ∀ (cond : Prop) [Decidable cond] (store : Store) (Q : List Point),
          ∃ store' x', (if cond then buildNode leafSize b store Q else some (store, none)) =
            some (store', x') ∧ Updated store none store' x'
              (if cond then Tree.buildNode leafSize Q b else .nullptr) := by
        intro cond _ store Q
        by_cases hcond : cond
        · rw [if_pos hcond, if_pos hcond]
          exact ih store Q
        · rw [if_neg hcond, if_neg hcond]
          exact ⟨store, none, rfl, .refl .null⟩
      obtain ⟨store1, l, hl, hul⟩ := hchild (0 < splitByBit P 0 P.length (b + 1)) store
        (P.take (splitByBit P 0 P.length (b + 1)))
      obtain ⟨store2, r, hr, hur⟩ := hchild (splitByBit P 0 P.length (b + 1) < P.length) store1
        (P.drop (splitByBit P 0 P.length (b + 1)))
      have hreadsL := hul.reads.mono hur.extend
      obtain ⟨store3, hcreate, hext, hreads, hfresh⟩ := createInternal_updated hreadsL hur.reads
      have hext2 := hul.extend.trans hur.extend
      refine ⟨store3, some store2.length, ?_, ?_⟩
      · rw [buildNode, if_neg hlen]
        simp only [hl, hr, Option.bind_eq_bind, Option.bind_some]
        exact hcreate
      · rw [Tree.buildNode, if_neg hlen]
        refine ⟨hext2.trans hext, hreads, fun c hc => Or.inr ?_⟩
        rcases hfresh c hc with rfl | hc | hc
        · exact hext2.length_le
        · have hc1 := (hul.reads.reach_iff fun c n _ => hur.extend c n).mp hc
          exact (hul.fresh c hc1).resolve_left Reach.not_null
        · exact hul.extend.length_le.trans ((hur.fresh c hc).resolve_left Reach.not_null)

end Store

end Silva
