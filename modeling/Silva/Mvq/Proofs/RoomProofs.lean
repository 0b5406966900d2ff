import Silva.Mvq.InPlace
import Silva.Mvq.Proofs.GcProofs

/-!
# Proofs: room in the interior nodes

The leaf casts of a persistent deletion rely on a count: a node that counts as many records as fit
into a leaf has to be a leaf. `Sound` says so of every node below a root, in a form that in-place
updates of shared nodes keep as well: it does not trust `num_pts` to be the sum of the sons, which
may be out of date.
-/

namespace Silva

open RefCount (Ptr Mem Reach ExtendsBut)
open Node (sons)
open Store (updateCopy destroyUnless_of_ne updateNumPts_eq)

variable {leafSize b k a c n : Nat} {strict : Bool} {l r x x' : Ptr} {P Q : List Point}

namespace Store

/-- `x == nullptr ? 0 : x->get_num_points()`, where the pointer has a node. -/
def numPts (store : Store) (x : Ptr) : Nat := (store.getNumPoints x).getD 0

@[simp] theorem numPts_none (store : Store) : store.numPts none = 0 := rfl

theorem getNumPoints_some {store : Store} {node : Node} (ha : store[a]? = some node) :
    store.getNumPoints (some a) = some node.getNumPoints := by
  rw [getNumPoints, ha]
  rfl

theorem numPts_some {store : Store} {node : Node} (ha : store[a]? = some node) :
    store.numPts (some a) = node.getNumPoints := by
  rw [numPts, getNumPoints_some ha]
  rfl

end Store

/-! ## Levels -/

/-- A store with a level for every address. -/
structure Leveled where
  store : Store
  level : List Nat
  length_eq : level.length = store.length

namespace Leveled

/-- A fresh node, for the given level. -/
def alloc (w : Leveled) (node : Node) (b : Nat) : Leveled where
  store := w.store ++ [node]
  level := w.level ++ [b]
  length_eq := by simp [w.length_eq]

/-- A node is overwritten and keeps its level. -/
def set (w : Leveled) (a : Nat) (node : Node) : Leveled where
  store := w.store.set a node
  level := w.level
  length_eq := by simp [w.length_eq]

@[simp] theorem alloc_store (w : Leveled) (node : Node) (b : Nat) :
    (w.alloc node b).store = w.store ++ [node] := rfl
@[simp] theorem set_store (w : Leveled) (a : Nat) (node : Node) :
    (w.set a node).store = w.store.set a node := rfl
@[simp] theorem set_level (w : Leveled) (a : Nat) (node : Node) : (w.set a node).level = w.level := rfl

theorem alloc_get (w : Leveled) (node : Node) (b : Nat) :
    (w.alloc node b).store[w.store.length]? = some node := List.getElem?_concat_length

theorem alloc_level (w : Leveled) (node : Node) (b : Nat) :
    (w.alloc node b).level[w.store.length]? = some b := by
  rw [← w.length_eq]
  exact List.getElem?_concat_length

/-- Nodes are only added. -/
structure Extends (w w' : Leveled) : Prop where
  store : RefCount.Extends w.store w'.store
  level : RefCount.Extends w.level w'.level

theorem Extends.refl (w : Leveled) : w.Extends w := ⟨.refl _, .refl _⟩

theorem Extends.trans {w w' w'' : Leveled} (h : w.Extends w') (h' : w'.Extends w'') :
    w.Extends w'' := ⟨h.store.trans h'.store, h.level.trans h'.level⟩

theorem Extends.alloc (w : Leveled) (node : Node) (b : Nat) : w.Extends (w.alloc node b) :=
  ⟨.append _ _, .append _ _⟩

/-- Overwriting a node that was not there before. -/
theorem Extends.but {w w' w'' : Leveled} (h : w.Extends w') (hbut : ExtendsBut a w'.store w''.store)
    (hlevel : RefCount.Extends w'.level w''.level) (ha : w.store.length ≤ a) : w.Extends w'' :=
  ⟨h.store.trans_but hbut ha, h.level.trans hlevel⟩

end Leveled

variable {w w' : Leveled}

/-! ## Sound pointers -/

/-- What a pointer that is used at level `b` leads to. Interior nodes are at the level of their address,
and the strict ones count more records than fit into a leaf, now and when they are next updated. Only
the top node of a root may be without room. -/
inductive Sound (leafSize : Nat) (w : Leveled) : (strict : Bool) → (b : Nat) → Ptr → Prop where
  | null {strict : Bool} {b : Nat} : Sound leafSize w strict b none
  | leaf {strict : Bool} {b a : Nat} {P : List Point} (ha : w.store[a]? = some (.leafNode P)) :
      Sound leafSize w strict b (some a)
  | inte {strict : Bool} {b a n : Nat} {l r : Ptr} (ha : w.store[a]? = some (.inteNode l r n))
      (hlevel : w.level[a]? = some (b + 1)) (hl : Sound leafSize w true b l)
      (hr : Sound leafSize w true b r)
      (hroom : strict = true →
        leafSize < n ∧ leafSize < w.store.numPts l + w.store.numPts r) :
      Sound leafSize w strict (b + 1) (some a)

namespace Sound

theorem weaken (h : Sound leafSize w true b x) : Sound leafSize w strict b x := by
  cases h with
  | null => exact .null
  | leaf ha => exact .leaf ha
  | inte ha hlevel hl hr hroom => exact .inte ha hlevel hl hr fun _ => hroom rfl

theorem exists_node (h : Sound leafSize w strict b (some a)) : ∃ node, w.store[a]? = some node := by
  cases h with
  | leaf ha => exact ⟨_, ha⟩
  | inte ha => exact ⟨_, ha⟩

theorem getNumPoints (h : Sound leafSize w strict b x) :
    w.store.getNumPoints x = some (w.store.numPts x) := by
  cases x with
  | none => rfl
  | some a =>
    obtain ⟨node, ha⟩ := h.exists_node
    rw [Store.numPts, Store.getNumPoints_some ha]
    rfl

theorem mergeNodes (hl : Sound leafSize w strict b l) (hr : Sound leafSize w strict b r) (a : Nat) :
    w.store.mergeNodes l r a =
      some (w.store.set a (.inteNode l r (w.store.numPts l + w.store.numPts r))) := by
  unfold Store.mergeNodes
  rw [hl.getNumPoints, hr.getNumPoints]
  rfl

/-- An interior node that is sound in the strict sense does not fit into a leaf. -/
theorem lt_numPts (h : Sound leafSize w true b (some a)) (ha : w.store[a]? = some (.inteNode l r n)) :
    leafSize < w.store.numPts (some a) := by
  rw [Store.numPts_some ha]
  cases h with
  | leaf hleaf => rw [ha] at hleaf; cases hleaf
  | inte hinte _ _ _ hroom => rw [ha] at hinte; cases hinte; exact (hroom rfl).1

/-- What fits into a leaf is one. -/
theorem asLeaf (h : Sound leafSize w true b (some a)) (hsmall : w.store.numPts (some a) ≤ leafSize) :
    ∃ P, w.store[a]? = some (.leafNode P) ∧ w.store.asLeaf (some a) = some P := by
  obtain ⟨node, ha⟩ := h.exists_node
  cases node with
  | leafNode P => exact ⟨P, ha, by rw [Store.asLeaf, ha]; rfl⟩
  | inteNode l r n => exact absurd (h.lt_numPts ha) (not_lt.mpr hsmall)

theorem numPts_frame (h : Sound leafSize w strict b x)
    (hstore : ∀ a node, x = some a → w.store[a]? = some node → w'.store[a]? = some node) :
    w'.store.numPts x = w.store.numPts x := by
  cases x with
  | none => rfl
  | some a =>
    obtain ⟨node, ha⟩ := h.exists_node
    rw [Store.numPts_some ha, Store.numPts_some (hstore a node rfl ha)]

/-- Only the nodes that are reached matter. -/
theorem frame (h : Sound leafSize w strict b x)
    (hstore : ∀ c node, Reach sons w.store x c → w.store[c]? = some node → w'.store[c]? = some node)
    (hlevel : RefCount.Extends w.level w'.level) : Sound leafSize w' strict b x := by
  induction h with
  | null => exact .null
  | leaf ha => exact .leaf (hstore _ _ (.here _) ha)
  | @inte strict b a n l r ha hbelow hl hr hroom ihl ihr =>
    have hkid : ∀ y ∈ sons (.inteNode l r n), ∀ c node, Reach sons w.store y c →
        w.store[c]? = some node → w'.store[c]? = some node :=
      fun y hy c node hc hn => hstore c node (.child ha hy hc) hn
    have hnum : ∀ y ∈ sons (.inteNode l r n), Sound leafSize w true b y →
        w'.store.numPts y = w.store.numPts y := by
      intro y hy hsound
      refine hsound.numPts_frame fun d node hd hn => ?_
      exact hkid y hy d node (by rw [hd]; exact .here d) hn
    refine .inte (hstore _ _ (.here _) ha) (hlevel _ _ hbelow) (ihl (hkid l (by simp [sons])))
      (ihr (hkid r (by simp [sons]))) ?_
    rw [hnum l (by simp [sons]) hl, hnum r (by simp [sons]) hr]
    exact hroom

theorem mono (h : Sound leafSize w strict b x) (hext : w.Extends w') : Sound leafSize w' strict b x :=
  h.frame (fun c node _ hn => hext.store c node hn) hext.level

theorem numPts_mono (h : Sound leafSize w strict b x) (hext : w.Extends w') :
    w'.store.numPts x = w.store.numPts x :=
  h.numPts_frame fun a node _ ha => hext.store a node ha

/-- The interior nodes that are reached lie at the levels below. -/
theorem level_le (h : Sound leafSize w strict b x) (hc : Reach sons w.store x c)
    (hinte : w.store[c]? = some (.inteNode l r n)) : ∃ k, w.level[c]? = some k ∧ k ≤ b := by
  induction h with
  | null => cases hc
  | leaf ha =>
    cases hc with
    | here => rw [ha] at hinte; cases hinte
    | child hn hy hc => rw [ha] at hn; cases hn; simp [sons] at hy
  | @inte strict b a n l r ha hlevel hl hr hroom ihl ihr =>
    cases hc with
    | here => exact ⟨b + 1, hlevel, le_rfl⟩
    | child hn hy hc =>
      rw [ha] at hn
      cases hn
      simp only [sons, List.mem_cons, List.not_mem_nil, or_false] at hy
      obtain ⟨k, hk, hle⟩ : ∃ k, w.level[c]? = some k ∧ k ≤ b := by
        rcases hy with rfl | rfl
        · exact ihl hc
        · exact ihr hc
      exact ⟨k, hk, hle.trans (Nat.le_succ b)⟩

/-- An interior node of a higher level is not reached. -/
theorem ne_of_level (h : Sound leafSize w strict b x) (ha : w.store[a]? = some (.inteNode l r n))
    (hlevel : w.level[a]? = some k) (hk : b < k) (hc : Reach sons w.store x c) : c ≠ a := by
  rintro rfl
  obtain ⟨k', hk', hle⟩ := h.level_le hc ha
  rw [hlevel, Option.some_inj] at hk'
  omega

/-- Overwriting an interior node of a higher level. -/
theorem but (h : Sound leafSize w strict b x) (ha : w.store[a]? = some (.inteNode l r n))
    (hlevel : w.level[a]? = some k) (hk : b < k) (hbut : ExtendsBut a w.store w'.store)
    (hlevel' : RefCount.Extends w.level w'.level) : Sound leafSize w' strict b x :=
  h.frame (fun c node hc hn => hbut c node (h.ne_of_level ha hlevel hk hc) hn) hlevel'

theorem numPts_but (h : Sound leafSize w strict b x) (ha : w.store[a]? = some (.inteNode l r n))
    (hlevel : w.level[a]? = some k) (hk : b < k) (hbut : ExtendsBut a w.store w'.store) :
    w'.store.numPts x = w.store.numPts x := by
  refine h.numPts_frame fun d node hd hn => hbut d node ?_ hn
  exact h.ne_of_level ha hlevel hk (by rw [hd]; exact .here d)

/-- The pointers of a sound node are sound in the strict sense. -/
theorem kid {node : Node} (h : Sound leafSize w strict b (some a)) (ha : w.store[a]? = some node)
    (hx : x ∈ sons node) : ∃ b, Sound leafSize w true b x := by
  cases h with
  | leaf hleaf =>
    rw [ha] at hleaf
    cases hleaf
    simp [sons] at hx
  | inte hinte _ hl hr _ =>
    rw [ha] at hinte
    cases hinte
    simp only [sons, List.mem_cons, List.not_mem_nil, or_false] at hx
    rcases hx with rfl | rfl
    · exact ⟨_, hl⟩
    · exact ⟨_, hr⟩

theorem reach (h : Sound leafSize w true b x) (hc : Reach sons w.store x c) :
    ∃ b, Sound leafSize w true b (some c) := by
  induction hc generalizing b with
  | here a => exact ⟨b, h⟩
  | child hn hy _ ih =>
    obtain ⟨b, hson⟩ := h.kid hn hy
    exact ih hson

/-- The tree behind a sound pointer has no more levels than its level allows. -/
theorem reads (h : Sound leafSize w strict b x) :
    ∃ t, Store.Reads w.store x t ∧ Tree.height t ≤ b + 1 := by
  induction h with
  | null => exact ⟨.nullptr, .null, Nat.zero_le _⟩
  | leaf ha => exact ⟨_, .leaf ha, Nat.le_add_left 1 _⟩
  | inte ha hlevel hl hr hroom ihl ihr =>
    obtain ⟨tl, hreadL, hheightL⟩ := ihl
    obtain ⟨tr, hreadR, hheightR⟩ := ihr
    exact ⟨_, .inte ha hreadL hreadR, Nat.succ_le_succ (max_le hheightL hheightR)⟩

/-- An interior node gets new sons. -/
theorem place {l0 r0 : Ptr} {n0 : Nat} (ha : w.store[a]? = some (.inteNode l0 r0 n0))
    (hlevel : w.level[a]? = some (b + 1)) (hl : Sound leafSize w true b l)
    (hr : Sound leafSize w true b r)
    (hroom : strict = true → leafSize < n ∧ leafSize < w.store.numPts l + w.store.numPts r) :
    Sound leafSize (w.set a (.inteNode l r n)) strict (b + 1) (some a) := by
  have hbut : ExtendsBut a w.store (w.set a (.inteNode l r n)).store := .set _ _ _
  have hlt : b < b + 1 := Nat.lt_succ_self b
  refine .inte (List.getElem?_set_self (List.getElem?_eq_some_iff.mp ha).1) hlevel
    (hl.but ha hlevel hlt hbut (.refl _)) (hr.but ha hlevel hlt hbut (.refl _)) ?_
  rw [hl.numPts_but ha hlevel hlt hbut, hr.numPts_but ha hlevel hlt hbut]
  exact hroom

end Sound

/-! ## Building -/

theorem createInternal_eq (hl : Sound leafSize w true b l) (hr : Sound leafSize w true b r) :
    w.store.createInternal l r = some (w.store ++
      [.inteNode l r (w.store.numPts l + w.store.numPts r)], some w.store.length) := by
  have hext := Leveled.Extends.alloc w (.inteNode none none 0) (b + 1)
  have hmerge := (hl.mono hext).mergeNodes (hr.mono hext) w.store.length
  rw [hl.numPts_mono hext, hr.numPts_mono hext, Leveled.alloc_store,
    List.set_append_right _ _ le_rfl, Nat.sub_self] at hmerge
  unfold Store.createInternal
  dsimp only
  rw [hmerge]
  rfl

/-- What a pointer to a fresh subtree with the given number of records looks like. -/
structure Built (leafSize : Nat) (w w' : Leveled) (b : Nat) (x' : Ptr) (count : Nat) : Prop where
  extend : w.Extends w'
  sound : Sound leafSize w' true b x'
  numPts : w'.store.numPts x' = count

theorem Built.leaf (leafSize : Nat) (w : Leveled) (b : Nat) (P : List Point) :
    Built leafSize w (w.alloc (.leafNode P) b) b (some w.store.length) P.length :=
  ⟨.alloc _ _ _, .leaf (w.alloc_get _ _), Store.numPts_some (w.alloc_get _ _)⟩

theorem buildNode_built (leafSize : Nat) : ∀ (b : Nat) (w : Leveled) (P : List Point),
    ∃ w' x', Store.buildNode leafSize b w.store P = some (w'.store, x') ∧
      Built leafSize w w' b x' P.length := by
  intro b
  induction b with
  | zero => exact fun w P => ⟨_, _, rfl, .leaf leafSize w 0 P⟩
  | succ b ih =>
    intro w P
    by_cases hlen : P.length ≤ leafSize
    · rw [Store.buildNode, if_pos hlen]
      exact ⟨_, _, rfl, .leaf leafSize w (b + 1) P⟩
    · have hchild : ∀ (cond : Prop) [Decidable cond] (w : Leveled) (Q : List Point),
          (¬cond → Q = []) → ∃ w' x', (if cond then Store.buildNode leafSize b w.store Q
            else some (w.store, none)) = some (w'.store, x') ∧
            Built leafSize w w' b x' Q.length := by
        intro cond _ w Q hQ
        by_cases hcond : cond
        · rw [if_pos hcond]
          exact ih w Q
        · rw [if_neg hcond, hQ hcond]
          exact ⟨w, none, rfl, .refl w, .null, rfl⟩
      rw [Store.buildNode, if_neg hlen]
      generalize splitByBit P 0 P.length (b + 1) = splitter
      obtain ⟨w1, l, hl, hbl⟩ := hchild (0 < splitter) w (P.take splitter) fun h => by
        rw [Nat.eq_zero_of_not_pos h, List.take_zero]
      obtain ⟨w2, r, hr, hbr⟩ := hchild (splitter < P.length) w1 (P.drop splitter) fun h =>
        List.drop_eq_nil_of_le (not_lt.mp h)
      have hsl := hbl.sound.mono hbr.extend
      have hcount : w2.store.numPts l + w2.store.numPts r = P.length := by
        rw [hbl.sound.numPts_mono hbr.extend, hbl.numPts, hbr.numPts, ← List.length_append,
          List.take_append_drop]
      have hcreate := createInternal_eq hsl hbr.sound
      rw [hcount] at hcreate
      have hext := Leveled.Extends.alloc w2 (.inteNode l r P.length) (b + 1)
      refine ⟨w2.alloc (.inteNode l r P.length) (b + 1), some w2.store.length, ?_,
        (hbl.extend.trans hbr.extend).trans hext, ?_, Store.numPts_some (w2.alloc_get _ _)⟩
      · simp only [hl, hr, Option.bind_eq_bind, Option.bind_some]
        exact hcreate
      · refine .inte (w2.alloc_get _ _) (w2.alloc_level _ _) (hsl.mono hext) (hbr.sound.mono hext)
          fun _ => ?_
        rw [hsl.numPts_mono hext, hbr.sound.numPts_mono hext, hcount]
        exact ⟨not_le.mp hlen, not_le.mp hlen⟩

/-! ## Persistent insertion -/

/-- A count that has grown, or is out of the reach of a leaf. -/
def Grown (leafSize n n' : Nat) : Prop := n ≤ n' ∨ leafSize < n'

theorem Grown.refl (leafSize n : Nat) : Grown leafSize n n := Or.inl le_rfl

theorem Grown.trans {n n' n'' : Nat} (h : Grown leafSize n n') (h' : Grown leafSize n' n'') :
    Grown leafSize n n'' := by
  unfold Grown at *
  omega

theorem Grown.lt_add {i j i' j' : Nat} (hi : Grown leafSize i i') (hj : Grown leafSize j j')
    (h : leafSize < i + j) : leafSize < i' + j' := by
  unfold Grown at *
  omega

/-- The equation of `multi_version_batch_insert_sorted_node` at an interior node. -/
theorem Store.insertNode_step {store : Store} (ha : store[a]? = some (.inteNode l r n)) :
    Store.multiVersionBatchInsertSortedNode leafSize (b + 1) store (some a) P = (do
      let splitter := splitByBit P 0 P.length (b + 1)
      let (store, newLSon) ← (if 0 < splitter then
        updateCopy (multiVersionBatchInsertSortedNode leafSize b · · (P.take splitter)) store l
        else some (store, l))
      let (store, newRSon) ← (if splitter < P.length then
        updateCopy (multiVersionBatchInsertSortedNode leafSize b · · (P.drop splitter)) store r
        else some (store, r))
      let store ← mergeNodes store newLSon newRSon a
      return (store, some a)) := by
  rw [multiVersionBatchInsertSortedNode, ha]
  rfl

/-- What a persistent insertion makes of a pointer. -/
structure Inserted (leafSize : Nat) (w : Leveled) (strict : Bool) (b : Nat) (x : Ptr) (w' : Leveled)
    (x' : Ptr) : Prop where
  extend : w.Extends w'
  sound : Sound leafSize w' strict b x'
  grown : strict = true → Grown leafSize (w.store.numPts x) (w'.store.numPts x')

theorem Inserted.refl (h : Sound leafSize w strict b x) : Inserted leafSize w strict b x w x :=
  ⟨.refl w, h, fun _ => .refl _ _⟩

/-- A son is updated only when its part of the batch is not empty. -/
theorem son_step {R : Leveled → Ptr → Prop} {f : Store → Ptr → Option (Store × Ptr)} (cond : Prop)
    [Decidable cond] (hrefl : R w x)
    (hf : ∃ w' x', updateCopy f w.store x = some (w'.store, x') ∧ R w' x') :
    ∃ w' x', (if cond then updateCopy f w.store x else some (w.store, x)) = some (w'.store, x') ∧
      R w' x' := by
  by_cases hcond : cond
  · rw [if_pos hcond]
    exact hf
  · rw [if_neg hcond]
    exact ⟨w, x, rfl, hrefl⟩

theorem insertNode_inserted (h : Sound leafSize w strict b x) :
    ∀ {w1 : Leveled} (_ : w.Extends w1) (P : List Point), ∃ w' x',
      updateCopy (Store.multiVersionBatchInsertSortedNode leafSize b · · P) w1.store x =
        some (w'.store, x') ∧ Inserted leafSize w1 strict b x w' x' := by
  induction h with
  | @null strict b =>
    intro w1 _ P
    obtain ⟨w', x', hrun, hbuilt⟩ := buildNode_built leafSize b w1 P
    refine ⟨w', x', ?_, hbuilt.extend, hbuilt.sound.weaken, fun _ => Or.inl (Nat.zero_le _)⟩
    show Store.multiVersionBatchInsertSortedNode leafSize b w1.store none P = _
    rw [Store.multiVersionBatchInsertSortedNode, hrun]
  | @leaf strict b a records ha =>
    intro w1 hext P
    have ha1 := hext.store _ _ ha
    have hcopy : (w1.store ++ [Node.leafNode records])[w1.store.length]? =
        some (.leafNode records) := List.getElem?_concat_length
    have hcount := Store.numPts_some ha1
    rw [Store.updateCopy_some _ ha1, Store.multiVersionBatchInsertSortedNode, hcopy]
    simp only [Option.bind_eq_bind, Option.bind_some]
    by_cases hfit : b = 0 ∨ records.length + P.length ≤ leafSize
    · rw [if_pos hfit, List.set_append_right _ _ le_rfl, Nat.sub_self]
      have hbuilt := Built.leaf leafSize w1 b (parlayMerge mortonCmp records P)
      refine ⟨_, _, rfl, hbuilt.extend, hbuilt.sound.weaken, fun _ => Or.inl ?_⟩
      rw [hcount, hbuilt.numPts, length_parlayMerge]
      exact Nat.le_add_right _ _
    · rw [if_neg hfit]
      obtain ⟨w', x', hrun, hbuilt⟩ := buildNode_built leafSize b (w1.alloc (.leafNode records) b)
        (parlayMerge mortonCmp records P)
      refine ⟨w', x', hrun, (Leveled.Extends.alloc _ _ _).trans hbuilt.extend,
        hbuilt.sound.weaken, fun _ => Or.inl ?_⟩
      rw [hcount, hbuilt.numPts, length_parlayMerge]
      exact Nat.le_add_right _ _
  | @inte strict b a n l r ha hlevel hl hr hroom ihl ihr =>
    intro w1 hext P
    have ha1 := hext.store _ _ ha
    have hext1 := hext.trans (Leveled.Extends.alloc w1 (.inteNode l r n) (b + 1))
    rw [Store.updateCopy_some _ ha1, Store.insertNode_step List.getElem?_concat_length]
    generalize splitByBit P 0 P.length (b + 1) = splitter
    obtain ⟨w2, l', hrunL, hinsL⟩ := son_step (0 < splitter) (.refl (hl.mono hext1))
      (ihl hext1 (P.take splitter))
    have hext2 := hext1.trans hinsL.extend
    obtain ⟨w3, r', hrunR, hinsR⟩ := son_step (splitter < P.length) (.refl (hr.mono hext2))
      (ihr hext2 (P.drop splitter))
    have hsl := hinsL.sound.mono hinsR.extend
    -- the copy, with the old sons, is overwritten
    have hext := hinsL.extend.trans hinsR.extend
    have hcell := hext.store _ _ (w1.alloc_get (.inteNode l r n) (b + 1))
    have hcellLevel := hext.level _ _ (w1.alloc_level (.inteNode l r n) (b + 1))
    have hgrownL : Grown leafSize (w.store.numPts l) (w3.store.numPts l') := by
      rw [← hl.numPts_mono hext1, hinsL.sound.numPts_mono hinsR.extend]
      exact hinsL.grown rfl
    have hgrownR : Grown leafSize (w.store.numPts r) (w3.store.numPts r') := by
      rw [← hr.numPts_mono hext2]
      exact hinsR.grown rfl
    have hroom' : strict = true → leafSize < w3.store.numPts l' + w3.store.numPts r' :=
      fun hs => hgrownL.lt_add hgrownR (hroom hs).2
    have hbut : ExtendsBut w1.store.length w3.store (w3.set w1.store.length
        (.inteNode l' r' (w3.store.numPts l' + w3.store.numPts r'))).store := .set _ _ _
    refine ⟨w3.set w1.store.length (.inteNode l' r' (w3.store.numPts l' + w3.store.numPts r')),
      some w1.store.length, ?_, ?_, ?_, fun hs => Or.inr ?_⟩
    · rw [Leveled.alloc_store] at hrunL
      simp only [hrunL, hrunR, Option.bind_eq_bind, Option.bind_some,
        hsl.mergeNodes hinsR.sound]
      rfl
    · exact ((Leveled.Extends.alloc _ _ _).trans hext).but hbut (.refl _) le_rfl
    · exact .place hcell hcellLevel hsl hinsR.sound fun hs => ⟨hroom' hs, hroom' hs⟩
    · rw [Leveled.set_store, Store.numPts_some (List.getElem?_set_self
        (List.getElem?_eq_some_iff.mp hcell).1)]
      exact hroom' hs

/-! ## Persistent deletion -/

/-- What the end of a persistent deletion makes of the interior node at `a`. -/
structure Collapsed (leafSize : Nat) (w : Leveled) (a b : Nat) (w' : Leveled) (x' : Ptr) : Prop where
  store : ExtendsBut a w.store w'.store
  level : RefCount.Extends w.level w'.level
  sound : Sound leafSize w' true b x'

section Collapse

variable (ha : w.store[a]? = some (.inteNode l r n)) (hlevel : w.level[a]? = some (b + 1))
  (hl : Sound leafSize w true b l) (hr : Sound leafSize w true b r)

include ha hlevel hl hr

omit hlevel in
/-- The choice falls on another node, which is a leaf. -/
theorem collapse_leaf (hne : ¬(l = none ∧ r = none)) (hext : w.Extends w')
    (hchoose : w.store.chooseNode leafSize a l r = some (w'.store, x'))
    (hx : ∀ c, x' = some c → ∃ P, w'.store[c]? = some (.leafNode P)) :
    ∃ w' x', w.store.collapse leafSize a l r = some (w'.store, x') ∧
      Collapsed leafSize w a (b + 1) w' x' := by
  have ha' := hext.store _ _ ha
  have hmerge := (hl.mono hext).mergeNodes (hr.mono hext) a
  have hxa : x' ≠ some a := by
    rintro rfl
    obtain ⟨P, hP⟩ := hx a rfl
    rw [ha'] at hP
    cases hP
  have hbut : ExtendsBut a w'.store
      ((w'.set a (.inteNode l r (w'.store.numPts l + w'.store.numPts r))).set a
        (.inteNode none none 0)).store := (ExtendsBut.set _ _ _).trans (.set _ _ _)
  refine ⟨(w'.set a (.inteNode l r (w'.store.numPts l + w'.store.numPts r))).set a
    (.inteNode none none 0), x', ?_, hext.store.extendsBut.trans hbut, hext.level, ?_⟩
  · unfold Store.collapse
    rw [if_neg hne, hchoose]
    simp only [Option.bind_eq_bind, Option.bind_some, updateNumPts_eq ha', hmerge,
      Store.destroyUnless, if_neg hxa]
    rfl
  · cases x' with
    | none => exact .null
    | some c =>
      obtain ⟨P, hP⟩ := hx c rfl
      exact .leaf (hbut c _ (fun hc => hxa (by rw [hc])) hP)

/-- The choice falls on the node itself, which has room. -/
theorem collapse_self {store : Store} (hne : ¬(l = none ∧ r = none))
    (hchoose : w.store.chooseNode leafSize a l r = some (store, some a))
    (hstore : store = w.store ∨ w.store.mergeNodes l r a = some store)
    (hroom : leafSize < w.store.numPts l + w.store.numPts r) :
    ∃ w' x', w.store.collapse leafSize a l r = some (w'.store, x') ∧
      Collapsed leafSize w a (b + 1) w' x' := by
  have hlt : b < b + 1 := Nat.lt_succ_self b
  have halt := (List.getElem?_eq_some_iff.mp ha).1
  have hmerge := hl.mergeNodes hr a
  have hupdate : store.updateNumPts a =
      some (w.store.set a (.inteNode l r (w.store.numPts l + w.store.numPts r))) := by
    rcases hstore with rfl | hstore
    · rw [updateNumPts_eq ha, hmerge]
    · rw [hmerge, Option.some_inj] at hstore
      subst hstore
      have hbut : ExtendsBut a w.store
        (w.set a (.inteNode l r (w.store.numPts l + w.store.numPts r))).store := .set _ _ _
      have hmerge' := (hl.but ha hlevel hlt hbut (.refl _)).mergeNodes
        (hr.but ha hlevel hlt hbut (.refl _)) a
      rw [hl.numPts_but ha hlevel hlt hbut, hr.numPts_but ha hlevel hlt hbut, Leveled.set_store,
        List.set_set] at hmerge'
      rw [updateNumPts_eq (List.getElem?_set_self halt), hmerge']
  refine ⟨w.set a (.inteNode l r (w.store.numPts l + w.store.numPts r)), some a, ?_,
    .set _ _ _, .refl _, .place ha hlevel hl hr fun _ => ⟨hroom, hroom⟩⟩
  unfold Store.collapse
  rw [if_neg hne, hchoose]
  simp only [Option.bind_eq_bind, Option.bind_some, hupdate, Store.destroyUnless, if_true]
  rfl

theorem collapse_both (hnl : l ≠ none) (hnr : r ≠ none) :
    ∃ w' x', w.store.collapse leafSize a l r = some (w'.store, x') ∧
      Collapsed leafSize w a (b + 1) w' x' := by
  have hne : ¬(l = none ∧ r = none) := fun h => hnl h.1
  obtain ⟨cl, rfl⟩ := Option.ne_none_iff_exists'.mp hnl
  obtain ⟨cr, rfl⟩ := Option.ne_none_iff_exists'.mp hnr
  by_cases hfit : w.store.numPts (some cl) + w.store.numPts (some cr) ≤ leafSize
  · obtain ⟨L, -, hL⟩ := hl.asLeaf (by omega)
    obtain ⟨R, -, hR⟩ := hr.asLeaf (by omega)
    -- the leaf is created twice, and the second one stays
    have hext : w.Extends ((w.alloc (.leafNode (parlayMerge mortonCmp L R)) b).alloc
        (.leafNode (parlayMerge mortonCmp L R)) b) :=
      (Leveled.Extends.alloc _ _ _).trans (.alloc _ _ _)
    refine @collapse_leaf _ _ _ _ _ _ (some (w.store.length + 1)) _ _ ha hl hr hne hext ?_
      fun c hc => ?_
    · unfold Store.chooseNode
      rw [hl.getNumPoints, hr.getNumPoints, hL, hR]
      simp [hfit, Store.createLeaf, Store.alloc]
    · cases hc
      exact ⟨parlayMerge mortonCmp L R, by simp⟩
  · refine collapse_self ha hlevel hl hr hne ?_ (Or.inr (hl.mergeNodes hr a)) (not_le.mp hfit)
    unfold Store.chooseNode
    rw [hl.getNumPoints, hr.getNumPoints, hl.mergeNodes hr a]
    simp [hfit]

theorem collapse_left (hnl : l = none) (hnr : r ≠ none) :
    ∃ w' x', w.store.collapse leafSize a l r = some (w'.store, x') ∧
      Collapsed leafSize w a (b + 1) w' x' := by
  have hne : ¬(l = none ∧ r = none) := fun h => hnr h.2
  subst hnl
  obtain ⟨cr, rfl⟩ := Option.ne_none_iff_exists'.mp hnr
  have hchoose : w.store.chooseNode leafSize a none (some cr) =
      some (w.store, if w.store.numPts (some cr) ≤ leafSize then some cr else some a) := by
    unfold Store.chooseNode
    rw [hl.getNumPoints, hr.getNumPoints]
    rfl
  by_cases hfit : w.store.numPts (some cr) ≤ leafSize
  · rw [if_pos hfit] at hchoose
    refine collapse_leaf ha hl hr hne (.refl w) hchoose fun c hc => ?_
    cases hc
    obtain ⟨P, hP, -⟩ := hr.asLeaf hfit
    exact ⟨P, hP⟩
  · rw [if_neg hfit] at hchoose
    refine collapse_self ha hlevel hl hr hne hchoose (Or.inl rfl) ?_
    rw [Store.numPts_none, Nat.zero_add]
    exact not_le.mp hfit

theorem collapse_right (hnl : l ≠ none) (hnr : r = none) :
    ∃ w' x', w.store.collapse leafSize a l r = some (w'.store, x') ∧
      Collapsed leafSize w a (b + 1) w' x' := by
  have hne : ¬(l = none ∧ r = none) := fun h => hnl h.1
  subst hnr
  obtain ⟨cl, rfl⟩ := Option.ne_none_iff_exists'.mp hnl
  have hchoose : w.store.chooseNode leafSize a (some cl) none =
      some (w.store, if w.store.numPts (some cl) ≤ leafSize then some cl else some a) := by
    unfold Store.chooseNode
    rw [hl.getNumPoints, hr.getNumPoints]
    rfl
  by_cases hfit : w.store.numPts (some cl) ≤ leafSize
  · rw [if_pos hfit] at hchoose
    refine collapse_leaf ha hl hr hne (.refl w) hchoose fun c hc => ?_
    cases hc
    obtain ⟨P, hP, -⟩ := hl.asLeaf hfit
    exact ⟨P, hP⟩
  · rw [if_neg hfit] at hchoose
    refine collapse_self ha hlevel hl hr hne hchoose (Or.inl rfl) ?_
    rw [Store.numPts_none, Nat.add_zero]
    exact not_le.mp hfit

/-- The two leaf casts are valid, and the node that is left has room. -/
theorem collapse_collapsed :
    ∃ w' x', w.store.collapse leafSize a l r = some (w'.store, x') ∧
      Collapsed leafSize w a (b + 1) w' x' := by
  by_cases hnl : l = none
  · by_cases hnr : r = none
    · have hdestroy : Store.destroyUnless w.store a none = w.store.set a (.inteNode none none 0) :=
        if_neg (by simp)
      refine ⟨w.set a (.inteNode none none 0), none, ?_, .set _ _ _, .refl _, .null⟩
      unfold Store.collapse
      rw [if_pos ⟨hnl, hnr⟩, hdestroy]
      rfl
    · exact collapse_left ha hlevel hl hr hnl hnr
  · by_cases hnr : r = none
    · exact collapse_right ha hlevel hl hr hnl hnr
    · exact collapse_both ha hlevel hl hr hnl hnr

end Collapse

/-- The equation of `multi_version_batch_delete_sorted_node` at an interior node. -/
theorem Store.deleteNode_step {store : Store} (ha : store[a]? = some (.inteNode l r n)) :
    Store.multiVersionBatchDeleteSortedNode leafSize (b + 1) store (some a) P = (do
      let splitter := splitByBit P 0 P.length (b + 1)
      let (store, newLSon) ← (if 0 < splitter then
        updateCopy (multiVersionBatchDeleteSortedNode leafSize b · · (P.take splitter)) store l
        else some (store, l))
      let (store, newRSon) ← (if splitter < P.length then
        updateCopy (multiVersionBatchDeleteSortedNode leafSize b · · (P.drop splitter)) store r
        else some (store, r))
      collapse leafSize (store.set a (.inteNode newLSon newRSon n)) a newLSon newRSon) := by
  rw [multiVersionBatchDeleteSortedNode, ha]
  rfl

/-- What a persistent deletion makes of a pointer. -/
structure Deleted (leafSize : Nat) (w : Leveled) (b : Nat) (w' : Leveled) (x' : Ptr) : Prop where
  extend : w.Extends w'
  sound : Sound leafSize w' true b x'

theorem deleteNode_deleted (h : Sound leafSize w strict b x) :
    ∀ {w1 : Leveled} (_ : w.Extends w1) (P : List Point), ∃ w' x',
      updateCopy (Store.multiVersionBatchDeleteSortedNode leafSize b · · P) w1.store x =
        some (w'.store, x') ∧ Deleted leafSize w1 b w' x' := by
  induction h with
  | @null strict b =>
    intro w1 _ P
    refine ⟨w1, none, ?_, .refl w1, .null⟩
    show Store.multiVersionBatchDeleteSortedNode leafSize b w1.store none P = _
    rw [Store.multiVersionBatchDeleteSortedNode]
  | @leaf strict b a records ha =>
    intro w1 hext P
    have hcopy : (w1.store ++ [Node.leafNode records])[w1.store.length]? =
        some (.leafNode records) := List.getElem?_concat_length
    rw [Store.updateCopy_some _ (hext.store _ _ ha), Store.multiVersionBatchDeleteSortedNode, hcopy]
    simp only [Option.bind_eq_bind, Option.bind_some]
    generalize getDeleteP records P 0 P.length (fun _ => true) = left
    rw [List.set_append_right _ _ le_rfl, Nat.sub_self]
    have hbuilt := Built.leaf leafSize w1 b left
    refine ⟨w1.alloc (.leafNode left) b, _, rfl, hbuilt.extend, ?_⟩
    split
    · exact .null
    · exact hbuilt.sound
  | @inte strict b a n l r ha hlevel hl hr hroom ihl ihr =>
    intro w1 hext P
    have ha1 := hext.store _ _ ha
    have hext1 := hext.trans (Leveled.Extends.alloc w1 (.inteNode l r n) (b + 1))
    rw [Store.updateCopy_some _ ha1, Store.deleteNode_step List.getElem?_concat_length]
    generalize splitByBit P 0 P.length (b + 1) = splitter
    obtain ⟨w2, l', hrunL, hdelL⟩ := son_step (0 < splitter) ⟨.refl _, hl.mono hext1⟩
      (ihl hext1 (P.take splitter))
    have hext2 := hext1.trans hdelL.extend
    obtain ⟨w3, r', hrunR, hdelR⟩ := son_step (splitter < P.length) ⟨.refl _, hr.mono hext2⟩
      (ihr hext2 (P.drop splitter))
    have hsl := hdelL.sound.mono hdelR.extend
    -- the copy gets its new sons and keeps the old count
    have hext3 := hdelL.extend.trans hdelR.extend
    have hcell := hext3.store _ _ (w1.alloc_get (.inteNode l r n) (b + 1))
    have hcellLevel := hext3.level _ _ (w1.alloc_level (.inteNode l r n) (b + 1))
    have hlt : b < b + 1 := Nat.lt_succ_self b
    have hbut : ExtendsBut w1.store.length w3.store
        (w3.set w1.store.length (.inteNode l' r' n)).store := .set _ _ _
    obtain ⟨w', x', hrun, hcol⟩ := collapse_collapsed (w := w3.set w1.store.length (.inteNode l' r' n))
      (List.getElem?_set_self (List.getElem?_eq_some_iff.mp hcell).1) hcellLevel
      (hsl.but hcell hcellLevel hlt hbut (.refl _)) (hdelR.sound.but hcell hcellLevel hlt hbut (.refl _))
    refine ⟨w', x', ?_, ?_, hcol.sound⟩
    · rw [Leveled.alloc_store] at hrunL
      simp only [hrunL, hrunR, Option.bind_eq_bind, Option.bind_some]
      exact hrun
    · exact ((Leveled.Extends.alloc _ _ _).trans hext3).but (hbut.trans hcol.store) hcol.level le_rfl

end Silva
