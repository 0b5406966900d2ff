import Silva.Mvq.Proofs.RoomProofs

/-!
# Proofs: updates in place, and the leaf casts

An insertion in place only makes counts grow, so it keeps every version sound that shares nodes with
the root. A deletion in place keeps all pointers and takes records out of leaves; the versions stay
sound as long as it leaves room. Then no call meets an invalid cast.
-/

namespace Silva

open RefCount (Ptr Mem Reach ExtendsBut)
open Node (sons)
open TwoPointer (keys_le_lefts_events_add)

variable {leafSize b k a c n : Nat} {strict : Bool} {l r x x' y : Ptr} {P Q : List Point}
  {w w' w'' : Leveled}

/-! ## Overwriting nodes that other versions share -/

/-- When counts only grow, overwriting one node keeps all other pointers sound if it keeps its own. -/
theorem Sound.overwrite (h : Sound leafSize w strict b x) (hbut : ExtendsBut a w.store w'.store)
    (hlevel : RefCount.Extends w.level w'.level)
    (hgrown : ∀ c y, Sound leafSize w true c y →
      Grown leafSize (w.store.numPts y) (w'.store.numPts y))
    (hself : ∀ s c, Sound leafSize w s c (some a) → Sound leafSize w' s c (some a)) :
    Sound leafSize w' strict b x := by
  induction h with
  | null => exact .null
  | @leaf strict b d P hd =>
    by_cases hda : d = a
    · subst hda
      exact hself strict b (.leaf hd)
    · exact .leaf (hbut d _ hda hd)
  | @inte strict b d n l r hd hk hl hr hroom ihl ihr =>
    by_cases hda : d = a
    · subst hda
      exact hself strict (b + 1) (.inte hd hk hl hr hroom)
    · exact .inte (hbut d _ hda hd) (hlevel _ _ hk) ihl ihr fun hs =>
        ⟨(hroom hs).1, (hgrown b l hl).lt_add (hgrown b r hr) (hroom hs).2⟩

/-- What an in-place insertion at level `b` does: counts grow, sound pointers stay sound, and the
interior nodes above stay what they are. -/
structure Enlarged (leafSize b : Nat) (w w' : Leveled) : Prop where
  level : RefCount.Extends w.level w'.level
  above : ∀ (a : Nat) (l r : Ptr) (n k : Nat), w.store[a]? = some (.inteNode l r n) →
    w.level[a]? = some k → b < k → w'.store[a]? = some (.inteNode l r n)
  grown : ∀ c y, Sound leafSize w true c y → Grown leafSize (w.store.numPts y) (w'.store.numPts y)
  sound : ∀ s c y, Sound leafSize w s c y → Sound leafSize w' s c y

namespace Enlarged

theorem of_extends (h : w.Extends w') : Enlarged leafSize b w w' where
  level := h.level
  above _ _ _ _ _ ha _ _ := h.store _ _ ha
  grown _ _ hy := Or.inl (hy.numPts_mono h).ge
  sound _ _ _ hy := hy.mono h

theorem refl (w : Leveled) : Enlarged leafSize b w w := of_extends (.refl w)

theorem trans (h : Enlarged leafSize b w w') (h' : Enlarged leafSize b w' w'') :
    Enlarged leafSize b w w'' where
  level := h.level.trans h'.level
  above a l r n k ha hk hlt := h'.above a l r n k (h.above a l r n k ha hk hlt) (h.level _ _ hk) hlt
  grown c y hy := (h.grown c y hy).trans (h'.grown c y (h.sound _ c y hy))
  sound s c y hy := h'.sound s c y (h.sound s c y hy)

theorem succ (h : Enlarged leafSize b w w') : Enlarged leafSize (b + 1) w w' :=
  { h with above := fun a l r n k ha hk hlt => h.above a l r n k ha hk (by omega) }

/-- Counts that grow at one node. -/
theorem grown_but {node node' : Node} (ha : w.store[a]? = some node) (ha' : w'.store[a]? = some node')
    (hbut : ExtendsBut a w.store w'.store) (hy : Sound leafSize w true c y)
    (hgrown : y = some a → Grown leafSize node.getNumPoints node'.getNumPoints) :
    Grown leafSize (w.store.numPts y) (w'.store.numPts y) := by
  cases y with
  | none => exact .refl _ _
  | some d =>
    by_cases hda : d = a
    · subst hda
      rw [Store.numPts_some ha, Store.numPts_some ha']
      exact hgrown rfl
    · obtain ⟨m, hd⟩ := hy.exists_node
      rw [Store.numPts_some hd, Store.numPts_some (hbut d m hda hd)]
      exact .refl _ _

/-- A leaf gets more records. -/
theorem set_leaf (ha : w.store[a]? = some (.leafNode P)) (hlen : P.length ≤ Q.length) :
    Enlarged leafSize b w (w.set a (.leafNode Q)) := by
  have hbut : ExtendsBut a w.store (w.set a (.leafNode Q)).store := .set _ _ _
  have ha' : (w.set a (.leafNode Q)).store[a]? = some (.leafNode Q) :=
    List.getElem?_set_self (List.getElem?_eq_some_iff.mp ha).1
  have hgrown : ∀ c y, Sound leafSize w true c y →
      Grown leafSize (w.store.numPts y) ((w.set a (.leafNode Q)).store.numPts y) :=
    fun c y hy => grown_but ha ha' hbut hy fun _ => Or.inl hlen
  refine ⟨.refl _, fun d l r n k hd _ _ => hbut d _ ?_ hd, hgrown, fun s c y hy => ?_⟩
  · rintro rfl
    rw [ha] at hd
    cases hd
  · exact hy.overwrite hbut (.refl _) hgrown fun _ _ _ => .leaf ha'

/-- An interior node gets new sons, and counts them. -/
theorem set_inte {l0 r0 : Ptr} {n0 : Nat} (ha : w.store[a]? = some (.inteNode l0 r0 n0))
    (hlevel : w.level[a]? = some (b + 1)) (hl : Sound leafSize w true b l)
    (hr : Sound leafSize w true b r) (hgrownL : Grown leafSize (w.store.numPts l0) (w.store.numPts l))
    (hgrownR : Grown leafSize (w.store.numPts r0) (w.store.numPts r)) :
    Enlarged leafSize (b + 1) w
      (w.set a (.inteNode l r (w.store.numPts l + w.store.numPts r))) := by
  have hbut : ExtendsBut a w.store
    (w.set a (.inteNode l r (w.store.numPts l + w.store.numPts r))).store := .set _ _ _
  have ha' : (w.set a (.inteNode l r (w.store.numPts l + w.store.numPts r))).store[a]? =
      some (.inteNode l r (w.store.numPts l + w.store.numPts r)) :=
    List.getElem?_set_self (List.getElem?_eq_some_iff.mp ha).1
  have hroom : ∀ {s : Bool} {c : Nat}, Sound leafSize w s c (some a) → s = true →
      leafSize < w.store.numPts l + w.store.numPts r := by
    intro s c hsound hs
    cases hsound with
    | leaf hleaf => rw [ha] at hleaf; cases hleaf
    | inte hinte _ _ _ hroom =>
      rw [ha] at hinte
      cases hinte
      exact hgrownL.lt_add hgrownR (hroom hs).2
  have hgrown : ∀ c y, Sound leafSize w true c y → Grown leafSize (w.store.numPts y)
      ((w.set a (.inteNode l r (w.store.numPts l + w.store.numPts r))).store.numPts y) := by
    intro c y hy
    refine grown_but ha ha' hbut hy ?_
    rintro rfl
    exact Or.inr (hroom hy rfl)
  refine ⟨.refl _, fun d l r n k hd hk hlt => hbut d _ ?_ hd, hgrown, fun s c y hy => ?_⟩
  · rintro rfl
    rw [hlevel, Option.some_inj] at hk
    omega
  · refine hy.overwrite hbut (.refl _) hgrown fun s c hself => ?_
    have hc : c = b + 1 := by
      cases hself with
      | leaf hleaf => rw [ha] at hleaf; cases hleaf
      | inte _ hk => rw [hlevel, Option.some_inj] at hk; exact hk.symm
    rw [hc]
    exact .place ha hlevel hl hr fun hs => ⟨hroom hself hs, hroom hself hs⟩

end Enlarged

/-! ## Insertion in place -/

/-- What an in-place insertion makes of a pointer. The pointer changes only where it was null, or led
to a leaf that overflows. -/
structure InsertedInPlace (leafSize : Nat) (w : Leveled) (strict : Bool) (b : Nat) (x : Ptr) (w' : Leveled)
    (x' : Ptr) : Prop where
  enlarged : Enlarged leafSize b w w'
  sound : Sound leafSize w' strict b x'
  kept : x' = x ∨ x = none ∨ leafSize < w'.store.numPts x'

theorem InsertedInPlace.refl (h : Sound leafSize w strict b x) :
    InsertedInPlace leafSize w strict b x w x :=
  ⟨.refl w, h, Or.inl rfl⟩

/-- Later growth does not matter. -/
theorem InsertedInPlace.grown (h : InsertedInPlace leafSize w true b x w' x')
    (h' : Enlarged leafSize b w' w'') :
    Grown leafSize (w''.store.numPts x) (w''.store.numPts x') := by
  rcases h.kept with rfl | rfl | hlt
  · exact .refl _ _
  · exact Or.inl (Nat.zero_le _)
  · have := h'.grown b x' h.sound
    unfold Grown at *
    omega

theorem insertInPlace_null (leafSize : Nat) (strict : Bool) (b : Nat) (w : Leveled) (P : List Point) :
    ∃ w' x', Store.batchInsertSortedNode leafSize b w.store none P = some (w'.store, x') ∧
      InsertedInPlace leafSize w strict b none w' x' := by
  obtain ⟨w', x', hrun, hbuilt⟩ := buildNode_built leafSize b w P
  refine ⟨w', x', ?_, .of_extends hbuilt.extend, hbuilt.sound.weaken, Or.inr (Or.inl rfl)⟩
  rw [Store.batchInsertSortedNode, hrun]

theorem insertInPlace_leaf (strict : Bool) (b : Nat) (ha : w.store[a]? = some (.leafNode Q))
    (P : List Point) :
    ∃ w' x', Store.batchInsertSortedNode leafSize b w.store (some a) P = some (w'.store, x') ∧
      InsertedInPlace leafSize w strict b (some a) w' x' := by
  rw [Store.batchInsertSortedNode, ha]
  simp only [Option.bind_eq_bind, Option.bind_some]
  by_cases hfit : b = 0 ∨ Q.length + P.length ≤ leafSize
  · rw [if_pos hfit]
    have henl : Enlarged leafSize b w (w.set a (.leafNode (parlayMerge mortonCmp Q P))) :=
      .set_leaf ha (by rw [length_parlayMerge]; exact Nat.le_add_right _ _)
    exact ⟨_, _, rfl, henl, henl.sound _ _ _ (.leaf ha), Or.inl rfl⟩
  · rw [if_neg hfit]
    obtain ⟨w', x', hrun, hbuilt⟩ := buildNode_built leafSize b w (parlayMerge mortonCmp Q P)
    refine ⟨w', x', hrun, .of_extends hbuilt.extend, hbuilt.sound.weaken, Or.inr (Or.inr ?_)⟩
    rw [hbuilt.numPts, length_parlayMerge]
    omega

/-- A son is updated only when its part of the batch is not empty. -/
theorem insertInPlace_son (cond : Prop) [Decidable cond] (h : Sound leafSize w true b x)
    (hrun : ∃ w' x', Store.batchInsertSortedNode leafSize b w.store x P = some (w'.store, x') ∧
      InsertedInPlace leafSize w true b x w' x') :
    ∃ w' x', (if cond then Store.batchInsertSortedNode leafSize b w.store x P
      else some (w.store, x)) = some (w'.store, x') ∧ InsertedInPlace leafSize w true b x w' x' := by
  by_cases hcond : cond
  · rw [if_pos hcond]
    exact hrun
  · rw [if_neg hcond]
    exact ⟨w, x, rfl, .refl h⟩

theorem insertInPlace : ∀ {b : Nat} {w : Leveled} {strict : Bool} {x : Ptr},
    Sound leafSize w strict b x → ∀ P : List Point, ∃ w' x',
      Store.batchInsertSortedNode leafSize b w.store x P = some (w'.store, x') ∧
      InsertedInPlace leafSize w strict b x w' x' := by
  intro b
  induction b with
  | zero =>
    intro w strict x h P
    cases h with
    | null => exact insertInPlace_null leafSize strict 0 w P
    | leaf ha => exact insertInPlace_leaf strict 0 ha P
  | succ b ih =>
    intro w strict x h P
    cases h with
    | null => exact insertInPlace_null leafSize strict (b + 1) w P
    | leaf ha => exact insertInPlace_leaf strict (b + 1) ha P
    | @inte _ _ a n l r ha hlevel hl hr hroom =>
      rw [Store.batchInsertSortedNode, ha]
      simp only [Option.bind_eq_bind, Option.bind_some]
      generalize splitByBit P 0 P.length (b + 1) = splitter
      obtain ⟨w1, l', hrunL, hplL⟩ :=
        insertInPlace_son (0 < splitter) hl (ih hl (P.take splitter))
      have hr1 := hplL.enlarged.sound _ _ _ hr
      obtain ⟨w2, r', hrunR, hplR⟩ :=
        insertInPlace_son (splitter < P.length) hr1 (ih hr1 (P.drop splitter))
      -- the node itself is above both sons
      have henl := hplL.enlarged.trans hplR.enlarged
      have ha2 := henl.above a l r n (b + 1) ha hlevel (Nat.lt_succ_self b)
      have hl2 := hplR.enlarged.sound _ _ _ hplL.sound
      have henl' := henl.succ.trans (.set_inte ha2 (henl.level _ _ hlevel) hl2 hplR.sound
        (hplL.grown hplR.enlarged) (hplR.grown (.refl w2)))
      refine ⟨_, some a, ?_, henl', henl'.sound _ _ _ (.inte ha hlevel hl hr hroom), Or.inl rfl⟩
      simp only [hrunL, hrunR, Option.bind_some, hl2.mergeNodes hplR.sound]
      rfl

/-! ## Deletion in place -/

theorem keys_take_add_drop (P : List Point) (i : Nat) : keys (P.take i) + keys (P.drop i) = keys P := by
  unfold keys
  rw [Multiset.coe_add, ← List.map_append, List.take_append_drop]

/-- Deleting takes at most the keys of the batch. -/
theorem keys_le_removed (P Q : List Point) : keys P ≤ keys (mergePts P Q).2 + keys Q := by
  rw [mergePts_eq]
  exact keys_le_lefts_events_add ptCmp_eq_compare P Q

theorem card_keys (P : List Point) : (keys P).card = P.length := by
  rw [keys, Multiset.coe_card, List.length_map]

theorem remaining_le {P' : List Point} (h : keys P ≤ keys P' + keys Q) :
    remaining P Q ≤ P'.length := by
  have hcard := Multiset.card_le_card (Multiset.sub_le_iff_le_add.mpr h)
  rwa [card_keys] at hcard

variable {m m' : Mem Node} {root : Ptr} {C D : Multiset (ℕ ×ₗ ℕ)} {store store' : Store}

/-- The store of the memory while a deletion in place is under way at `root`, which has taken no more
than the keys `C` so far. All pointers are what they were, and the inner nodes have room. -/
structure Thinned (leafSize : Nat) (m : Mem Node) (root : Ptr) (C : Multiset (ℕ ×ₗ ℕ))
    (store : Store) : Prop where
  length : store.length = m.store.length
  leaf : ∀ (a : Nat) (P : List Point), m.store[a]? = some (.leafNode P) →
    ∃ P', store[a]? = some (.leafNode P') ∧ keys P ≤ keys P' + C ∧
      (¬Reach sons m.store root a → P' = P)
  inte : ∀ (a : Nat) (l r : Ptr) (n : Nat), m.store[a]? = some (.inteNode l r n) →
    ∃ n', store[a]? = some (.inteNode l r n') ∧ (Inner m a → leafSize < n')

namespace Thinned

theorem mono (h : Thinned leafSize m root C store) (hCD : C ≤ D) :
    Thinned leafSize m root D store := by
  refine { h with leaf := fun a P ha => ?_ }
  obtain ⟨P', ha', hkeys, hother⟩ := h.leaf a P ha
  exact ⟨P', ha', hkeys.trans (by gcongr), hother⟩

theorem exists_node (h : Thinned leafSize m root C store) {node : Node}
    (ha : m.store[a]? = some node) : ∃ node', store[a]? = some node' := by
  cases node with
  | leafNode P =>
    obtain ⟨P', ha', -⟩ := h.leaf a P ha
    exact ⟨_, ha'⟩
  | inteNode l r n =>
    obtain ⟨n', ha', -⟩ := h.inte a l r n ha
    exact ⟨_, ha'⟩

theorem getNumPoints (h : Thinned leafSize m root C store) (hw : w.store = m.store)
    (hy : Sound leafSize w strict b y) : store.getNumPoints y = some (store.numPts y) := by
  cases y with
  | none => rfl
  | some d =>
    obtain ⟨node, hd⟩ := hy.exists_node
    obtain ⟨node', hd'⟩ := h.exists_node (hw ▸ hd)
    rw [Store.numPts, Store.getNumPoints_some hd']
    rfl

/-- A leaf that the walk reaches loses records. -/
theorem set_leaf (h : Thinned leafSize m root C store) (ha : m.store[a]? = some (.leafNode P))
    (hreach : Reach sons m.store root a) {P' : List Point} (ha' : store[a]? = some (.leafNode P'))
    (Q : List Point) :
    Thinned leafSize m root (C + keys Q) (store.set a (.leafNode (mergePts P' Q).2)) := by
  refine ⟨by rw [List.length_set, h.length], fun d R hd => ?_, fun d l r n hd => ?_⟩
  · obtain ⟨R', hd', hkeys, hother⟩ := h.leaf d R hd
    by_cases hda : d = a
    · subst hda
      rw [ha'] at hd'
      cases hd'
      refine ⟨_, List.getElem?_set_self (List.getElem?_eq_some_iff.mp ha').1, ?_,
        fun hnot => absurd hreach hnot⟩
      calc keys R ≤ keys P' + C := hkeys
        _ ≤ keys (mergePts P' Q).2 + keys Q + C := by gcongr; exact keys_le_removed P' Q
        _ = keys (mergePts P' Q).2 + (C + keys Q) := by rw [add_assoc, add_comm (keys Q)]
    · refine ⟨R', by rwa [List.getElem?_set_ne (Ne.symm hda)], hkeys.trans ?_, hother⟩
      gcongr
      exact Multiset.le_add_right _ _
  · obtain ⟨n', hd', hroom⟩ := h.inte d l r n hd
    refine ⟨n', ?_, hroom⟩
    rw [List.getElem?_set_ne]
    · exact hd'
    · rintro rfl
      rw [ha] at hd
      cases hd

/-- An interior node counts its sons again. -/
theorem set_inte (h : Thinned leafSize m root C store) (ha : m.store[a]? = some (.inteNode l r n))
    {n' : Nat} (hroom : Inner m a → leafSize < n') :
    Thinned leafSize m root C (store.set a (.inteNode l r n')) := by
  refine ⟨by rw [List.length_set, h.length], fun d R hd => ?_, fun d l' r' k hd => ?_⟩
  · obtain ⟨R', hd', hrest⟩ := h.leaf d R hd
    refine ⟨R', ?_, hrest⟩
    rw [List.getElem?_set_ne]
    · exact hd'
    · rintro rfl
      rw [ha] at hd
      cases hd
  · by_cases hda : d = a
    · subst hda
      rw [ha] at hd
      cases hd
      obtain ⟨k', hd', -⟩ := h.inte d l r n ha
      exact ⟨n', List.getElem?_set_self (List.getElem?_eq_some_iff.mp hd').1, hroom⟩
    · obtain ⟨k', hd', hroom'⟩ := h.inte d l' r' k hd
      exact ⟨k', by rwa [List.getElem?_set_ne (Ne.symm hda)], hroom'⟩

/-- A son counts more than a leaf holds, or what the batch leaves in it. -/
theorem son (h : Thinned leafSize m root C store) (hC : C ≤ keys P) (hw : w.store = m.store)
    (hy : Sound leafSize w true b y) (hinner : ∀ d, y = some d → Inner m d) :
    leafSize < store.numPts y ∨ ∃ i, Remains m.store root P y i ∧ i ≤ store.numPts y := by
  cases hy with
  | null => exact Or.inr ⟨0, .null, le_rfl⟩
  | @leaf _ _ d R hd =>
    rw [hw] at hd
    obtain ⟨R', hd', hkeys, hother⟩ := h.leaf d R hd
    rw [Store.numPts_some hd']
    by_cases hreach : Reach sons m.store root d
    · exact Or.inr ⟨_, .reached hd hreach, remaining_le (hkeys.trans (by gcongr))⟩
    · exact Or.inr ⟨_, .other hd hreach, (congrArg List.length (hother hreach)).ge⟩
  | @inte _ _ d k l r hd =>
    rw [hw] at hd
    obtain ⟨k', hd', hroom⟩ := h.inte d l r k hd
    rw [Store.numPts_some hd']
    exact Or.inl (hroom (hinner d rfl))

end Thinned

/-- The nodes that an inner node points to are inner nodes. -/
theorem Inner.kid {node : Node} (h : Inner m a) (ha : m.store[a]? = some node)
    (hy : some c ∈ sons node) : Inner m c := by
  obtain ⟨d, top, z, hd, htop, hz, hreach⟩ := h
  exact ⟨d, top, z, hd, htop, hz, hreach.kid ha hy (.here c)⟩

/-- While a deletion leaves room, an inner node has it. -/
theorem LeavesRoom.lt_add (hroom : LeavesRoom leafSize m P) (h : Thinned leafSize m root C store)
    (hC : C ≤ keys P) (hroot : m.vars[0]? = some root) (hw : w.store = m.store) (hinner : Inner m a)
    (ha : m.store[a]? = some (.inteNode l r n)) (hl : Sound leafSize w true b l)
    (hr : Sound leafSize w true b r) : leafSize < store.numPts l + store.numPts r := by
  have hL := h.son hC hw hl fun d hd => hinner.kid ha (by simp [sons, hd])
  have hR := h.son hC hw hr fun d hd => hinner.kid ha (by simp [sons, hd])
  rcases hL with hL | ⟨i, hi, hiL⟩
  · omega
  · rcases hR with hR | ⟨j, hj, hjR⟩
    · omega
    · have := hroom root a l r n i j hroot hinner ha hi hj
      omega

/-- A son is visited only when its part of the batch is not empty. -/
theorem deleteInPlace_son (cond : Prop) [Decidable cond] (h : Thinned leafSize m root C store)
    (hrun : ∃ store', Store.batchDeleteSortedNode b store x Q = some store' ∧
      Thinned leafSize m root (C + keys Q) store') :
    ∃ store', (if cond then Store.batchDeleteSortedNode b store x Q else some store) = some store' ∧
      Thinned leafSize m root (C + keys Q) store' := by
  by_cases hcond : cond
  · rw [if_pos hcond]
    exact hrun
  · rw [if_neg hcond]
    exact ⟨store, rfl, h.mono (Multiset.le_add_right _ _)⟩

/-- The walk of a deletion in place. -/
theorem deleteInPlace (hroom : LeavesRoom leafSize m P) (hroot : m.vars[0]? = some root)
    (hw : w.store = m.store) (hx : Sound leafSize w strict b x) :
    ∀ {store : Store} {C : Multiset (ℕ ×ₗ ℕ)} {Q : List Point},
      (∀ a, x = some a → Reach sons m.store root a) → Thinned leafSize m root C store →
      C + keys Q ≤ keys P → ∃ store', Store.batchDeleteSortedNode b store x Q = some store' ∧
        Thinned leafSize m root (C + keys Q) store' := by
  induction hx with
  | null =>
    intro store C Q _ h _
    exact ⟨store, by rw [Store.batchDeleteSortedNode], h.mono (Multiset.le_add_right _ _)⟩
  | @leaf strict b a R ha =>
    intro store C Q hreach h _
    rw [hw] at ha
    obtain ⟨R', ha', -⟩ := h.leaf a R ha
    refine ⟨_, ?_, h.set_leaf ha (hreach a rfl) ha' Q⟩
    rw [Store.batchDeleteSortedNode, ha']
    rfl
  | @inte strict b a n l r ha hlevel hl hr _ ihl ihr =>
    intro store C Q hreach h hC
    rw [hw] at ha
    obtain ⟨n', ha', -⟩ := h.inte a l r n ha
    rw [Store.batchDeleteSortedNode, ha']
    simp only [Option.bind_eq_bind, Option.bind_some]
    generalize splitByBit Q 0 Q.length (b + 1) = splitter
    have hsum := keys_take_add_drop Q splitter
    have hkid : ∀ y ∈ sons (.inteNode l r n), ∀ d, y = some d → Reach sons m.store root d := by
      rintro y hy d rfl
      exact (hreach a rfl).kid ha hy (.here d)
    have hC1 : C + keys (Q.take splitter) ≤ keys P := by
      refine le_trans ?_ hC
      rw [← hsum]
      gcongr
      exact Multiset.le_add_right _ _
    obtain ⟨store1, hrun1, h1⟩ :=
      deleteInPlace_son (0 < splitter) h (ihl (hkid l (by simp [sons])) h hC1)
    have hC2 : C + keys (Q.take splitter) + keys (Q.drop splitter) = C + keys Q := by
      rw [add_assoc, hsum]
    obtain ⟨store2, hrun2, h2⟩ := deleteInPlace_son (splitter < Q.length) h1
      (ihr (hkid r (by simp [sons])) h1 (hC2.trans_le hC))
    rw [hC2] at h2
    refine ⟨store2.set a (.inteNode l r (store2.numPts l + store2.numPts r)), ?_,
      h2.set_inte ha fun hinner => hroom.lt_add h2 hC hroot hw hinner ha hl hr⟩
    simp only [hrun1, hrun2, Option.bind_some, Store.mergeNodes, Option.bind_eq_bind,
      h2.getNumPoints hw hl, h2.getNumPoints hw hr]
    rfl

/-- After the walk the pointers below a top node are sound again. -/
theorem Thinned.sound (h : Thinned leafSize m root (keys P) store) (hroom : LeavesRoom leafSize m P)
    (hroot : m.vars[0]? = some root) (hw : w.store = m.store) (hw' : w'.store = store)
    (hlevel : w'.level = w.level) (hx : Sound leafSize w true b x)
    (hinner : ∀ a, x = some a → Inner m a) : Sound leafSize w' true b x := by
  generalize hs : true = strict at hx
  induction hx with
  | null => exact .null
  | leaf ha =>
    obtain ⟨R', ha', -⟩ := h.leaf _ _ (hw ▸ ha)
    exact .leaf (hw' ▸ ha')
  | @inte _ b a n l r ha hk hl hr _ ihl ihr =>
    rw [hw] at ha
    obtain ⟨n', ha', hn'⟩ := h.inte a l r n ha
    have hkid : ∀ y ∈ sons (.inteNode l r n), ∀ d, y = some d → Inner m d := by
      rintro y hy d rfl
      exact (hinner a rfl).kid ha hy
    refine .inte (hw' ▸ ha') (hlevel ▸ hk) (ihl (hkid l (by simp [sons])) rfl)
      (ihr (hkid r (by simp [sons])) rfl) fun _ => ⟨hn' (hinner a rfl), ?_⟩
    rw [hw']
    exact hroom.lt_add h le_rfl hroot hw (hinner a rfl) ha hl hr

/-! ## Memories -/

/-- Every variable of the memory holds a sound root, for the same levels. -/
structure Roomy (leafSize : Nat) (w : Leveled) (m : Mem Node) : Prop where
  store : w.store = m.store
  sound : ∀ x ∈ m.vars, Sound leafSize w false 64 x

namespace Roomy

theorem get (h : Roomy leafSize w m) {i : Nat} (hx : m.vars[i]? = some x) :
    Sound leafSize w false 64 x := h.sound x (List.mem_of_getElem? hx)

/-- Nodes are added, and a root. -/
theorem append (h : Roomy leafSize w m) (hext : w.Extends w') (hx : Sound leafSize w' strict 64 x) :
    Roomy leafSize w' { store := w'.store, vars := m.vars ++ [x] } := by
  refine ⟨rfl, fun z hz => ?_⟩
  rcases List.mem_append.mp hz with hz | hz
  · exact (h.sound z hz).mono hext
  · rw [List.mem_singleton.mp hz]
    cases strict with
    | true => exact hx.weaken
    | false => exact hx

/-- A root is replaced, and the other ones stay sound. -/
theorem set (hsound : ∀ z ∈ m.vars, Sound leafSize w' false 64 z)
    (hx : Sound leafSize w' false 64 x) (i : Nat) :
    Roomy leafSize w' { store := w'.store, vars := m.vars.set i x } := by
  refine ⟨rfl, fun z hz => ?_⟩
  rcases List.mem_or_eq_of_mem_set hz with hz | rfl
  · exact hsound z hz
  · exact hx

/-- Below the roots there is room. -/
theorem inner (h : Roomy leafSize w m) (ha : Inner m a) :
    ∃ b, Sound leafSize w true b (some a) := by
  obtain ⟨c, node, y, hc, hnode, hy, hreach⟩ := ha
  rw [← h.store] at hnode hreach
  obtain ⟨b, hson⟩ := (h.sound _ hc).kid hnode hy
  exact hson.reach hreach

/-- A variable is collected. -/
theorem gcNocheck (h : Roomy leafSize w m) {i : Nat} (hx : m.vars[i]? = some x) :
    ∃ m' w', Tree.gcNocheck 66 m (.var i) = some m' ∧
      Roomy leafSize w' { m' with vars := m'.vars.eraseIdx i } ∧
      m'.vars.eraseIdx i = m.vars.eraseIdx i := by
  obtain ⟨t, hread, hheight⟩ := (h.get hx).reads
  rw [h.store] at hread
  obtain ⟨m', hgc, -⟩ := Tree.gcNocheck_isSome (x := .var i) hx hread (Nat.lt_succ_of_le hheight)
  have hprivate : Tree.Private m i (.var i) := rfl
  have hkeeps := Tree.gcNocheck_keeps hprivate hgc
  have hlength : w.level.length = m'.store.length := by
    rw [Tree.gcNocheck_length hgc, w.length_eq, h.store]
  refine ⟨m', ⟨m'.store, w.level, hlength⟩, hgc, ⟨rfl, fun z hz => ?_⟩, hkeeps.eraseIdx⟩
  rw [hkeeps.eraseIdx] at hz
  obtain ⟨j, hji, hj⟩ := List.mem_eraseIdx_iff_getElem?.mp hz
  refine (h.get hj).frame (fun c node hc hn => ?_) (.refl _)
  rw [h.store] at hc hn
  exact (hkeeps.store c ⟨j, z, hji, hj, hc⟩).trans hn

end Roomy

/-- A tree object: the root variable is there, and all roots are sound. -/
structure HasRoom (leafSize : Nat) (m : Mem Node) : Prop where
  root : ∃ x, m.vars[0]? = some x
  roomy : ∃ w, Roomy leafSize w m

theorem HasRoom.fresh : HasRoom leafSize fresh := by
  refine ⟨⟨none, rfl⟩, ⟨[], [], rfl⟩, rfl, fun x hx => ?_⟩
  rw [List.mem_singleton.mp hx]
  exact .null

/-! ## Calls -/

theorem Roomy.insert (h : Roomy leafSize w m) (hx : Sound leafSize w strict 64 x) (P : List Point) :
    ∃ w' x', Store.multiVersionBatchInsertSorted leafSize m.store P x = some (w'.store, x') ∧
      Inserted leafSize w strict 64 x w' x' := by
  rw [← h.store]
  exact insertNode_inserted hx (.refl w) P

theorem Roomy.delete (h : Roomy leafSize w m) (hx : Sound leafSize w strict 64 x) (P : List Point) :
    ∃ w' x', Store.multiVersionBatchDeleteSorted leafSize m.store P x = some (w'.store, x') ∧
      Deleted leafSize w 64 w' x' := by
  rw [← h.store]
  exact deleteNode_deleted hx (.refl w) P

theorem getElem?_zero_append {x0 : Ptr} (h0 : m.vars[0]? = some x0) (xs : List Ptr) :
    (m.vars ++ xs)[0]? = some x0 := by
  rw [List.getElem?_append_left (List.getElem?_eq_some_iff.mp h0).1, h0]

theorem HasRoom.commit (h : HasRoom leafSize m) {v : Nat} (hx : m.vars[v]? = some x)
    (PInsert PDelete : List Point) :
    ∃ m', (Op.commit v PInsert PDelete).applyStore leafSize m = some m' ∧ HasRoom leafSize m' := by
  obtain ⟨⟨x0, h0⟩, w, hw⟩ := h
  obtain ⟨w1, tmpVer, hdel, hd⟩ := hw.delete (hw.get hx) (getSortedPoints PDelete)
  obtain ⟨w2, newVer, hins, hi⟩ :=
    insertNode_inserted hd.sound (.refl w1) (getSortedPoints PInsert)
  have h2 : Roomy leafSize w2 { store := w2.store, vars := m.vars ++ [newVer, tmpVer] } := by
    have := (hw.append (hd.extend.trans hi.extend) hi.sound).append (.refl w2)
      (hd.sound.mono hi.extend)
    rwa [List.append_assoc] at this
  have htmp : (m.vars ++ [newVer, tmpVer])[m.vars.length + 1]? = some tmpVer := by simp
  obtain ⟨m', w', hgc, hw', hvars⟩ := h2.gcNocheck htmp
  refine ⟨{ m' with vars := m'.vars.eraseIdx (m.vars.length + 1) }, ?_, ⟨x0, ?_⟩, w', hw'⟩
  · rw [Op.applyStore, hx]
    simp only [Option.bind_eq_bind, Option.bind_some, hdel]
    rw [show Store.multiVersionBatchInsertSorted leafSize w1.store (getSortedPoints PInsert) tmpVer =
      some (w2.store, newVer) from hins]
    simp only [Option.bind_some, hgc]
    rfl
  · show (m'.vars.eraseIdx _)[0]? = _
    rw [hvars, List.getElem?_eraseIdx_of_lt (Nat.succ_pos _)]
    exact getElem?_zero_append h0 _

theorem HasRoom.persistent (h : HasRoom leafSize m) {op : Op} (hv : op.version < m.vars.length) :
    ∃ m', op.applyStore leafSize m = some m' ∧ HasRoom leafSize m' := by
  have hx : m.vars[op.version]? = some m.vars[op.version] := List.getElem?_eq_getElem hv
  generalize m.vars[op.version] = x at hx
  cases op with
  | insert v P =>
    obtain ⟨⟨x0, h0⟩, w, hw⟩ := h
    obtain ⟨w', x', hrun, hins⟩ := hw.insert (hw.get hx) P
    refine ⟨{ store := w'.store, vars := m.vars ++ [x'] }, ?_, ⟨x0, getElem?_zero_append h0 _⟩, w',
      hw.append hins.extend hins.sound⟩
    rw [Op.applyStore, show m.vars[v]? = some x from hx]
    simp only [Option.bind_eq_bind, Option.bind_some, hrun]
    rfl
  | delete v P =>
    obtain ⟨⟨x0, h0⟩, w, hw⟩ := h
    obtain ⟨w', x', hrun, hdel⟩ := hw.delete (hw.get hx) P
    refine ⟨{ store := w'.store, vars := m.vars ++ [x'] }, ?_, ⟨x0, getElem?_zero_append h0 _⟩, w',
      hw.append hdel.extend hdel.sound⟩
    rw [Op.applyStore, show m.vars[v]? = some x from hx]
    simp only [Option.bind_eq_bind, Option.bind_some, hrun]
    rfl
  | commit v PInsert PDelete => exact h.commit hx PInsert PDelete

theorem HasRoom.build (h : HasRoom leafSize m) (P : List Point) :
    ∃ m', (Call.build P).apply leafSize m = some m' ∧ HasRoom leafSize m' := by
  by_cases hP : P.isEmpty
  · exact ⟨m, if_pos hP, h⟩
  · obtain ⟨⟨x0, h0⟩, w, hw⟩ := h
    obtain ⟨w1, x, hrun, hbuilt⟩ := buildNode_built leafSize 64 w P
    have hset := Roomy.set (m := m) (fun z hz => (hw.sound z hz).mono hbuilt.extend) hbuilt.sound.weaken 0
    have h1 := hset.append (.refl w1) ((hw.get h0).mono hbuilt.extend)
    have htmp : (m.vars.set 0 x ++ [x0])[m.vars.length]? = some x0 := by simp
    obtain ⟨m', w', hgc, hw', hvars⟩ := h1.gcNocheck htmp
    have hpos : 0 < m.vars.length := (List.getElem?_eq_some_iff.mp h0).1
    refine ⟨{ m' with vars := m'.vars.eraseIdx m.vars.length }, ?_, ⟨x, ?_⟩, w', hw'⟩
    · rw [hw.store] at hrun
      rw [Call.apply, if_neg hP, h0]
      simp only [Option.bind_eq_bind, Option.bind_some, Store.build, if_neg hP, hrun, hgc]
      rfl
    · show (m'.vars.eraseIdx _)[0]? = _
      rw [hvars, List.getElem?_eraseIdx_of_lt hpos]
      exact getElem?_zero_append (m := { store := w1.store, vars := m.vars.set 0 x })
        (List.getElem?_set_self hpos) _

theorem HasRoom.batchInsertSorted (h : HasRoom leafSize m) (P : List Point) :
    ∃ m', (Call.batchInsertSorted P).apply leafSize m = some m' ∧ HasRoom leafSize m' := by
  obtain ⟨⟨x0, h0⟩, w, hw⟩ := h
  have hpos : 0 < m.vars.length := (List.getElem?_eq_some_iff.mp h0).1
  obtain ⟨w', x', hrun, hins⟩ : ∃ w' x', Store.batchInsertSorted leafSize m.store x0 P =
      some (w'.store, x') ∧ InsertedInPlace leafSize w false 64 x0 w' x' := by
    unfold Store.batchInsertSorted
    rw [← hw.store]
    by_cases hP : P.isEmpty
    · rw [if_pos hP]
      exact ⟨w, x0, rfl, .refl (hw.get h0)⟩
    · rw [if_neg hP]
      by_cases hnull : x0 = none
      · rw [if_pos hnull, Store.build, if_neg hP, hnull]
        obtain ⟨w', x', hrun, hins⟩ := insertInPlace_null leafSize false 64 w P
        rw [Store.batchInsertSortedNode] at hrun
        exact ⟨w', x', hrun, hins⟩
      · rw [if_neg hnull]
        exact insertInPlace (hw.get h0) P
  refine ⟨{ store := w'.store, vars := m.vars.set 0 x' }, ?_, ⟨x', List.getElem?_set_self hpos⟩, w',
    .set (fun z hz => hins.enlarged.sound _ _ _ (hw.sound z hz)) hins.sound 0⟩
  rw [Call.apply, h0]
  simp only [Option.bind_eq_bind, Option.bind_some, hrun]
  rfl

/-- Nothing is deleted yet. -/
theorem Roomy.thinned (h : Roomy leafSize w m) (root : Ptr) :
    Thinned leafSize m root 0 m.store where
  length := rfl
  leaf a P ha := ⟨P, ha, (add_zero (keys P)).ge, fun _ => rfl⟩
  inte a l r n ha := by
    refine ⟨n, ha, fun hinner => ?_⟩
    obtain ⟨b, hsound⟩ := h.inner hinner
    rw [← h.store] at ha
    have := hsound.lt_numPts ha
    rwa [Store.numPts_some ha] at this

theorem HasRoom.batchDeleteSorted (h : HasRoom leafSize m) {P : List Point}
    (hroom : LeavesRoom leafSize m P) :
    ∃ m', (Call.batchDeleteSorted P).apply leafSize m = some m' ∧ HasRoom leafSize m' := by
  obtain ⟨⟨x0, h0⟩, w, hw⟩ := h
  by_cases hskip : P.isEmpty ∨ x0 = none
  · refine ⟨m, ?_, ⟨x0, h0⟩, w, hw⟩
    rw [Call.apply, h0]
    simp only [Option.bind_eq_bind, Option.bind_some, Store.batchDeleteSorted, if_pos hskip]
    rfl
  · have hreach : ∀ a, x0 = some a → Reach sons m.store x0 a := by
      rintro a rfl
      exact .here a
    obtain ⟨store', hrun, hthin⟩ := deleteInPlace hroom h0 hw.store (hw.get h0) hreach
      (hw.thinned x0) (zero_add (keys P)).le
    rw [zero_add] at hthin
    have hlength : w.level.length = store'.length := by
      rw [hthin.length, w.length_eq, hw.store]
    refine ⟨{ m with store := store' }, ?_, ⟨x0, h0⟩, ⟨store', w.level, hlength⟩, rfl,
      fun x hx => ?_⟩
    · rw [Call.apply, h0]
      simp only [Option.bind_eq_bind, Option.bind_some, Store.batchDeleteSorted, if_neg hskip, hrun]
      rfl
    · cases hw.sound x hx with
      | null => exact .null
      | leaf ha =>
        obtain ⟨R', ha', -⟩ := hthin.leaf _ _ (hw.store ▸ ha)
        exact .leaf ha'
      | @inte _ b a n l r ha hk hl hr _ =>
        rw [hw.store] at ha
        obtain ⟨n', ha', -⟩ := hthin.inte a l r n ha
        have hkid : ∀ y ∈ sons (.inteNode l r n), ∀ d, y = some d → Inner m d := by
          rintro y hy d rfl
          exact ⟨a, _, some d, hx, ha, hy, .here d⟩
        refine .inte ha' hk ?_ ?_ (by simp)
        · exact hthin.sound hroom h0 hw.store rfl rfl hl (hkid l (by simp [sons]))
        · exact hthin.sound hroom h0 hw.store rfl rfl hr (hkid r (by simp [sons]))

theorem HasRoom.apply (h : HasRoom leafSize m) {call : Call} (hallowed : call.Allowed leafSize m) :
    ∃ m', call.apply leafSize m = some m' ∧ HasRoom leafSize m' := by
  cases call with
  | build P => exact h.build P
  | batchInsertSorted P => exact h.batchInsertSorted P
  | batchDeleteSorted P => exact h.batchDeleteSorted hallowed
  | persistent op => exact h.persistent hallowed

theorem HasRoom.runCalls {calls : List Call} : ∀ {m : Mem Node}, HasRoom leafSize m →
    Allowed leafSize calls m → ∃ m', Silva.runCalls leafSize calls m = some m' ∧ HasRoom leafSize m' := by
  induction calls with
  | nil => exact fun {m} h _ => ⟨m, rfl, h⟩
  | cons call calls ih =>
    intro m h hallowed
    obtain ⟨m1, hrun1, h1⟩ := h.apply hallowed.1
    obtain ⟨m2, hrun2, h2⟩ := ih h1 (hallowed.2 m1 hrun1)
    refine ⟨m2, ?_, h2⟩
    rw [Silva.runCalls, hrun1]
    exact hrun2

theorem HasRoom.castsValid (h : HasRoom leafSize m) : CastsValid leafSize m := by
  intro x hx P
  obtain ⟨-, w, hw⟩ := h
  obtain ⟨w', x', hrun, -⟩ := hw.delete (hw.sound x hx) P
  rw [hrun]
  rfl

/-- Leaf casts. In every run of calls on a tree object in which each deletion in place leaves more
records than fit into a leaf below every interior node under the top node of a retained root, no call
fails, and the casts of every persistent deletion are valid. -/
theorem leaf_casts_valid {calls : List Call} (h : Allowed leafSize calls fresh) :
    ∃ m, runCalls leafSize calls fresh = some m ∧ CastsValid leafSize m := by
  obtain ⟨m, hrun, hm⟩ := HasRoom.fresh.runCalls h
  exact ⟨m, hrun, hm.castsValid⟩

/-! ## Two runs -/

section Runs

/-- Three quarters of the domain, of which the first two share a half. -/
def lower (id : Nat) : Point := ⟨id, 0, 0, 0⟩

def upper (id : Nat) : Point := ⟨id, 0, 2147483648, 4611686018427387904⟩

def right (id : Nat) : Point := ⟨id, 2147483648, 0, 9223372036854775808⟩

/-- A leaf with one record that the batch does not name. -/
theorem Remains.eq_one {p : Point} {i : Nat} (h : Remains store root Q (some a) i)
    (ha : store[a]? = some (.leafNode [p])) (hp : remaining [p] Q = 1) : i = 1 := by
  cases h with
  | reached ha' => rw [ha] at ha'; cases ha'; exact hp
  | other ha' => rw [ha] at ha'; cases ha'; rfl

/-- One record is deleted, and the interior node of the left half keeps two, where leaves hold one. -/
theorem leaf_casts_valid_kept :
    ∃ m, runCalls 1 [.build [lower 1, upper 2, right 3], .batchDeleteSorted [right 3],
      .persistent (.delete 0 [upper 2])] fresh = some m ∧ CastsValid 1 m := by
  refine leaf_casts_valid ⟨trivial, fun m hbuild => ?_⟩
  have hm : (Call.build [lower 1, upper 2, right 3]).apply 1 fresh = some
      { store := [.leafNode [lower 1], .leafNode [upper 2], .inteNode (some 0) (some 1) 2,
          .leafNode [right 3], .inteNode (some 2) (some 3) 3], vars := [some 4] } := by
    decide +kernel
  rw [hm, Option.some_inj] at hbuild
  subst hbuild
  refine ⟨?_, fun m' hdelete => ⟨?_, fun _ _ => trivial⟩⟩
  · intro root a l r n i j _ _ ha hi hj
    match a, ha with
    | 2, ha =>
      cases ha
      rw [hi.eq_one rfl (by decide +kernel), hj.eq_one rfl (by decide +kernel)]
      decide
    | 4, ha =>
      -- one of the sons is an interior node
      cases ha
      cases hi with
      | reached ha => cases ha
      | other ha => cases ha
    | 0, ha | 1, ha | 3, ha => cases ha
    | _ + 5, ha => cases ha
  · have hm' : (Call.batchDeleteSorted [right 3]).apply 1
        { store := [.leafNode [lower 1], .leafNode [upper 2], .inteNode (some 0) (some 1) 2,
            .leafNode [right 3], .inteNode (some 2) (some 3) 3], vars := [some 4] } = some
        { store := [.leafNode [lower 1], .leafNode [upper 2], .inteNode (some 0) (some 1) 2,
            .leafNode [], .inteNode (some 2) (some 3) 2], vars := [some 4] } := by
      decide +kernel
    rw [hm', Option.some_inj] at hdelete
    subst hdelete
    exact Nat.zero_lt_one

/-- Two records are deleted, and the interior node of the left half keeps one, where leaves hold two.
A persistent deletion in the right half then takes it for a leaf. -/
theorem underfull_cast_invalid :
    ∃ m x t, runCalls 2 [.build [lower 1, upper 2, upper 3, right 4, right 5],
        .batchDeleteSorted [upper 2, upper 3]] fresh = some m ∧ m.vars[0]? = some x ∧
      Store.Reads m.store x t ∧ Batch [lower 1, upper 2, upper 3, right 4, right 5] ∧
      Batch [upper 2, upper 3] ∧ Batch [right 5] ∧
      Tree.multiVersionBatchDeleteSorted 2 [right 5] t = none ∧ ¬CastsValid 2 m := by
  refine ⟨{ store := [.leafNode [lower 1], .leafNode [], .inteNode (some 0) (some 1) 1,
      .leafNode [right 4, right 5], .inteNode (some 2) (some 3) 3], vars := [some 4] }, some 4,
    .inteNode (.inteNode (.leafNode [lower 1]) (.leafNode []) 1) (.leafNode [right 4, right 5]) 3,
    by decide +kernel, rfl, ?_, ⟨by decide +kernel, by decide +kernel⟩,
    ⟨by decide +kernel, by decide +kernel⟩, ⟨by decide +kernel, by decide +kernel⟩,
    by decide +kernel, fun hvalid => ?_⟩
  · exact .inte rfl (.inte rfl (.leaf rfl) (.leaf rfl)) (.leaf rfl)
  · have hsome := hvalid (some 4) (by simp) [right 5]
    have hnone : Store.multiVersionBatchDeleteSorted 2 [.leafNode [lower 1], .leafNode [],
        .inteNode (some 0) (some 1) 1, .leafNode [right 4, right 5],
        .inteNode (some 2) (some 3) 3] [right 5] (some 4) = none := by
      decide +kernel
    rw [hnone] at hsome
    cases hsome

end Runs

end Silva
