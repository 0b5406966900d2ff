import Silva.Mvq.InPlace
import Silva.Mvq.Proofs.PersistenceProofs
import Silva.Mvq.Proofs.PositionProofs

/-!
# Proofs: in-place updates against persistent ones

On a root that reads as a version, `batch_insert_sorted` leaves the tree behind that the persistent
insertion returns. `batch_delete_sorted` leaves another shape behind, with the records of the tree
that the persistent deletion returns and with exact counts.
-/

namespace Silva

open RefCount (Ptr Mem Reach Extends ExtendsBut)
open Node (sons)

/-! ## Counts -/

namespace Tree

/-- `num_pts` is the number of records below every interior node. -/
def CountsExact : BaseNode → Prop
  | .nullptr => True
  | .leafNode _ => True
  | .inteNode lSon rSon numPts => CountsExact lSon ∧ CountsExact rSon ∧
      numPts = (collectRecords lSon ++ collectRecords rSon).length

variable {t tl tr : BaseNode}

theorem CountsExact.getNumPoints (h : CountsExact t) :
    t.getNumPoints = (collectRecords t).length := by
  cases t with
  | nullptr => rfl
  | leafNode records => rfl
  | inteNode lSon rSon numPts => exact h.2.2

theorem CountsExact.createInternal (hl : CountsExact tl) (hr : CountsExact tr) :
    CountsExact (createInternal tl tr) := by
  refine ⟨hl, hr, ?_⟩
  rw [hl.getNumPoints, hr.getNumPoints, List.length_append]

end Tree

open Silva.Tree (CountsExact)

theorem WellFormed.countsExact {leafSize b c : Nat} {t : BaseNode} {P : List Point}
    (h : WellFormed leafSize b c t P) : CountsExact t := by
  induction h with
  | null b c => trivial
  | leaf cell fits => trivial
  | inte left right hl hr large ihl ihr =>
    refine ⟨ihl, ihr, ?_⟩
    rw [left.collectRecords, right.collectRecords, List.length_append]

namespace Store

variable {leafSize b k : Nat} {store store' store1 store2 : Store} {x x' l r l' r' : Ptr}
  {t t' tl tr tl' tr' : BaseNode} {a c n : Nat} {P A B Q QA QB : List Point}

/-! ## The two sons of a node have no node in common -/

/-- The sons of a node do not reach the node, and they reach different nodes. -/
structure SonsApart (store : Store) (a : Nat) (l r : Ptr) : Prop where
  left : ∀ c, Reach sons store l c → c ≠ a
  right : ∀ c, Reach sons store r c → c ≠ a
  disjoint : ∀ c, Reach sons store l c → ¬Reach sons store r c

theorem Reads.sonsApart (ha : store[a]? = some (.inteNode l r (A.length + B.length)))
    (hreadL : Reads store l tl) (hreadR : Reads store r tr)
    (left : WellFormed leafSize b (2 * k) tl A) (right : WellFormed leafSize b (2 * k + 1) tr B)
    (hl : A = [] → tl = .nullptr) (hr : B = [] → tr = .nullptr)
    (large : leafSize < A.length + B.length) : SonsApart store a l r := by
  have hread : Reads store (some a) (.inteNode tl tr (A.length + B.length)) :=
    .inte ha hreadL hreadR
  have hw := WellFormed.inte left right hl hr large
  have hlen : leafSize < (A ++ B).length := by rwa [List.length_append]
  refine ⟨?_, ?_, fun c => hreadL.disjoint hreadR left right hl⟩
  · rintro c hc rfl
    rcases hreadL.level_of_reach left hw hread hlen hc with ⟨h, -⟩ | h <;> omega
  · rintro c hc rfl
    rcases hreadR.level_of_reach right hw hread hlen hc with ⟨h, -⟩ | h <;> omega

/-! ## Overwriting the nodes of a tree -/

/-- The tree at `x` is overwritten: `x'` reads as `t'`, the nodes that `x` does not reach stay, and
`x'` uses nodes of `x` and fresh ones. -/
structure Overwritten (store : Store) (x : Ptr) (store' : Store) (x' : Ptr) (t' : BaseNode) :
    Prop where
  reads : Reads store' x' t'
  frame : ∀ c m, ¬Reach sons store x c → store[c]? = some m → store'[c]? = some m
  fresh : ∀ c, Reach sons store' x' c → Reach sons store x c ∨ store.length ≤ c
  length_le : store.length ≤ store'.length

theorem Updated.overwritten (h : Updated store x store' x' t') :
    Overwritten store x store' x' t' :=
  ⟨h.reads, fun c m _ hm => h.extend c m hm, h.fresh, h.extend.length_le⟩

theorem Overwritten.refl (h : Reads store x t) : Overwritten store x store x t :=
  (Updated.refl h).overwritten

/-- New records in a leaf. -/
theorem Overwritten.set_leaf (ha : store[a]? = some (.leafNode P)) (Q : List Point) :
    Overwritten store (some a) (store.set a (.leafNode Q)) (some a) (.leafNode Q) := by
  have hlt := (List.getElem?_eq_some_iff.mp ha).1
  have hset : (store.set a (.leafNode Q))[a]? = some (.leafNode Q) := List.getElem?_set_self hlt
  refine ⟨.leaf hset, fun c m hc hm => ?_, fun c hc => ?_, by simp⟩
  · rwa [List.getElem?_set_ne (by rintro rfl; exact hc (.here _))]
  · cases hc with
    | here => exact Or.inl (.here _)
    | child hn hy hc => rw [hset] at hn; cases hn; simp [sons] at hy

/-- A tree that reaches none of the overwritten nodes. -/
theorem Overwritten.reads_other (h : Overwritten store l store' l' tl') (hread : Reads store r tr)
    (hdisj : ∀ c, Reach sons store l c → ¬Reach sons store r c) : Reads store' r tr :=
  hread.frame fun c m hc hm => h.frame c m (fun hl => hdisj c hl hc) hm

/-- The sons of the node at `a` are overwritten, one after the other, and stored with a count. -/
theorem Overwritten.mergeNodes (ha : store[a]? = some (.inteNode l r n))
    (hapart : SonsApart store a l r) (hreadR : Reads store r tr)
    (hl : Overwritten store l store1 l' tl') (hr : Overwritten store1 r store2 r' tr') :
    ∃ store3, mergeNodes store2 l' r' a = some store3 ∧
      Overwritten store (some a) store3 (some a) (Tree.createInternal tl' tr') := by
  have hlt := (List.getElem?_eq_some_iff.mp ha).1
  have hreachR : ∀ c, Reach sons store1 r c ↔ Reach sons store r c := fun c =>
    hreadR.reach_iff fun c m hc hm => hl.frame c m (fun h => hapart.disjoint c h hc) hm
  have hframeR : ∀ c m, ¬Reach sons store r c → store1[c]? = some m → store2[c]? = some m :=
    fun c m hc hm => hr.frame c m (fun h => hc ((hreachR c).mp h)) hm
  -- the nodes of the new left son are not touched by the second update
  have hframeL : ∀ c m, Reach sons store1 l' c → store1[c]? = some m → store2[c]? = some m := by
    refine fun c m hc hm => hframeR c m (fun hcr => ?_) hm
    rcases hl.fresh c hc with h | h
    · exact hapart.disjoint c h hcr
    · have := hreadR.lt_length hcr
      omega
  have ha2 : store2[a]? = some (.inteNode l r n) := by
    refine hframeR a _ (fun h => hapart.right a h rfl) (hl.frame a _ (fun h => ?_) ha)
    exact hapart.left a h rfl
  have hinside : ∀ {c : Nat} {y : Ptr}, y ∈ sons (.inteNode l r n) → Reach sons store y c →
      Reach sons store (some a) c := fun hy hc => .child ha hy hc
  have hsons : SonsUpdated (fun c => Reach sons store (some a) c ∨ store.length ≤ c) store2 a
      store2 l' r' tl' tr' := by
    refine ⟨(Extends.refl store2).extendsBut, hl.reads.frame hframeL, hr.reads, fun c hc => ?_,
      fun c hc => ?_⟩
    · rcases hl.fresh c ((hl.reads.reach_iff hframeL).mp hc) with h | h
      · exact ⟨hapart.left c h, Or.inl (hinside (by simp [sons]) h)⟩
      · exact ⟨by omega, Or.inr h⟩
    · rcases hr.fresh c hc with h | h
      · have h := (hreachR c).mp h
        exact ⟨hapart.right c h, Or.inl (hinside (by simp [sons]) h)⟩
      · have := hl.length_le
        exact ⟨by omega, Or.inr (by omega)⟩
  obtain ⟨store3, hmerge, hsons3, hbut, ha3⟩ :=
    hsons.mergeNodes (List.getElem?_eq_some_iff.mp ha2).1
  refine ⟨store3, hmerge, .inte ha3 hsons3.readsL hsons3.readsR, fun c m hc hm => ?_,
    fun c hc => ?_, ?_⟩
  · have hca : c ≠ a := by
      rintro rfl
      exact hc (.here _)
    refine hbut c m hca (hframeR c m (fun h => hc (hinside (by simp [sons]) h)) ?_)
    exact hl.frame c m (fun h => hc (hinside (by simp [sons]) h)) hm
  · rcases hsons3.reach ha3 hc with rfl | h
    · exact Or.inl (.here _)
    · exact h
  · have hlen3 : store2.length ≤ store3.length := by
      unfold Store.mergeNodes at hmerge
      obtain ⟨i, -, hmerge⟩ := Option.bind_eq_some_iff.mp hmerge
      obtain ⟨j, -, hmerge⟩ := Option.bind_eq_some_iff.mp hmerge
      cases hmerge
      simp
    have := hl.length_le
    have := hr.length_le
    omega

/-! ## Insertion -/

theorem insertInPlace_inte (ha : store[a]? = some (.inteNode l r n)) (hQA : Cell b (2 * k) QA)
    (hQB : Cell b (2 * k + 1) QB) :
    batchInsertSortedNode leafSize (b + 1) store (some a) (QA ++ QB) = (do
      let (store, lSon) ← (if QA = [] then some (store, l)
        else batchInsertSortedNode leafSize b store l QA)
      let (store, rSon) ← (if QB = [] then some (store, r)
        else batchInsertSortedNode leafSize b store r QB)
      let store ← mergeNodes store lSon rSon a
      return (store, some a)) := by
  rw [batchInsertSortedNode, ha]
  simp only [splitByBit_append hQA hQB, List.take_left, List.drop_left, Option.bind_eq_bind,
    Option.bind_some]
  by_cases hA0 : QA = [] <;> by_cases hB0 : QB = [] <;> simp [hA0, hB0, List.length_pos_iff]

/-- A son is overwritten only when its part of the batch is not empty. -/
theorem son_overwritten {f : Option (Store × Ptr)} {insert : BaseNode} (hread : Reads store x t)
    (hf : ∃ store' x', f = some (store', x') ∧ Overwritten store x store' x' insert) :
    ∃ store' x', (if Q = [] then some (store, x) else f) = some (store', x') ∧
      Overwritten store x store' x' (if Q = [] then t else insert) := by
  by_cases hQ : Q = []
  · rw [if_pos hQ, if_pos hQ]
    exact ⟨store, x, rfl, .refl hread⟩
  · rw [if_neg hQ, if_neg hQ]
    exact hf

/-- Inserting in place: the tree that is left behind is the one of the persistent insertion. -/
theorem insertInPlace_overwritten (h : WellFormed leafSize b k t P) :
    ∀ {store : Store} {x : Ptr} {Q : List Point}, Reads store x t → Cell b k Q →
      ∃ store' x', batchInsertSortedNode leafSize b store x Q = some (store', x') ∧
        Overwritten store x store' x' (Tree.multiVersionBatchInsertSortedNode leafSize t Q b) := by
  induction h with
  | null b k =>
    intro store x Q hread _
    obtain rfl := hread.null_iff.mpr rfl
    obtain ⟨store', x', hbuild, hupd⟩ := buildNode_updated leafSize b store Q
    refine ⟨store', x', ?_, hupd.overwritten⟩
    rw [batchInsertSortedNode, hbuild]
  | @leaf b k P cell fits =>
    intro store x Q hread _
    obtain ⟨a, rfl, ha⟩ := hread.exists_leaf
    rw [batchInsertSortedNode, ha, Tree.multiVersionBatchInsertSortedNode]
    simp only [Option.bind_eq_bind, Option.bind_some]
    by_cases hfit : b = 0 ∨ P.length + Q.length ≤ leafSize
    · rw [if_pos hfit, if_pos hfit]
      exact ⟨_, _, rfl, .set_leaf ha _⟩
    · rw [if_neg hfit, if_neg hfit]
      obtain ⟨store', x', hbuild, hupd⟩ := buildNode_updated leafSize b store
        (parlayMerge mortonCmp P Q)
      refine ⟨store', x', hbuild, Updated.overwritten ⟨hupd.extend, hupd.reads, fun c hc => ?_⟩⟩
      exact Or.inr ((hupd.fresh c hc).resolve_left Reach.not_null)
  | @inte b k tl tr A B left right hl hr large ihl ihr =>
    intro store x Q hread hQ
    obtain ⟨QA, QB, rfl, -, hQA, hQB⟩ := hQ.split
    cases hread with
    | @inte a _ l r _ _ ha hreadL hreadR =>
      have hapart := Reads.sonsApart ha hreadL hreadR left right hl hr large
      obtain ⟨store1, l', hrunL, hol⟩ := son_overwritten (Q := QA) hreadL (ihl hreadL hQA)
      have hreadR1 := hol.reads_other hreadR hapart.disjoint
      obtain ⟨store2, r', hrunR, hor⟩ := son_overwritten (Q := QB) hreadR1 (ihr hreadR1 hQB)
      obtain ⟨store3, hmerge, ho⟩ := hol.mergeNodes ha hapart hreadR hor
      refine ⟨store3, some a, ?_, ?_⟩
      · rw [insertInPlace_inte ha hQA hQB, hrunL]
        simp only [Option.bind_eq_bind, Option.bind_some, hrunR, hmerge]
        rfl
      · rw [Silva.insertNode_inte hQA hQB]
        exact ho

/-! ## Deletion -/

theorem deleteInPlace_inte (ha : store[a]? = some (.inteNode l r n)) (hQA : Cell b (2 * k) QA)
    (hQB : Cell b (2 * k + 1) QB) :
    batchDeleteSortedNode (b + 1) store (some a) (QA ++ QB) = (do
      let store ← (if QA = [] then some store else batchDeleteSortedNode b store l QA)
      let store ← (if QB = [] then some store else batchDeleteSortedNode b store r QB)
      mergeNodes store l r a) := by
  rw [batchDeleteSortedNode, ha]
  simp only [splitByBit_append hQA hQB, List.take_left, List.drop_left, Option.bind_eq_bind,
    Option.bind_some]
  by_cases hA0 : QA = [] <;> by_cases hB0 : QB = [] <;> simp [hA0, hB0, List.length_pos_iff]

/-- The batch is deleted from the records of the tree at `x`, and the counts are set. -/
structure DeletedInPlace (store : Store) (x : Ptr) (P Q : List Point) (store' : Store)
    (t' : BaseNode) : Prop where
  overwritten : Overwritten store x store' x t'
  counts : CountsExact t'
  records : Tree.collectRecords t' = survivors P Q

theorem son_deleted {f : Option Store} (h : WellFormed leafSize b k t P)
    (hread : Reads store x t)
    (hf : ∃ store' t', f = some store' ∧ DeletedInPlace store x P Q store' t') :
    ∃ store' t', (if Q = [] then some store else f) = some store' ∧
      DeletedInPlace store x P Q store' t' := by
  by_cases hQ : Q = []
  · subst hQ
    refine ⟨store, t, if_pos rfl, .refl hread, h.countsExact, ?_⟩
    rw [h.collectRecords, survivors_nil_right]
  · rw [if_neg hQ]
    exact hf

/-- Deleting in place: the survivors stay where they are. -/
theorem deleteInPlace_spec (h : WellFormed leafSize b k t P) :
    ∀ {store : Store} {x : Ptr} {Q : List Point}, Reads store x t → Cell b k Q →
      ∃ store' t', batchDeleteSortedNode b store x Q = some store' ∧
        DeletedInPlace store x P Q store' t' := by
  induction h with
  | null b k =>
    intro store x Q hread _
    obtain rfl := hread.null_iff.mpr rfl
    refine ⟨store, .nullptr, ?_, .refl .null, trivial, ?_⟩
    · rw [batchDeleteSortedNode]
    · rw [survivors_nil_left]
      rfl
  | @leaf b k P cell fits =>
    intro store x Q hread _
    obtain ⟨a, rfl, ha⟩ := hread.exists_leaf
    rw [batchDeleteSortedNode, ha]
    refine ⟨_, _, rfl, .set_leaf ha _, trivial, ?_⟩
    -- what the loop of `merge_pts` removes is what the loop of `get_delete_p` keeps
    rw [mergePts_eq]
    rfl
  | @inte b k tl tr A B left right hl hr large ihl ihr =>
    intro store x Q hread hQ
    obtain ⟨QA, QB, rfl, -, hQA, hQB⟩ := hQ.split
    cases hread with
    | @inte a _ l r _ _ ha hreadL hreadR =>
      have hapart := Reads.sonsApart ha hreadL hreadR left right hl hr large
      obtain ⟨store1, tl', hrunL, hol, hcl, hsl⟩ := son_deleted left hreadL (ihl hreadL hQA)
      have hreadR1 := hol.reads_other hreadR hapart.disjoint
      obtain ⟨store2, tr', hrunR, hor, hcr, hsr⟩ := son_deleted right hreadR1 (ihr hreadR1 hQB)
      obtain ⟨store3, hmerge, ho⟩ := hol.mergeNodes ha hapart hreadR hor
      refine ⟨store3, _, ?_, ho, hcl.createInternal hcr, ?_⟩
      · rw [deleteInPlace_inte ha hQA hQB, hrunL]
        simp only [Option.bind_eq_bind, Option.bind_some, hrunR, hmerge]
      · rw [survivors_append (left.cell.below hQB (by omega)) (hQA.below right.cell (by omega)),
          ← hsl, ← hsr]
        rfl

/-! ## Whole trees -/

/-- An empty batch changes nothing. -/
theorem insert_nil (h : WellFormed leafSize b k t P) (ht : t ≠ .nullptr) :
    Tree.multiVersionBatchInsertSortedNode leafSize t [] b = t := by
  cases h with
  | null => exact absurd rfl ht
  | leaf cell fits =>
    rw [Tree.multiVersionBatchInsertSortedNode, if_pos (by simpa using fits), parlayMerge_nil_right]
  | @inte b k tl tr A B left right hl hr large =>
    have h : Tree.multiVersionBatchInsertSortedNode leafSize
        (.inteNode tl tr (A.length + B.length)) ([] ++ []) (b + 1) = Tree.createInternal tl tr :=
      Silva.insertNode_inte (.nil b (2 * k)) (.nil b (2 * k + 1)) tl tr _
    rw [List.append_nil] at h
    rw [h, Tree.createInternal, left.getNumPoints, right.getNumPoints]

theorem batchInsertSorted_overwritten (ht : Version leafSize t) (hread : Reads store x t)
    (hx : x ≠ none) (hQ : Batch Q) :
    ∃ store' x', batchInsertSorted leafSize store x Q = some (store', x') ∧
      Overwritten store x store' x' (Tree.multiVersionBatchInsertSorted leafSize Q t) := by
  unfold batchInsertSorted Tree.multiVersionBatchInsertSorted
  cases Q with
  | nil =>
    rw [insert_nil ht.isVersion fun h => hx (hread.null_iff.mpr h)]
    exact ⟨store, x, rfl, .refl hread⟩
  | cons p Q =>
    rw [if_neg (by simp), if_neg hx]
    exact insertInPlace_overwritten ht.isVersion hread hQ.cell

theorem batchDeleteSorted_spec (ht : Version leafSize t) (hread : Reads store x t)
    (hx : x ≠ none) (hQ : Batch Q) :
    ∃ store' t', batchDeleteSorted store x Q = some store' ∧
      DeletedInPlace store x (Tree.collectRecords t) Q store' t' := by
  unfold batchDeleteSorted
  cases Q with
  | nil =>
    refine ⟨store, t, rfl, .refl hread, ht.isVersion.countsExact, ?_⟩
    rw [survivors_nil_right]
  | cons p Q =>
    rw [if_neg (by simp [hx])]
    exact deleteInPlace_spec ht.isVersion hread hQ.cell

/-- The in-place updates against the persistent ones, on a root that is not null and reads as a
version. Both insertions leave a root that reads as one and the same tree. After both deletions the
records are the same, in the same order, and every interior node counts the records below it. -/
theorem in_place_agrees (ht : Version leafSize t) (hread : Reads store x t) (hx : x ≠ none)
    (hQ : Batch Q) :
    (∃ store' root store'' newRoot t',
      batchInsertSorted leafSize store x Q = some (store', root) ∧
      multiVersionBatchInsertSorted leafSize store Q x = some (store'', newRoot) ∧
      Reads store' root t' ∧ Reads store'' newRoot t') ∧
    ∃ store' store'' newRoot t' t'',
      batchDeleteSorted store x Q = some store' ∧
      multiVersionBatchDeleteSorted leafSize store Q x = some (store'', newRoot) ∧
      Reads store' x t' ∧ Reads store'' newRoot t'' ∧
      Tree.collectRecords t' = Tree.collectRecords t'' ∧ CountsExact t' ∧ CountsExact t'' := by
  constructor
  · obtain ⟨store', root, hrun, ho⟩ := batchInsertSorted_overwritten ht hread hx hQ
    obtain ⟨store'', newRoot, hrun', hupd, -⟩ := insert_updated ht hread hQ
    exact ⟨store', root, store'', newRoot, _, hrun, hrun', ho.reads, hupd.reads⟩
  · obtain ⟨store', t', hrun, hdel⟩ := batchDeleteSorted_spec ht hread hx hQ
    obtain ⟨t'', ht'', hw⟩ := IsVersion.delete ht.isVersion hQ
    obtain ⟨store'', newRoot, hrun', hupd, -⟩ := delete_updated ht hread hQ ht''
    refine ⟨store', store'', newRoot, t', t'', hrun, hrun', hdel.overwritten.reads, hupd.reads, ?_,
      hdel.counts, WellFormed.countsExact hw⟩
    rw [hdel.records, WellFormed.collectRecords hw]

/-- A tree with two records in leaves of their own, and a batch that names one of them. -/
theorem in_place_agrees_two :
    ∃ store x t, Version 1 t ∧ Reads store x t ∧ x ≠ none ∧
      (∃ store' root store'' newRoot t',
        batchInsertSorted 1 store x [⟨5, 1, 1, 3⟩] = some (store', root) ∧
        multiVersionBatchInsertSorted 1 store [⟨5, 1, 1, 3⟩] x = some (store'', newRoot) ∧
        Reads store' root t' ∧ Reads store'' newRoot t') ∧
      ∃ store' store'' newRoot t' t'',
        batchDeleteSorted store x [⟨5, 1, 1, 3⟩] = some store' ∧
        multiVersionBatchDeleteSorted 1 store [⟨5, 1, 1, 3⟩] x = some (store'', newRoot) ∧
        Reads store' x t' ∧ Reads store'' newRoot t'' ∧
        Tree.collectRecords t' = Tree.collectRecords t'' ∧ CountsExact t' ∧ CountsExact t'' := by
  obtain ⟨store, x, -, hupd⟩ := build_updated 1 [] [⟨5, 1, 1, 3⟩, ⟨9, 5, 6, 54⟩]
  have ht : Version 1 (Tree.build 1 [⟨5, 1, 1, 3⟩, ⟨9, 5, 6, 54⟩]) :=
    .build ⟨by decide +kernel, by decide +kernel⟩
  have hx : x ≠ none := fun h => absurd (hupd.reads.null_iff.mp h) (by decide +kernel)
  exact ⟨store, x, _, ht, hupd.reads, hx,
    in_place_agrees ht hupd.reads hx ⟨by decide +kernel, by decide +kernel⟩⟩

end Store

end Silva
