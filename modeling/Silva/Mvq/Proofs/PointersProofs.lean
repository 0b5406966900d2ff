import Silva.Mvq.Collect
import Silva.Mvq.Pointers
import Silva.Mvq.Proofs.PersistenceProofs
import Silva.Mvq.Proofs.RangeProofs

/-!
# Proofs: no query dereferences null

On a tree whose levels fit into the depth of the walk, every query through pointers is the query on the
tree that is read. Only `range_count` has no answer on some trees: on null, unless the boxes are
disjoint.
-/

namespace Silva

open RefCount (Ptr Mem)
open Silva.Tree (Frame height)

namespace Store

variable {store : Store} {x x1 x2 : Ptr} {t t1 t2 : BaseNode}

/-- The levels of the sons of a node fit into one step less. -/
theorem height_sons {tl tr : BaseNode} {n depth : Nat} (h : height (.inteNode tl tr n) ≤ depth) :
    ∃ depth', depth = depth' + 1 ∧ height tl ≤ depth' ∧ height tr ≤ depth' := by
  cases depth with
  | zero => exact absurd h (Nat.not_succ_le_zero _)
  | succ depth => exact ⟨depth, rfl, max_le_iff.mp (Nat.le_of_succ_le_succ h)⟩

theorem height_lt (tl tr : BaseNode) (n : Nat) :
    height tl < height (.inteNode tl tr n) ∧ height tr < height (.inteNode tl tr n) :=
  ⟨Nat.lt_succ_of_le (le_max_left _ _), Nat.lt_succ_of_le (le_max_right _ _)⟩

/-! ## Range queries -/

theorem Reads.rangeCountNode (h : Reads store x t) (queryMbr : BoundingBox) :
    ∀ {depth : Nat} (fr : Frame), height t ≤ depth →
      Store.rangeCountNode (depth + 1) store x queryMbr fr =
        Tree.rangeCountNode t queryMbr fr.mbr fr.xPrefix fr.yPrefix fr.b fr.xSplitter := by
  induction h with
  | null => exact fun _ _ => rfl
  | leaf ha =>
    intro depth fr _
    rw [Store.rangeCountNode, Tree.rangeCountNode]
    simp only [deref, ha, Option.bind_eq_bind, Option.bind_some]
    rfl
  | inte ha hl hr ihl ihr =>
    intro depth fr hd
    obtain ⟨depth, rfl, hdl, hdr⟩ := height_sons hd
    rw [Store.rangeCountNode, Tree.rangeCountNode]
    simp only [deref, ha, Option.bind_eq_bind, Option.bind_some, ihl _ hdl, ihr _ hdr, ne_eq,
      hl.null_iff, hr.null_iff]
    rfl

theorem Reads.rangeReportNode (h : Reads store x t) (queryMbr : BoundingBox) :
    ∀ {depth : Nat} (fr : Frame), height t ≤ depth → ∀ ret : Nat × List Point,
      Store.rangeReportNode (depth + 1) store x queryMbr fr ret =
        some (Tree.rangeReportNode t queryMbr fr.mbr fr.xPrefix fr.yPrefix fr.b fr.xSplitter ret) := by
  induction h with
  | null => exact fun _ _ _ => rfl
  | leaf ha =>
    intro depth fr _ ret
    rw [Store.rangeReportNode, Tree.rangeReportNode, if_neg (Option.some_ne_none _)]
    split
    · rfl
    · simp only [deref, ha, Option.bind_eq_bind, Option.bind_some]
      rfl
  | inte ha hl hr ihl ihr =>
    intro depth fr hd ret
    obtain ⟨depth, rfl, hdl, hdr⟩ := height_sons hd
    rw [Store.rangeReportNode, Tree.rangeReportNode, if_neg (Option.some_ne_none _)]
    split
    · rfl
    · simp only [deref, ha, Option.bind_eq_bind, Option.bind_some, ihl _ hdl, ihr _ hdr]
      rfl

theorem Reads.collectRecords (h : Reads store x t) : ∀ {depth : Nat}, height t ≤ depth →
    Store.collectRecords (depth + 1) store x = some (Tree.collectRecords t) := by
  induction h with
  | null => exact fun _ => rfl
  | leaf ha =>
    intro depth _
    rw [Store.collectRecords, if_neg (Option.some_ne_none _)]
    simp only [deref, ha, Option.bind_eq_bind, Option.bind_some]
    rfl
  | inte ha hl hr ihl ihr =>
    intro depth hd
    obtain ⟨depth, rfl, hdl, hdr⟩ := height_sons hd
    rw [Store.collectRecords, if_neg (Option.some_ne_none _)]
    simp only [deref, ha, Option.bind_eq_bind, Option.bind_some, ihl hdl, ihr hdr]
    rfl

/-- The offset of the right call, read through the pointer to the left son. -/
theorem Reads.rCnt (h : Reads store x t) (cnt : Nat) :
    (if x ≠ none then do
        let n ← store.deref x
        return cnt + n.getNumPoints
      else some cnt) = some (Tree.rCnt t cnt) := by
  cases h with
  | null => rfl
  | leaf ha =>
    rw [if_pos (Option.some_ne_none _), deref, ha]
    rfl
  | inte ha =>
    rw [if_pos (Option.some_ne_none _), deref, ha]
    rfl

theorem Reads.collectRecordsOut (h : Reads store x t) : ∀ {depth : Nat}, height t ≤ depth →
    ∀ ret : List Point × Nat,
      Store.collectRecordsOut (depth + 1) store x ret = some (Tree.collectRecordsOut t ret) := by
  induction h with
  | null => exact fun _ _ => rfl
  | leaf ha =>
    intro depth _ ret
    rw [Store.collectRecordsOut, if_neg (Option.some_ne_none _)]
    simp only [deref, ha, Option.bind_eq_bind, Option.bind_some]
    rfl
  | @inte a n l r tl tr ha hl hr ihl ihr =>
    intro depth hd ret
    obtain ⟨depth, rfl, hdl, hdr⟩ := height_sons hd
    have hRCnt := hl.rCnt ret.2
    rw [Store.collectRecordsOut, if_neg (Option.some_ne_none _)]
    simp only [Option.bind_eq_bind] at hRCnt ⊢
    rw [deref, ha, Option.bind_some]
    simp only [hRCnt, Option.bind_some, ihl hdl, ihr hdr]
    rfl

theorem Reads.collectRecordsIn (h : Reads store x t) (queryMbr : BoundingBox) :
    ∀ {depth : Nat} (fr : Frame), height t ≤ depth →
      Store.collectRecordsIn (depth + 1) store x queryMbr fr =
        some (Tree.collectRecordsIn t queryMbr fr.mbr fr.xPrefix fr.yPrefix fr.b fr.xSplitter) := by
  induction h with
  | null => exact fun _ _ => rfl
  | leaf ha =>
    intro depth fr _
    rw [Store.collectRecordsIn, Tree.collectRecordsIn, if_neg (Option.some_ne_none _)]
    simp only [deref, ha, Option.bind_eq_bind, Option.bind_some]
    split <;> rfl
  | inte ha hl hr ihl ihr =>
    intro depth fr hd
    obtain ⟨depth, rfl, hdl, hdr⟩ := height_sons hd
    rw [Store.collectRecordsIn, Tree.collectRecordsIn, if_neg (Option.some_ne_none _)]
    simp only [deref, ha, Option.bind_eq_bind, Option.bind_some, ihl _ hdl, ihr _ hdr]
    split <;> rfl

/-! ## Nearest neighbours -/

theorem knnOffer_eq {k : Nat} (hk : 0 < k) (nnRes : List NnPair) (currentPair : NnPair) :
    knnOffer k nnRes currentPair = some (BoundedQueue.offer nnPairCmp k nnRes currentPair) := by
  unfold knnOffer BoundedQueue.offer
  by_cases h : nnRes.length < k
  · rw [if_pos h, if_pos h]
  · obtain ⟨t, rest, rfl⟩ := List.exists_cons_of_length_pos (hk.trans_le (not_lt.mp h))
    rw [if_neg h, if_neg h]
    rfl

theorem knnVisits_eq {k : Nat} (hk : 0 < k) (nnRes : List NnPair) (sqrdis : FT) :
    knnVisits k nnRes sqrdis = some (Tree.knnVisits k nnRes sqrdis) := by
  unfold knnVisits Tree.knnVisits
  by_cases h : nnRes.length < k
  · simp [h]
  · obtain ⟨t, rest, rfl⟩ := List.exists_cons_of_length_pos (hk.trans_le (not_lt.mp h))
    rw [if_neg h, decide_eq_false h]
    rfl

/-- A visit of a child that returns. -/
theorem knnVisit_eq {k : Nat} (hk : 0 < k) {son : List NnPair → Option (List NnPair)}
    {son' : List NnPair → List NnPair} (hson : ∀ nnRes, son nnRes = some (son' nnRes)) (sqrdis : FT)
    (nnRes : List NnPair) :
    (do
      if ← knnVisits k nnRes sqrdis then son nnRes else return nnRes) =
      some (if Tree.knnVisits k nnRes sqrdis then son' nnRes else nnRes) := by
  rw [knnVisits_eq hk, Option.bind_eq_bind, Option.bind_some, hson]
  split <;> rfl

theorem knnScan_eq {k : Nat} (hk : 0 < k) (queryPoint : Point) (records : List Point) :
    ∀ nnRes : List NnPair,
      records.foldlM (fun nnRes p => knnOffer k nnRes (p, pointPointSqrdis p queryPoint)) nnRes =
        some (Tree.knnScan k queryPoint records nnRes) := by
  induction records with
  | nil => exact fun _ => rfl
  | cons p records ih =>
    intro nnRes
    rw [List.foldlM_cons, knnOffer_eq hk, Option.bind_eq_bind, Option.bind_some, ih]
    rfl

theorem Reads.knnReportNode (h : Reads store x t) {k : Nat} (hk : 0 < k) (queryPoint : Point) :
    ∀ {depth : Nat} (fr : Frame), height t ≤ depth → ∀ nnRes : List NnPair,
      Store.knnReportNode (depth + 1) store x k queryPoint fr nnRes =
        some (Tree.knnReportNode t k queryPoint fr.mbr fr.xPrefix fr.yPrefix fr.b fr.xSplitter
          nnRes) := by
  induction h with
  | null => exact fun _ _ _ => rfl
  | leaf ha =>
    intro depth fr _ nnRes
    rw [Store.knnReportNode, if_neg (Option.some_ne_none _), deref, ha, Option.bind_eq_bind,
      Option.bind_some]
    exact knnScan_eq hk queryPoint _ nnRes
  | inte ha hl hr ihl ihr =>
    intro depth fr hd nnRes
    obtain ⟨depth, rfl, hdl, hdr⟩ := height_sons hd
    rw [Store.knnReportNode, if_neg (Option.some_ne_none _), deref, ha, Option.bind_eq_bind,
      Option.bind_some]
    simp only [knnVisit_eq hk (ihl _ hdl), knnVisit_eq hk (ihr _ hdr), Option.bind_eq_bind,
      Option.bind_some, ne_eq, hl.null_iff, hr.null_iff]
    unfold Tree.knnReportNode
    rw [Tree.knnReportNodeBy]
    rw [← apply_ite some]
    simp only [decide_eq_true_eq]
    rfl

/-! ## Differences -/

theorem Reads.leafInteDiff (h : Reads store x t) : ∀ {depth : Nat}, height t ≤ depth →
    ∀ (P : List Point) (b : Nat),
      Store.leafInteDiff (depth + 1) store P x b = some (Tree.leafInteDiff P t b) := by
  induction h with
  | null => exact fun _ _ _ => rfl
  | leaf ha =>
    intro depth _ P b
    rw [Store.leafInteDiff, if_neg (Option.some_ne_none _), deref, ha]
    rfl
  | inte ha hl hr ihl ihr =>
    intro depth hd P b
    obtain ⟨depth, rfl, hdl, hdr⟩ := height_sons hd
    rw [Store.leafInteDiff, if_neg (Option.some_ne_none _), deref, ha]
    simp only [Option.bind_eq_bind, Option.bind_some, ihl hdl, ihr hdr]
    rfl

/-- The comparisons of a walk are those of the pointers in the store. -/
def Compares (store : Store) (x1 x2 : Ptr) (ptr : PtrEq t1 t2) : Prop :=
  ∀ path, ptr.same path = decide (ptrAt store x1 path = ptrAt store x2 path)

theorem Compares.eq_iff {ptr : PtrEq t1 t2} (h : Compares store x1 x2 ptr) (h1 : Reads store x1 t1)
    (h2 : Reads store x2 t2) : ptr.eq = true ↔ x1 = x2 := by
  unfold PtrEq.eq
  rw [h [], Bool.or_eq_true, decide_eq_true_eq, decide_eq_true_eq, ← h1.null_iff, ← h2.null_iff]
  constructor
  · rintro (heq | ⟨rfl, rfl⟩)
    · exact heq
    · rfl
  · exact Or.inl

section Sons

variable {a1 a2 n1 n2 : Nat} {l1 r1 l2 r2 : Ptr} {tl1 tr1 tl2 tr2 : BaseNode}
  {ptr : PtrEq (.inteNode tl1 tr1 n1) (.inteNode tl2 tr2 n2)}
  (h : Compares store (some a1) (some a2) ptr) (ha1 : store[a1]? = some (.inteNode l1 r1 n1))
  (ha2 : store[a2]? = some (.inteNode l2 r2 n2))

include h ha1 ha2

/-- The comparisons below two interior nodes. -/
theorem Compares.sons (side : Bool) (path : List Bool) :
    ptr.same (side :: path) = decide
      (ptrAt store (if side then r1 else l1) path = ptrAt store (if side then r2 else l2) path) := by
  have hpath : ∀ a, ptrAt store (some a) (side :: path) = ptrAt store (son store (some a) side) path :=
    fun _ => rfl
  rw [← son_inte ha1, ← son_inte ha2, ← hpath, ← hpath]
  exact h (side :: path)

theorem Compares.left : Compares store l1 l2 ptr.left := fun path => h.sons ha1 ha2 false path

theorem Compares.right : Compares store r1 r2 ptr.right := fun path => h.sons ha1 ha2 true path

end Sons

theorem Reads.diff (h1 : Reads store x1 t1) : ∀ {x2 : Ptr} {t2 : BaseNode}, Reads store x2 t2 →
    ∀ {ptr : PtrEq t1 t2}, Compares store x1 x2 ptr → ∀ {depth : Nat}, height t1 ≤ depth →
      height t2 ≤ depth → ∀ b : Nat,
      Store.diff (depth + 1) store x1 x2 b = some (Tree.diff t1 t2 ptr b) := by
  induction h1 with
  | null =>
    intro x2 t2 h2 ptr hptr depth _ hd2 b
    unfold Store.diff Tree.diff
    by_cases heq : none = x2
    · rw [if_pos heq, if_pos ((hptr.eq_iff .null h2).mpr heq)]
    · rw [if_neg heq, if_neg (mt (hptr.eq_iff .null h2).mp heq), if_pos rfl, h2.collectRecords hd2]
      rfl
  | @leaf a1 P1 ha1 =>
    intro x2 t2 h2 ptr hptr depth hd1 hd2 b
    have h1 := Reads.leaf ha1
    unfold Store.diff Tree.diff
    by_cases heq : some a1 = x2
    · rw [if_pos heq, if_pos ((hptr.eq_iff h1 h2).mpr heq)]
    · rw [if_neg heq, if_neg (mt (hptr.eq_iff h1 h2).mp heq), if_neg (Option.some_ne_none _)]
      cases h2 with
      | null =>
        rw [if_pos rfl, h1.collectRecords hd1]
        rfl
      | leaf ha2 =>
        rw [if_neg (Option.some_ne_none _), deref, deref, ha1, ha2]
        rfl
      | inte ha2 hl2 hr2 =>
        rw [if_neg (Option.some_ne_none _), deref, deref, ha1, ha2]
        simp only [Option.bind_eq_bind, Option.bind_some]
        exact (Reads.inte ha2 hl2 hr2).leafInteDiff hd2 _ b
  | @inte a1 n1 l1 r1 tl1 tr1 ha1 hl1 hr1 ihl ihr =>
    intro x2 t2 h2 ptr hptr depth hd1 hd2 b
    have h1 := Reads.inte ha1 hl1 hr1
    unfold Store.diff Tree.diff
    by_cases heq : some a1 = x2
    · rw [if_pos heq, if_pos ((hptr.eq_iff h1 h2).mpr heq)]
    · rw [if_neg heq, if_neg (mt (hptr.eq_iff h1 h2).mp heq), if_neg (Option.some_ne_none _)]
      cases h2 with
      | null =>
        rw [if_pos rfl, h1.collectRecords hd1]
        rfl
      | leaf ha2 =>
        rw [if_neg (Option.some_ne_none _), deref, deref, ha1, ha2]
        simp only [Option.bind_eq_bind, Option.bind_some, h1.leafInteDiff hd1]
        rfl
      | inte ha2 hl2 hr2 =>
        obtain ⟨depth, rfl, hdl1, hdr1⟩ := height_sons hd1
        obtain ⟨_, hdepth, hdl2, hdr2⟩ := height_sons hd2
        cases hdepth
        rw [if_neg (Option.some_ne_none _), deref, deref, ha1, ha2]
        simp only [Option.bind_eq_bind, Option.bind_some, ihl hl2 (hptr.left ha1 ha2) hdl1 hdl2,
          ihr hr2 (hptr.right ha1 ha2) hdr1 hdr2]
        rfl

/-! ## Differences inside a query box -/

theorem Reads.leafInteDiffIn (h : Reads store x t) (queryMbr : BoundingBox) (reverse : Bool) :
    ∀ {depth : Nat}, height t ≤ depth → ∀ (P : List Point) (fr : Frame) (retDiff : DiffType),
      Store.leafInteDiffIn (depth + 1) store P x queryMbr fr retDiff reverse =
        some (Tree.leafInteDiffIn P t queryMbr fr.mbr fr.xPrefix fr.yPrefix fr.b fr.xSplitter retDiff
          reverse) := by
  induction h with
  | null =>
    intro depth _ P fr retDiff
    rw [Store.leafInteDiffIn, Tree.leafInteDiffIn]
    split <;> rfl
  | leaf ha =>
    intro depth _ P fr retDiff
    rw [Store.leafInteDiffIn, Tree.leafInteDiffIn, if_neg (Option.some_ne_none _), deref, ha]
    split <;> rfl
  | inte ha hl hr ihl ihr =>
    intro depth hd P fr retDiff
    obtain ⟨depth, rfl, hdl, hdr⟩ := height_sons hd
    rw [Store.leafInteDiffIn, Tree.leafInteDiffIn, if_neg (Option.some_ne_none _), deref, ha]
    split
    · rfl
    · simp only [Option.bind_eq_bind, Option.bind_some, ihl hdl, ihr hdr]
      rfl

/-- The two checks that `spatial_diff` starts with. -/
theorem spatialSkip_eq {ptr : PtrEq t1 t2} (hptr : Compares store x1 x2 ptr) (h1 : Reads store x1 t1)
    (h2 : Reads store x2 t2) {queryMbr curMbr : BoundingBox} {retDiff rest : DiffType}
    {rest' : Option DiffType} (hrest : x1 ≠ x2 → rest' = some rest) :
    (if mbrMbrRelation curMbr queryMbr < 0 then some retDiff
      else if x1 = x2 then some retDiff else rest') =
      some (Tree.spatialSkip ptr.eq queryMbr curMbr retDiff rest) := by
  unfold Tree.spatialSkip
  by_cases hneg : mbrMbrRelation curMbr queryMbr < 0
  · rw [if_pos hneg, if_pos hneg]
  · rw [if_neg hneg, if_neg hneg]
    by_cases heq : x1 = x2
    · rw [if_pos heq, if_pos ((hptr.eq_iff h1 h2).mpr heq)]
    · rw [if_neg heq, if_neg (mt (hptr.eq_iff h1 h2).mp heq), hrest heq]

theorem Reads.spatialDiff (h1 : Reads store x1 t1) (queryMbr : BoundingBox) :
    ∀ {x2 : Ptr} {t2 : BaseNode}, Reads store x2 t2 → ∀ {ptr : PtrEq t1 t2},
      Compares store x1 x2 ptr → ∀ {depth : Nat}, height t1 ≤ depth → height t2 ≤ depth →
      ∀ (fr : Frame) (retDiff : DiffType),
      Store.spatialDiff (depth + 1) store x1 x2 queryMbr fr retDiff =
        some (Tree.spatialDiff t1 t2 ptr queryMbr fr.mbr fr.xPrefix fr.yPrefix fr.b fr.xSplitter
          retDiff) := by
  induction h1 with
  | null =>
    intro x2 t2 h2 ptr hptr depth _ hd2 fr retDiff
    rw [Store.spatialDiff, Tree.spatialDiff]
    refine spatialSkip_eq hptr .null h2 fun _ => ?_
    rw [if_pos rfl, h2.rangeReportNode queryMbr fr hd2]
    rfl
  | @leaf a1 P1 ha1 =>
    intro x2 t2 h2 ptr hptr depth hd1 hd2 fr retDiff
    have h1 := Reads.leaf ha1
    cases h2 with
    | null =>
      rw [Store.spatialDiff, Tree.spatialDiff]
      refine spatialSkip_eq hptr h1 .null fun _ => ?_
      rw [if_neg (Option.some_ne_none _), if_pos rfl, h1.rangeReportNode queryMbr fr hd1]
      rfl
    | leaf ha2 =>
      rw [Store.spatialDiff, Tree.spatialDiff]
      refine spatialSkip_eq hptr h1 (.leaf ha2) fun _ => ?_
      rw [if_neg (Option.some_ne_none _), if_neg (Option.some_ne_none _), deref, deref, ha1, ha2]
      rfl
    | inte ha2 hl2 hr2 =>
      have h2 := Reads.inte ha2 hl2 hr2
      rw [Store.spatialDiff, Tree.spatialDiff]
      refine spatialSkip_eq hptr h1 h2 fun _ => ?_
      rw [if_neg (Option.some_ne_none _), if_neg (Option.some_ne_none _), deref, deref, ha1, ha2]
      exact h2.leafInteDiffIn queryMbr false hd2 P1 fr retDiff
  | @inte a1 n1 l1 r1 tl1 tr1 ha1 hl1 hr1 ihl ihr =>
    intro x2 t2 h2 ptr hptr depth hd1 hd2 fr retDiff
    have h1 := Reads.inte ha1 hl1 hr1
    cases h2 with
    | null =>
      rw [Store.spatialDiff, Tree.spatialDiff]
      refine spatialSkip_eq hptr h1 .null fun _ => ?_
      rw [if_neg (Option.some_ne_none _), if_pos rfl, h1.rangeReportNode queryMbr fr hd1]
      rfl
    | @leaf a2 P2 ha2 =>
      rw [Store.spatialDiff, Tree.spatialDiff]
      refine spatialSkip_eq hptr h1 (.leaf ha2) fun _ => ?_
      rw [if_neg (Option.some_ne_none _), if_neg (Option.some_ne_none _), deref, deref, ha1, ha2]
      exact h1.leafInteDiffIn queryMbr true hd1 P2 fr retDiff
    | inte ha2 hl2 hr2 =>
      obtain ⟨depth, rfl, hdl1, hdr1⟩ := height_sons hd1
      obtain ⟨_, hdepth, hdl2, hdr2⟩ := height_sons hd2
      cases hdepth
      rw [Store.spatialDiff, Tree.spatialDiff]
      refine spatialSkip_eq hptr h1 (.inte ha2 hl2 hr2) fun _ => ?_
      rw [if_neg (Option.some_ne_none _), if_neg (Option.some_ne_none _), deref, deref, ha1, ha2]
      simp only [Option.bind_eq_bind, Option.bind_some, ihl hl2 (hptr.left ha1 ha2) hdl1 hdl2,
        ihr hr2 (hptr.right ha1 ha2) hdr1 hdr2]
      rfl

/-! ## Spatial join -/

/-- The two checks that `spatial_join` starts with. -/
theorem joinSkip_eq (hx1 : x1 ≠ none) (hx2 : x2 ≠ none) {pointDis : FT} {fr1 fr2 : Frame}
    {joinRes rest : List (Point × Point)} {rest' : Option (List (Point × Point))}
    (hrest : rest' = some rest) :
    (if x1 = none ∨ x2 = none then some joinRes
      else if !mbrMbrWithinDis fr1.mbr fr2.mbr pointDis then some joinRes else rest') =
      some (if !mbrMbrWithinDis fr1.mbr fr2.mbr pointDis then joinRes else rest) := by
  rw [if_neg (not_or_intro hx1 hx2), hrest, apply_ite some]

theorem Reads.spatialJoinLeaf (pointDis : FT) {a1 : Nat} {P1 : List Point}
    (ha1 : store[a1]? = some (.leafNode P1)) (fr1 : Frame) (h2 : Reads store x2 t2) :
    ∀ {depth : Nat}, height t2 ≤ depth → ∀ (fr2 : Frame) (joinRes : List (Point × Point)),
      Store.spatialJoin pointDis (depth + 1) store (some a1) x2 fr1 fr2 joinRes =
        some (Tree.spatialJoinLeaf pointDis P1 fr1 t2 fr2 joinRes) := by
  induction h2 with
  | null =>
    intro depth _ fr2 joinRes
    rw [Store.spatialJoin, if_pos (Or.inr rfl)]
    rfl
  | leaf ha2 =>
    intro depth _ fr2 joinRes
    rw [Store.spatialJoin, Tree.spatialJoinLeaf]
    refine joinSkip_eq (Option.some_ne_none _) (Option.some_ne_none _) ?_
    rw [deref, deref, ha1, ha2]
    rfl
  | inte ha2 hl2 hr2 ihl ihr =>
    intro depth hd fr2 joinRes
    obtain ⟨depth, rfl, hdl, hdr⟩ := height_sons hd
    rw [Store.spatialJoin, Tree.spatialJoinLeaf]
    refine joinSkip_eq (Option.some_ne_none _) (Option.some_ne_none _) ?_
    rw [deref, deref, ha1, ha2]
    simp only [Option.bind_eq_bind, Option.bind_some, ihl hdl, ihr hdr]

/-- Each call descends by one level in at least one of the trees. -/
theorem Reads.spatialJoin (pointDis : FT) (h1 : Reads store x1 t1) :
    ∀ {x2 : Ptr} {t2 : BaseNode}, Reads store x2 t2 → ∀ {depth : Nat},
      height t1 + height t2 ≤ depth → ∀ (fr1 fr2 : Frame) (joinRes : List (Point × Point)),
      Store.spatialJoin pointDis (depth + 1) store x1 x2 fr1 fr2 joinRes =
        some (Tree.spatialJoin pointDis t1 t2 fr1 fr2 joinRes) := by
  induction h1 with
  | null =>
    intro x2 t2 _ depth _ fr1 fr2 joinRes
    rw [Store.spatialJoin, if_pos (Or.inl rfl), Tree.spatialJoin]
  | leaf ha1 =>
    intro x2 t2 h2 depth hd fr1 fr2 joinRes
    rw [Tree.spatialJoin]
    exact h2.spatialJoinLeaf pointDis ha1 fr1 ((Nat.le_add_left _ _).trans hd) fr2 joinRes
  | @inte a1 n1 l1 r1 tl1 tr1 ha1 hl1 hr1 ihl ihr =>
    intro x2 t2 h2 depth hd fr1 fr2 joinRes
    obtain ⟨hdl1, hdr1⟩ := height_lt tl1 tr1 n1
    cases h2 with
    | null => rw [Store.spatialJoin, if_pos (Or.inr rfl), Tree.spatialJoin]
    | @leaf a2 P2 ha2 =>
      have h2 := Reads.leaf ha2
      obtain ⟨depth, rfl⟩ : ∃ depth', depth = depth' + 1 := ⟨depth - 1, by omega⟩
      rw [Store.spatialJoin, Tree.spatialJoin]
      refine joinSkip_eq (Option.some_ne_none _) (Option.some_ne_none _) ?_
      rw [deref, deref, ha1, ha2]
      simp only [Option.bind_eq_bind, Option.bind_some]
      rw [ihl h2 (by omega), Option.bind_some, ihr h2 (by omega)]
    | @inte a2 n2 l2 r2 tl2 tr2 ha2 hl2 hr2 =>
      obtain ⟨hdl2, hdr2⟩ := height_lt tl2 tr2 n2
      obtain ⟨depth, rfl⟩ : ∃ depth', depth = depth' + 1 := ⟨depth - 1, by omega⟩
      rw [Store.spatialJoin, Tree.spatialJoin]
      refine joinSkip_eq (Option.some_ne_none _) (Option.some_ne_none _) ?_
      rw [deref, deref, ha1, ha2]
      simp only [Option.bind_eq_bind, Option.bind_some]
      rw [ihl hl2 (by omega), Option.bind_some, ihl hr2 (by omega), Option.bind_some,
        ihr hl2 (by omega), Option.bind_some, ihr hr2 (by omega)]

/-! ## All queries -/

/-- Counting below an interior node guards the null sons. -/
theorem rangeCountNode_isSome (queryMbr : BoundingBox) : ∀ {t : BaseNode}, t ≠ .nullptr →
    ∀ (fr : Frame), ∃ ret,
      Tree.rangeCountNode t queryMbr fr.mbr fr.xPrefix fr.yPrefix fr.b fr.xSplitter = some ret := by
  intro t
  induction t with
  | nullptr => exact fun hne => absurd rfl hne
  | leafNode records =>
    intro _ fr
    rw [Tree.rangeCountNode, ← apply_ite some, ← apply_ite some]
    exact ⟨_, rfl⟩
  | inteNode l r n ihl ihr =>
    intro _ fr
    have hson : ∀ {t : BaseNode} (fr : Frame), (t ≠ .nullptr → ∀ fr : Frame, ∃ ret,
        Tree.rangeCountNode t queryMbr fr.mbr fr.xPrefix fr.yPrefix fr.b fr.xSplitter = some ret) →
        ∃ ret, (if t ≠ .nullptr then
          Tree.rangeCountNode t queryMbr fr.mbr fr.xPrefix fr.yPrefix fr.b fr.xSplitter
        else some 0) = some ret := by
      intro t fr ih
      by_cases ht : t = .nullptr
      · exact ⟨0, if_neg (not_not_intro ht)⟩
      · rw [if_pos ht]
        exact ih ht fr
    obtain ⟨retL, hL⟩ := hson fr.children.1 ihl
    obtain ⟨retR, hR⟩ := hson fr.children.2 ihr
    rw [Tree.rangeCountNode]
    split
    · exact ⟨_, rfl⟩
    · split
      · exact ⟨_, rfl⟩
      · show ∃ ret, (do
            let retL ← (if l ≠ .nullptr then Tree.rangeCountNode l queryMbr fr.children.1.mbr
              fr.children.1.xPrefix fr.children.1.yPrefix fr.children.1.b fr.children.1.xSplitter
              else some 0)
            let retR ← (if r ≠ .nullptr then Tree.rangeCountNode r queryMbr fr.children.2.mbr
              fr.children.2.xPrefix fr.children.2.yPrefix fr.children.2.b fr.children.2.xSplitter
              else some 0)
            return retL + retR) = some ret
        rw [hL, hR]
        exact ⟨_, rfl⟩

/-- A version without records is null or an empty leaf, and a leaf counts and reports nothing. -/
theorem empty_queries {leafSize : Nat} (ht : Version leafSize t) (hnil : Tree.collectRecords t = [])
    (queryMbr curMbr : BoundingBox) :
    (t ≠ .nullptr → Tree.rangeCount t queryMbr curMbr = some 0) ∧
      ∀ cnt out, Tree.rangeReport t queryMbr curMbr cnt out = (cnt, out) := by
  have hw := ht.isVersion
  rw [hnil] at hw
  rcases WellFormed.of_nil hw with rfl | rfl
  · exact ⟨fun hne => absurd rfl hne, fun _ _ => rfl⟩
  · constructor
    · intro _
      unfold Tree.rangeCount
      rw [Tree.rangeCountNode]
      simp
    · intro cnt out
      unfold Tree.rangeReport
      rw [Tree.rangeReportNode]
      split <;> rfl

end Store

variable {leafSize : Nat} {m : Mem Node} {x y : Ptr}

open Store

/-- The root of a version, in a memory that a history leads to. -/
theorem Reachable.root (hm : Reachable leafSize m) (hx : x ∈ m.vars) :
    ∃ t, Reads m.store x t ∧ Version leafSize t ∧ height t ≤ 65 := by
  obtain ⟨versions, hstores⟩ := hm.stores
  obtain ⟨i, hi⟩ := List.mem_iff_getElem?.mp hx
  obtain ⟨t, -, hread, ht⟩ := hstores.var_iff hi
  exact ⟨t, hread, ht, Tree.height_le ht.isVersion⟩

/-- No null dereference. On the roots of a memory that a history leads to, all queries return, and the
empty version has count zero, exactly when the root is not null or the query misses its box. -/
theorem queries_answer_iff (hm : Reachable leafSize m) (hx : x ∈ m.vars) (hy : y ∈ m.vars)
    (queryMbr curMbr : BoundingBox) :
    Answers m.store x y queryMbr curMbr ↔ x ≠ none ∨ mbrMbrRelation curMbr queryMbr < 0 := by
  obtain ⟨t, hread, ht, hheight⟩ := hm.root hx
  obtain ⟨u, hready, hu, hheightu⟩ := hm.root hy
  have hcount : Store.rangeCount m.store x queryMbr curMbr = Tree.rangeCount t queryMbr curMbr :=
    hread.rangeCountNode queryMbr _ hheight
  have hreport : ∀ cnt out, Store.rangeReport m.store x queryMbr curMbr cnt out =
      some (Tree.rangeReport t queryMbr curMbr cnt out) := fun cnt out =>
    hread.rangeReportNode queryMbr _ hheight (cnt, out)
  have hcollect := hread.collectRecords hheight
  have hcompares : Compares m.store x y (ptrEq hread hready) := fun _ => rfl
  constructor
  · intro h
    by_contra hnot
    obtain ⟨hnull, hrel⟩ := not_or.mp hnot
    obtain ⟨ret, hret⟩ := h.rangeCount
    rw [hcount, hread.null_iff.mp (not_not.mp hnull), Tree.rangeCount, Tree.rangeCountNode,
      if_neg hrel] at hret
    exact Option.some_ne_none ret hret.symm
  · intro h
    have hnull : x = none → Tree.rangeCount t queryMbr curMbr = some 0 := by
      intro hx0
      rw [hread.null_iff.mp hx0, Tree.rangeCount, Tree.rangeCountNode,
        if_pos (h.resolve_left (not_not_intro hx0))]
    have hempty : Store.collectRecords 66 m.store x = some [] → Tree.collectRecords t = [] := by
      intro hnil
      exact Option.some.inj (hcollect.symm.trans hnil)
    exact
      { rangeCount := by
          rw [hcount]
          by_cases hx0 : x = none
          · exact ⟨0, hnull hx0⟩
          · exact rangeCountNode_isSome queryMbr (mt hread.null_iff.mpr hx0) (.root curMbr)
        rangeReport := fun cnt out => ⟨_, hreport cnt out⟩
        knnReport := fun k hk queryPoint =>
          ⟨_, hread.knnReportNode hk queryPoint _ hheight []⟩
        collectRecords := ⟨_, hcollect⟩
        collectRecordsOut := fun out cnt => ⟨_, hread.collectRecordsOut hheight (out, cnt)⟩
        collectRecordsIn := ⟨_, hread.collectRecordsIn queryMbr _ hheight⟩
        twoVersionDiff := ⟨_, hread.diff hready hcompares hheight hheightu 64⟩
        spatialTwoVersionDiff := fun retDiff =>
          ⟨_, hread.spatialDiff queryMbr hready hcompares hheight hheightu _ retDiff⟩
        twoVersionSpatialJoin := fun pointDis joinRes mbr1 mbr2 =>
          ⟨_, hread.spatialJoin pointDis hready (Nat.add_le_add hheight hheightu) _ _ joinRes⟩
        emptyCount := by
          intro hnil
          rw [hcount]
          by_cases hx0 : x = none
          · exact hnull hx0
          · exact (empty_queries ht (hempty hnil) queryMbr curMbr).1 (mt hread.null_iff.mpr hx0)
        emptyReport := by
          intro hnil cnt out
          rw [hreport, (empty_queries ht (hempty hnil) queryMbr curMbr).2] }

/-- A version whose root has no right son, compared with itself. -/
theorem queries_answer_iff_left :
    ∃ m x l, Reachable 1 m ∧ x ∈ m.vars ∧ Reads m.store x (.inteNode l .nullptr 2) ∧
      Answers m.store x x ⟨.ofXY 0 0, .ofXY 3 3⟩ ⟨.ofXY 0 0, .ofXY 6 6⟩ := by
  obtain ⟨store, x, hbuild, hupd⟩ := Store.build_updated 1 [] [⟨5, 1, 1, 3⟩, ⟨9, 5, 6, 54⟩]
  have hm := Reachable.build ⟨by decide +kernel, by decide +kernel⟩ hbuild
  have hroot : ∃ l, Tree.build 1 [⟨5, 1, 1, 3⟩, ⟨9, 5, 6, 54⟩] = .inteNode l .nullptr 2 := ⟨_, rfl⟩
  obtain ⟨l, hl⟩ := hroot
  have hread := hupd.reads
  rw [hl] at hread
  refine ⟨_, x, l, hm, List.mem_cons_self, hread, ?_⟩
  refine (queries_answer_iff hm List.mem_cons_self List.mem_cons_self _ _).mpr (Or.inl ?_)
  rw [ne_eq, hread.null_iff]
  exact BaseNode.noConfusion

/-- Counting in the empty version dereferences null. -/
theorem empty_version_count :
    ∃ m x, Reachable 4 m ∧ x ∈ m.vars ∧ Store.collectRecords 66 m.store x = some [] ∧
      Store.rangeCount m.store x ⟨.ofXY 0 0, .ofXY 3 3⟩ ⟨.ofXY 0 0, .ofXY 6 6⟩ = none := by
  have hm : Reachable 4 { store := [], vars := [none] } := .build .nil rfl
  exact ⟨_, none, hm, List.mem_cons_self, rfl, by decide +kernel⟩

end Silva
