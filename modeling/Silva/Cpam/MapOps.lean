import Silva.Cpam.SequenceOps
import Silva.Lib.Search
import Silva.Lib.TwoPointer

/-!
# Maps (`third_party/cpam/map_ops.h`)

The operations that compare keys. The base cases merge two sorted buffers with a two-pointer loop: what
an operation does is the output of each iteration. `none` is as in the joins.
-/

namespace Silva

namespace Cpam

open Node TwoPointer

variable {K V A : Type*} [LinearOrder K] (ent : Entry K V A) (B : ℕ)

/-! ## Looking for a key -/

/-- `find`, with `find_compressed`: the last entry of a block that matches. -/
def find : Node K V A → K → Option (K × V)
  | null, _ => none
  | compressed es _, key =>
    es.foldl (fun ret et => if !(key < et.1 || et.1 < key) then some et else ret) none
  | regular lc e rc _ _, key =>
    if key < e.1 then find lc key
    else if e.1 < key then find rc key
    else some e

/-- `PAM_binary_search`. -/
def pamBinarySearch {α : Type*} (as : List α) (less : α → Bool) : ℕ :=
  Search.partitionPoint (fun i => as[i]?.any less) 16 0 as.length

/-- `find2`: a block is searched by bisection, as the default encoder does. -/
def find2 : Node K V A → K → Option (K × V)
  | null, _ => none
  | compressed es _, key =>
    es[pamBinarySearch es fun et => et.1 < key]?.filter fun et => !(et.1 < key || key < et.1)
  | regular lc e rc _ _, key =>
    if key < e.1 then find2 lc key
    else if e.1 < key then find2 rc key
    else some e

def rank : Node K V A → K → ℕ → ℕ
  | null, _, sum => sum
  | compressed es _, key, sum => es.foldl (fun sum et => if et.1 < key then sum + 1 else sum) sum
  | regular lc e rc _ _, key, sum =>
    if e.1 < key then rank rc key (sum + lc.size + 1)
    else if !(key < e.1) then sum + lc.size
    else rank lc key sum

/-! ## Two trees -/

/-- `split_info`. -/
structure SplitInfo (K V A : Type*) where
  /-- The entries below the key. -/
  l : Node K V A
  /-- The entry under the key. -/
  mid : Option (K × V)
  /-- The entries above the key. -/
  r : Node K V A

def split (a : Node K V A) (k : K) : Option (SplitInfo K V A) :=
  if a.isNull then some ⟨null, none, null⟩
  else
    match _h : expose ent B a with
    | none => none
    | some (lc, e, rc) =>
      if e.1 < k then
        (split rc k).bind fun bstpair =>
          (nodeJoin ent B lc bstpair.l e).bind fun l => some { bstpair with l }
      else if k < e.1 then
        (split lc k).bind fun bstpair =>
          (nodeJoin ent B bstpair.r rc e).bind fun r => some { bstpair with r }
      else some ⟨lc, some e, rc⟩
termination_by a.entries.length
decreasing_by
  · exact (length_expose _h).2
  · exact (length_expose _h).1

/-- The comparison of the two-pointer loops. -/
def keyCmp (a b : K × V) : Ordering := compare a.1 b.1

section Union

variable (op : V → V → V)

/-- `union_bc`. The operation gets the values of a common key in the reverse order. -/
def unionBc (b1 b2 : Node K V A) : Option (Node K V A) :=
  buildTree ent B <| (events keyCmp b1.entries b2.entries).flatMap fun
    | .left a => [a]
    | .right b => [b]
    | .both a b => [(a.1, op b.2 a.2)]

def uniont (b1 b2 : Node K V A) : Option (Node K V A) :=
  if b1.isNull then some b2
  else if b2.isNull then some b1
  else if b1.size + b2.size ≤ kBaseCaseSize B then unionBc ent B op b1 b2
  else
    match _h : expose ent B b2 with
    | none => none
    | some (l2, e, r2) =>
      (split ent B b1 e.1).bind fun sp1 =>
        (uniont sp1.l l2).bind fun l => (uniont sp1.r r2).bind fun r =>
          nodeJoin ent B l r (match sp1.mid with
            | some e1 => (e.1, op e1.2 e.2)
            | none => e)
termination_by b2.entries.length
decreasing_by
  · exact (length_expose _h).1
  · exact (length_expose _h).2

/-- `intersect_bc`. -/
def intersectBc (b1 b2 : Node K V A) : Option (Node K V A) :=
  buildTree ent B <| (events keyCmp b1.entries b2.entries).flatMap fun
    | .both a b => [(a.1, op b.2 a.2)]
    | _ => []

def intersect (b1 b2 : Node K V A) : Option (Node K V A) :=
  if b1.isNull then some null
  else if b2.isNull then some null
  else if b1.size + b2.size ≤ kBaseCaseSize B then intersectBc ent B op b1 b2
  else
    match _h : expose ent B b2 with
    | none => none
    | some (l2, e2, r2) =>
      (split ent B b1 e2.1).bind fun sp1 =>
        (intersect sp1.l l2).bind fun l => (intersect sp1.r r2).bind fun r =>
          match sp1.mid with
          | some e1 => nodeJoin ent B l r (e2.1, op e1.2 e2.2)
          | none => join2 ent B l r
termination_by b2.entries.length
decreasing_by
  · exact (length_expose _h).1
  · exact (length_expose _h).2

end Union

/-- `difference_bc`. -/
def differenceBc (b1 b2 : Node K V A) : Option (Node K V A) :=
  buildTree ent B <| (events keyCmp b1.entries b2.entries).flatMap fun
    | .left a => [a]
    | _ => []

def difference (b1 b2 : Node K V A) : Option (Node K V A) :=
  if b1.isNull then some null
  else if b2.isNull then some b1
  else if b1.size + b2.size ≤ kBaseCaseSize B then differenceBc ent B b1 b2
  else
    match _h : expose ent B b1 with
    | none => none
    | some (l1, e, r1) =>
      (split ent B b2 e.1).bind fun sp2 =>
        (difference l1 sp2.l).bind fun l => (difference r1 sp2.r).bind fun r =>
          if sp2.mid.isSome then join2 ent B l r else nodeJoin ent B l r e
termination_by b1.entries.length
decreasing_by
  · exact (length_expose _h).1
  · exact (length_expose _h).2

/-! ## Ranges -/

/-- `range_root_2`. -/
def rangeRoot2 : Node K V A → K → K → Node K V A
  | null, _, _ => null
  | compressed es augVal, _, _ => compressed es augVal
  | regular lc e rc s augVal, keyLeft, keyRight =>
    if keyRight < e.1 then rangeRoot2 lc keyLeft keyRight
    else if e.1 < keyLeft then rangeRoot2 rc keyLeft keyRight
    else regular lc e rc s augVal

/-- `left_2`, with `comp_bc` for a block. -/
def left2 : Node K V A → K → Option (Node K V A)
  | null, _ => some null
  | compressed es _, e => buildTree ent B (es.filter fun et => et.1 ≤ e)
  | regular lc be rc _ _, e =>
    if e < be.1 then left2 lc e else (left2 rc e).bind fun r => nodeJoin ent B lc r be

/-- `right_2`. -/
def right2 : Node K V A → K → Option (Node K V A)
  | null, _ => some null
  | compressed es _, e => buildTree ent B (es.filter fun et => e ≤ et.1)
  | regular lc be rc _ _, e =>
    if be.1 < e then right2 rc e else (right2 lc e).bind fun l => nodeJoin ent B l rc be

/-- `range_2`. -/
def range2 (b : Node K V A) (low high : K) : Option (Node K V A) :=
  match rangeRoot2 b low high with
  | null => some null
  | compressed es _ => buildTree ent B (es.filter fun et => low ≤ et.1 && et.1 ≤ high)
  | regular lc e rc _ _ =>
    (right2 ent B lc low).bind fun l => (left2 ent B rc high).bind fun r => nodeJoin ent B l r e

/-! ## Single keys -/

/-- One call of `merge` in `insert_compressed2`, on the buffer and `placed`. -/
def insertStep (e : K × V) (f : V → V → V) (state : List (K × V) × Bool) (et : K × V) :
    List (K × V) × Bool :=
  let (merged, placed) := state
  if !placed then
    if et.1 < e.1 then (merged ++ [et], placed)
    -- `et` itself is not copied here
    else if e.1 < et.1 then (merged ++ [e], true)
    else (merged ++ [(et.1, f e.2 et.2)], true)
  else (merged ++ [et], placed)

/-- The buffer that `insert_compressed2` fills. -/
def insertBuffer (es : List (K × V)) (e : K × V) (f : V → V → V) : List (K × V) :=
  let (merged, placed) := es.foldl (insertStep e f) ([], false)
  if !placed then merged ++ [e] else merged

/-- `insert_compressed2`. `make_compressed` asserts that there are `B` entries, which fails at a small
root. -/
def insertCompressed2 (es : List (K × V)) (e : K × V) (f : V → V → V) : Option (Node K V A) :=
  let merged := insertBuffer es e f
  if B ≤ merged.length then some (makeCompressed ent B merged) else none

/-- `insert_tmpl`. -/
def insert (e : K × V) (f : V → V → V) : Node K V A → Option (Node K V A)
  | null => some (single ent e)
  | compressed es _ => insertCompressed2 ent B es e f
  | regular lc be rc _ _ =>
    if be.1 < e.1 then (insert e f rc).bind fun r => nodeJoin ent B lc r be
    else if e.1 < be.1 then (insert e f lc).bind fun l => nodeJoin ent B l rc be
    else nodeJoin ent B lc rc (e.1, f be.2 e.2)

/-- `my_remove`. -/
def myRemove (b : Node K V A) (k : K) : Option (Node K V A) :=
  if b.isNull then some null
  else
    match _h : expose ent B b with
    | none => none
    | some (lc, e, rc) =>
      if e.1 < k then (myRemove rc k).bind fun ret => nodeJoin ent B lc ret e
      else if k < e.1 then (myRemove lc k).bind fun ret => nodeJoin ent B ret rc e
      else join2 ent B lc rc
termination_by b.entries.length
decreasing_by
  · exact (length_expose _h).2
  · exact (length_expose _h).1

/-- `deletet`, which is `my_remove_2` with `remove_compressed3` for a block at the root. -/
def deletet (b : Node K V A) (k : K) : Option (Node K V A) :=
  match b with
  | null => some null
  | compressed es _ => buildTree ent B (es.filter fun et => et.1 < k || k < et.1)
  | regular lc e rc _ _ =>
    if e.1 < k then (myRemove ent B rc k).bind fun ret => nodeJoin ent B lc ret e
    else if k < e.1 then (myRemove ent B lc k).bind fun ret => nodeJoin ent B ret rc e
    else join2 ent B lc rc

/-! ## Sorted batches -/

/-- The parts of a sorted batch below, at and above the key of a node. -/
structure Cut (α : Type*) where
  /-- The part below the key. -/
  lower : List α
  /-- The element with the key. -/
  dup : Option α
  /-- The part above the key. -/
  upper : List α

/-- `mid` and `dup` of the batch operations. -/
def cut {α : Type*} (key : α → K) (as : List α) (bk : K) : Cut α :=
  let mid := pamBinarySearch as fun a => key a < bk
  let dup := as[mid]?.filter fun a => !(bk < key a)
  ⟨as.take mid, dup, as.drop (mid + dup.toList.length)⟩

/-- The loop of `multidelete_bc`. -/
def multideleteLoop : List (K × V) → List K → List (K × V)
  | [], _ => []
  | a :: stack, [] => a :: stack
  | a :: stack, k :: ks =>
    if a.1 < k then a :: multideleteLoop stack (k :: ks)
    else if k < a.1 then multideleteLoop (a :: stack) ks
    else multideleteLoop stack ks
termination_by stack ks => stack.length + ks.length

/-- `multidelete_bc`. -/
def multideleteBc (b1 : Node K V A) (ks : List K) : Option (Node K V A) :=
  buildTree ent B (multideleteLoop b1.entries ks)

/-- `multi_delete_sorted`. -/
def multiDeleteSorted (b : Node K V A) (ks : List K) : Option (Node K V A) :=
  if b.isNull then some null
  else if ks.isEmpty then some b
  else if b.size ≤ kBaseCaseSize B then multideleteBc ent B b ks
  else
    match _h : expose ent B b with
    | none => none
    | some (lc, e, rc) =>
      let c := cut id ks e.1
      (multiDeleteSorted lc c.lower).bind fun l => (multiDeleteSorted rc c.upper).bind fun r =>
        if c.dup.isNone then nodeJoin ent B l r e else join2 ent B l r
termination_by b.entries.length
decreasing_by
  · exact (length_expose _h).1
  · exact (length_expose _h).2

section MultiInsert

variable (op : V → V → V)

/-- `multiinsert_bc`. -/
def multiinsertBc (b1 : Node K V A) (es : List (K × V)) : Option (Node K V A) :=
  buildTree ent B <| (events keyCmp b1.entries es).flatMap fun
    | .left a => [a]
    | .right b => [b]
    | .both a b => [(a.1, op a.2 b.2)]

/-- `multi_insert_sorted`. -/
def multiInsertSorted (b : Node K V A) (es : List (K × V)) : Option (Node K V A) :=
  if b.isNull then fromArray ent B es
  else if es.isEmpty then some b
  else if b.size + es.length ≤ kBaseCaseSize B then multiinsertBc ent B op b es
  else
    match _h : expose ent B b with
    | none => none
    | some (lc, e, rc) =>
      let c := cut Prod.fst es e.1
      (multiInsertSorted lc c.lower).bind fun l => (multiInsertSorted rc c.upper).bind fun r =>
        nodeJoin ent B l r (match c.dup with
          | some a => (e.1, op e.2 a.2)
          | none => e)
termination_by b.entries.length
decreasing_by
  · exact (length_expose _h).1
  · exact (length_expose _h).2

end MultiInsert

end Cpam

end Silva
