import Silva.Lib.BoundedQueue

/-!
# Augmented maps as PaC trees (`third_party/cpam/augmented_ops.h`)

A node is regular, with one entry and two children, or compressed, with a block of entries. Every node
stores an augmented value, which the pruned traversals below look at first; where they use it as a
pair, it is a bounding box and a count. Nodes are immutable values here: reference counts, the
`granularity` of parallel calls and the counters of touched nodes are left out.
-/

namespace Silva

namespace Cpam

variable {K V A Bx D : Type*}

/-- What an entry type provides for augmentation. -/
structure Entry (K V A : Type*) where
  /-- The augmented value of an empty tree. -/
  getEmpty : A
  /-- The augmented value of an entry. -/
  fromEntry : K × V → A
  /-- The augmented value of two parts. -/
  combine : A → A → A

/-- `node*`. The fields `s` and `augVal` of a regular node are stored, not computed. -/
inductive Node (K V A : Type*) where
  /-- The empty tree. -/
  | null
  /-- A node with one entry between two subtrees, its size and its augmented value. -/
  | regular (lc : Node K V A) (entry : K × V) (rc : Node K V A) (s : ℕ) (augVal : A)
  /-- A block of entries with its augmented value. -/
  | compressed (es : List (K × V)) (augVal : A)

namespace Node

def isNull : Node K V A → Bool
  | null => true
  | _ => false

/-- `size`. -/
def size : Node K V A → ℕ
  | null => 0
  | regular _ _ _ s _ => s
  | compressed es _ => es.length

/-- `aug_val`. -/
def augVal (ent : Entry K V A) : Node K V A → A
  | null => ent.getEmpty
  | regular _ _ _ _ augVal => augVal
  | compressed _ augVal => augVal

/-- The entries in the order of `iterate_seq`. -/
def entries : Node K V A → List (K × V)
  | null => []
  | regular lc entry rc _ _ => lc.entries ++ entry :: rc.entries
  | compressed es _ => es

end Node

open Node

/-! ## Making nodes -/

section Make

variable (ent : Entry K V A) (B : ℕ)

/-- The loop of `encode`: the combined value of a block. No empty block is ever encoded. -/
def encode : List (K × V) → A
  | [] => ent.getEmpty
  | e :: es => es.foldl (fun av e => ent.combine av (ent.fromEntry e)) (ent.fromEntry e)

/-- `make_single_compressed_node`. -/
def makeSingleCompressedNode (es : List (K × V)) : Node K V A := compressed es (encode ent es)

/-- A regular node whose size and augmented value `update` has set. -/
def regularNode (lc : Node K V A) (e : K × V) (rc : Node K V A) : Node K V A :=
  let av := ent.fromEntry e
  let av := if !lc.isNull then ent.combine (lc.augVal ent) av else av
  let av := if !rc.isNull then ent.combine av (rc.augVal ent) else av
  regular lc e rc (lc.size + rc.size + 1) av

/-- A regular node with entry `i` of a list, over what `left` and `right` make of the rest. -/
def splitNode (left right : List (K × V) → Node K V A) (es : List (K × V)) (i : ℕ) : Node K V A :=
  match es.drop i with
  | [] => null
  | e :: rest => regularNode ent (left (es.take i)) e (right rest)

/-- `single`. -/
def single (e : K × V) : Node K V A := regular null e null 1 (ent.fromEntry e)

/-- `to_tree_impl`. -/
def toTreeImpl (es : List (K × V)) (depth : ℕ) : Node K V A :=
  match es with
  | [] => null
  | [e] => single ent e
  | e0 :: e1 :: tail =>
    let es := e0 :: e1 :: tail
    if es.length = B ∧ 0 < depth then makeSingleCompressedNode ent es
    else
      let mid := es.length / 2
      match _h : es.drop mid with
      | [] => null
      | e :: rest =>
        regularNode ent (toTreeImpl (es.take mid) (depth + 1)) e (toTreeImpl rest (depth + 1))
termination_by es.length
decreasing_by
  · simp only [List.length_take, List.length_cons]
    omega
  · have := congrArg List.length _h
    simp only [es, mid, List.length_drop, List.length_cons] at this ⊢
    omega

/-- `two_compressed_nodes`. -/
def twoCompressedNodes (es : List (K × V)) : Node K V A :=
  splitNode ent (makeSingleCompressedNode ent) (makeSingleCompressedNode ent) es (es.length / 2)

/-- The size of the left part where `tot / 2` is decremented for even `tot`. -/
def lcSize (tot : ℕ) : ℕ := if tot % 2 = 0 then tot / 2 - 1 else tot / 2

/-- `make_two_nodes` of `four_compressed_nodes`. -/
def makeTwoNodes (es : List (K × V)) : Node K V A :=
  if es.length = 2 * B then makeSingleCompressedNode ent es
  else splitNode ent (makeSingleCompressedNode ent) (makeSingleCompressedNode ent) es
    (lcSize es.length)

/-- `four_compressed_nodes`. -/
def fourCompressedNodes (es : List (K × V)) : Node K V A :=
  splitNode ent (makeTwoNodes ent B) (makeTwoNodes ent B) es (lcSize es.length)

/-- `make_compressed`, for at least `B` entries. -/
def makeCompressed (es : List (K × V)) : Node K V A :=
  if es.length ≤ 2 * B then makeSingleCompressedNode ent es
  else if es.length ≤ 4 * B + 1 then twoCompressedNodes ent es
  else fourCompressedNodes ent B es

end Make

/-! ## Pruned traversals -/

/-- `range_count_filter2`: `f` checks the box of a node, `f2` a value. -/
def rangeCountFilter2 (f : Bx → Int) (f2 : V → Bool) : Node K V (Bx × ℕ) → ℕ
  | null => 0
  | compressed es curAug =>
    let flag := f curAug.1
    if flag < 0 then 0
    else if flag = 1 then curAug.2
    else es.foldl (fun ret et => if f2 et.2 then ret + 1 else ret) 0
  | regular lc entry rc _ curAug =>
    let flag := f curAug.1
    if flag < 0 then 0
    else if flag = 1 then curAug.2
    else
      let flag2 := if f2 entry.2 then 1 else 0
      let l := rangeCountFilter2 f f2 lc
      let r := rangeCountFilter2 f f2 rc
      l + r + flag2

/-- `out[cnt++] = v`. -/
def assign (ret : ℕ × List V) (v : V) : ℕ × List V := (ret.1 + 1, ret.2.set ret.1 v)

/-- `range_report_filter2`, on `(cnt, out)`: `ptBox` is the box of a single value. -/
def rangeReportFilter2 (f : Bx → Int) (ptBox : V → Bx) :
    Node K V (Bx × ℕ) → ℕ × List V → ℕ × List V
  | null, ret => ret
  | compressed es curAug, ret =>
    let flag := f curAug.1
    if flag < 0 then ret
    else if flag = 1 then es.foldl (fun ret et => assign ret et.2) ret
    else es.foldl (fun ret et => if f (ptBox et.2) = 1 then assign ret et.2 else ret) ret
  | regular lc entry rc _ curAug, ret =>
    if f curAug.1 < 0 then ret
    else
      let flag2 := f (ptBox entry.2) = 1
      let ret := rangeReportFilter2 f ptBox lc ret
      let ret := if flag2 then assign ret entry.2 else ret
      rangeReportFilter2 f ptBox rc ret

/-- The two ways to put trees together again. -/
structure Joins (K V A : Type*) where
  /-- Two trees with an entry between them. -/
  join : Node K V A → K × V → Node K V A → Node K V A
  /-- Two trees. -/
  join2 : Node K V A → Node K V A → Node K V A

/-- `join` and `join2` keep the order of the entries. -/
structure Joins.InOrder (joins : Joins K V A) : Prop where
  join : ∀ l e r, (joins.join l e r).entries = l.entries ++ e :: r.entries
  join2 : ∀ l r, (joins.join2 l r).entries = l.entries ++ r.entries

/-- `kBaseCaseSize`. -/
def kBaseCaseSize (B : ℕ) : ℕ := 8 * B + 2

/-- `aug_filter_bc2`. -/
def augFilterBc2 (ent : Entry K V A) (B : ℕ) (f : K × V → Bool) (b1 : Node K V A) : Node K V A :=
  let stack := b1.entries.filter f
  if stack.length < B then toTreeImpl ent B stack 0 else makeCompressed ent B stack

/-- `aug_filter2`. A compressed node holds at most `2 * B` entries, so it always is a base case. -/
def augFilter2 (ent : Entry K V A) (B : ℕ) (joins : Joins K V A) (fpt : K × V → Bool) (fbb : A → Bool) :
    Node K V A → Node K V A
  | null => null
  | compressed es curAug => augFilterBc2 ent B fpt (compressed es curAug)
  | regular lc entry rc s curAug =>
    if s ≤ kBaseCaseSize B then augFilterBc2 ent B fpt (regular lc entry rc s curAug)
    else if !fbb curAug then null
    else
      let l := augFilter2 ent B joins fpt fbb lc
      let r := augFilter2 ent B joins fpt fbb rc
      if fpt entry then joins.join l entry r else joins.join2 l r

/-! ## Nearest neighbours -/

open BoundedQueue (push pop top)

section Knn

variable [LinearOrder D] (less : V × D → V × D → Bool) (k : ℕ) (f : V → D)

/-- `pt_check`: a full queue gives up its top only for a strictly nearer value. -/
def ptCheck (out : List (V × D)) (curPt : V) : List (V × D) :=
  let curDis := f curPt
  if out.length < k then push less out (curPt, curDis)
  else
    match top out with
    | some t => if curDis < t.2 then push less (pop out) (curPt, curDis) else out
    | none => out

/-- The test of `go_left` and `go_right`: `out.size() < k || dis < out.top().second`. -/
def visits (out : List (V × D)) (dis : D) : Bool :=
  out.length < k || (top out).any fun t => dis < t.2

/-- `knn_filter`: `f` is the distance of a value, `f2` that of a box. A missing child is at `dMax`. -/
def knnFilter (ent : Entry K V (Bx × ℕ)) (f2 : Bx → D) (dMax : D) :
    Node K V (Bx × ℕ) → List (V × D) → List (V × D)
  | null, out => out
  | compressed es _, out => es.foldl (fun out et => ptCheck less k f out et.2) out
  | regular lc entry rc _ _, out =>
    let out := ptCheck less k f out entry.2
    let lDis := if !lc.isNull then f2 (lc.augVal ent).1 else dMax
    let rDis := if !rc.isNull then f2 (rc.augVal ent).1 else dMax
    let goLeft := fun out =>
      if visits k out lDis then knnFilter ent f2 dMax lc out else out
    let goRight := fun out =>
      if visits k out rDis then knnFilter ent f2 dMax rc out else out
    if lDis ≤ rDis then goRight (goLeft out) else goLeft (goRight out)

end Knn

end Cpam

end Silva
