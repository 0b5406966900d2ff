import Silva.Cpam.MapOps
import Silva.Cpam.PacTree
import Silva.Lib.KeyedList

/-!
# The map interface (`third_party/cpam/map.h`, `build.h`)

A map is the root of a tree. The parallel sort of `parlay` is a parameter: what the maps rely on is that
its result is a sorted permutation of its argument.
-/

namespace Silva

namespace Cpam

open Node

variable {K V A : Type*} [LinearOrder K] (ent : Entry K V A) (B : ℕ)
  (sampleSort : List (K × V) → List (K × V))

/-- `sample_sort`, which need not be stable. -/
structure SortsByKey (sampleSort : List (K × V) → List (K × V)) : Prop where
  /-- No entry is lost or added. -/
  perm : ∀ es, (sampleSort es).Perm es
  /-- The keys ascend. -/
  sorted : ∀ es, (sampleSort es).Pairwise fun a b => ¬b.1 < a.1

/-- `pack`, with the flags `less(B[i-1], B[i])`. -/
def packFrom (prev : K × V) : List (K × V) → List (K × V)
  | [] => []
  | b :: bs => if prev.1 < b.1 then b :: packFrom b bs else packFrom b bs

/-- `sort_remove_duplicates`: the first entry has its flag set. -/
def sortRemoveDuplicates (es : List (K × V)) : List (K × V) :=
  match sampleSort es with
  | [] => []
  | b :: bs => b :: packFrom b bs

/-- `finalize`. -/
def finalize (root : Node K V A) : Node K V A :=
  if root.size < B ∧ 0 < root.size then makeSingleCompressedNode ent root.entries else root

/-- `insert` of a map, with the function that combines the values of a common key. -/
def mapInsert (m : Node K V A) (p : K × V) (f : V → V → V) : Option (Node K V A) :=
  (insert ent B p f m).map (finalize ent B)

/-- `multi_insert`. -/
def multiInsert (m : Node K V A) (SS : List (K × V)) : Option (Node K V A) :=
  multiInsertSorted ent B (fun _ b => b) m (sortRemoveDuplicates sampleSort SS)

/-- The constructor from a sequence. -/
def mapOf (S : List (K × V)) : Option (Node K V A) :=
  (multiInsert ent B sampleSort null S).map (finalize ent B)

/-- `multi_delete`. -/
def multiDelete (m : Node K V A) (SS : List (K × V)) : Option (Node K V A) :=
  multiDeleteSorted ent B m ((sortRemoveDuplicates sampleSort SS).map Prod.fst)

/-- `map_union` without an operation. -/
def mapUnion (a b : Node K V A) : Option (Node K V A) := uniont ent B (fun _ b => b) a b

/-- `map_intersect` without an operation. -/
def mapIntersect (a b : Node K V A) : Option (Node K V A) := intersect ent B (fun _ b => b) a b

/-- `map_difference`. -/
def mapDifference (a b : Node K V A) : Option (Node K V A) := difference ent B a b

/-- `filter` of a map. -/
def mapFilter (m : Node K V A) (f : K × V → Bool) : Option (Node K V A) :=
  (filter ent B f m).map (finalize ent B)

/-- `range` of a map. -/
def mapRange (a : Node K V A) (kl kr : K) : Option (Node K V A) := range2 ent B a kl kr

/-- `remove`. -/
def remove (m : Node K V A) (k : K) : Option (Node K V A) := deletet ent B m k

/-- `operator==`. -/
def mapEq (m m' : Node K V A) : Option Bool :=
  if m.size = m'.size then (mapUnion ent B m m').map fun u => m.size = u.size else some false

/-! ## What a map is -/

/-- The trees that a map can have: the invariant of the shape, and the entries in key order. -/
structure IsPacMap (t : Node K V A) : Prop where
  /-- The shape of the tree. -/
  valid : Valid ent B true t
  /-- The keys ascend, each of them once. -/
  sorted : t.entries.Pairwise (·.1 < ·.1)

/-- The value of a key. -/
def Node.value (t : Node K V A) (k : K) : Option V :=
  (KeyedList.lookup Prod.fst t.entries k).map Prod.snd

end Cpam

end Silva
