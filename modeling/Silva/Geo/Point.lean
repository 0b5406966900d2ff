import Mathlib

/-!
# Points and boxes (`include/silva/geo/point.hpp`)

Coordinates are exact: `FT` is the rationals, so every `double` is one of them and sums and
comparisons do not round. Identifiers and Morton codes are natural numbers.
-/

namespace Silva

/-- The coordinate type `FT`. -/
abbrev FT := ℚ

/-- `FT_EPS`, the machine epsilon of `double`. -/
def ftEps : FT := 1 / 2 ^ 52

/-- `FT_INF_MAX`, the largest finite `double`. -/
def ftInfMax : FT := 2 ^ 1024 - 2 ^ 971

/-- `FT_INF_MIN`, the smallest positive normal `double`. -/
def ftInfMin : FT := 1 / 2 ^ 1022

/-- The sign of `x`, with everything closer to zero than `FT_EPS` counted as zero. -/
def dcmp (x : FT) : Int := if |x| < ftEps then 0 else if x < 0 then -1 else 1

/-- `less_msb`: the highest bit of `x` is below that of `y`. -/
def lessMsb (x y : Nat) : Bool := x < y && x < (x ^^^ y)

/-- `static_cast<unsigned int>`: truncation. The source only casts coordinates in `[0, 2^32)`. -/
def toUint (x : FT) : Nat := ⌊x⌋₊ % 2 ^ 32

/-- A record of the index. `mortonId` is filled in when a batch is sorted. -/
structure Point where
  /-- The identifier of the record. -/
  id : Nat
  /-- The first coordinate. -/
  x : FT
  /-- The second coordinate. -/
  y : FT
  /-- The Morton code of the coordinates, 0 until it is computed. -/
  mortonId : Nat
  deriving DecidableEq, Repr, Inhabited

namespace Point

/-- A corner of a box, or any point that is not a record. -/
def ofXY (x y : FT) : Point := { id := 0, x := x, y := y, mortonId := 0 }

/-- `operator==`: the same identifier, and coordinates equal up to `FT_EPS`. -/
def eqv (p q : Point) : Bool := p.id = q.id ∧ dcmp (p.x - q.x) = 0 ∧ dcmp (p.y - q.y) = 0

/-- One step of the loop of `interleave_bits`: bit `i` of `x` goes to bit `2i + 1`, bit `i` of `y`
to bit `2i`. -/
def interleaveStep (ix iy ret i : Nat) : Nat :=
  ret ||| (((ix &&& (1 <<< i)) <<< (i + 1)) ||| ((iy &&& (1 <<< i)) <<< i))

/-- The Z value of a point. -/
def interleaveBits (p : Point) : Nat :=
  (List.range 32).foldl (interleaveStep (toUint p.x) (toUint p.y)) 0

/-- The key by which the index orders and identifies records. -/
def key (p : Point) : ℕ ×ₗ ℕ := toLex (p.mortonId, p.id)

/-- The stored code is the point's own, as after sorting a batch. -/
def Coded (p : Point) : Prop := p.mortonId = p.interleaveBits

instance : DecidablePred Coded := fun p => inferInstanceAs (Decidable (p.mortonId = p.interleaveBits))

/-- The coordinates the index is meant for: non-negative and below `2^32`. -/
structure InDomain (p : Point) : Prop where
  x_nonneg : 0 ≤ p.x
  x_lt : p.x < 2 ^ 32
  y_nonneg : 0 ≤ p.y
  y_lt : p.y < 2 ^ 32

/-- Integer coordinates in `[0, 2^32)`. -/
def IsInteger (p : Point) : Prop :=
  ∃ m n : ℕ, m < 2 ^ 32 ∧ n < 2 ^ 32 ∧ p.x = m ∧ p.y = n

/-- Non-negative multiples of `FT_EPS` below `2^32`. -/
structure OnGrid (p : Point) : Prop extends InDomain p where
  x_grid : ∃ m : ℕ, p.x = m * ftEps
  y_grid : ∃ n : ℕ, p.y = n * ftEps

end Point

/-- Sorted by the Morton code, whether it is filled in or not. -/
def SortedByCode (P : List Point) : Prop :=
  P.Pairwise fun p q => p.interleaveBits ≤ q.interleaveBits

/-- The points of a list with a given identifier. -/
def pointsOf (P : List Point) (i : Nat) : List Point := P.filter fun p => p.id = i

/-- Two points with the same coordinates. -/
def SamePlace (p q : Point) : Prop := p.x = q.x ∧ p.y = q.y

/-- `Bounding_Box`: the lower left and the upper right corner. -/
structure BoundingBox where
  /-- The lower left corner. -/
  first : Point
  /-- The upper right corner. -/
  second : Point
  deriving DecidableEq, Repr, Inhabited

/-- `diff_type`: two buffers of points, each filled up to its counter. -/
structure DiffType where
  /-- The number of slots of `add` in use. -/
  addCnt : Nat
  /-- The number of slots of `remove` in use. -/
  removeCnt : Nat
  /-- The added points. -/
  add : List Point
  /-- The removed points. -/
  remove : List Point
  deriving DecidableEq, Repr, Inhabited

namespace DiffType

/-- The constructor with sizes: the slots hold anything until they are assigned. -/
def ofSize (addSz removeSz : Nat) : DiffType :=
  { addCnt := 0, removeCnt := 0, add := List.replicate addSz default,
    remove := List.replicate removeSz default }

/-- The slot `add[add_cnt++]`, or the corresponding one of `remove` when `reverse` is set. -/
def addPoint (d : DiffType) (p : Point) (reverse : Bool) : DiffType :=
  if !reverse then { d with add := d.add.set d.addCnt p, addCnt := d.addCnt + 1 }
  else { d with remove := d.remove.set d.removeCnt p, removeCnt := d.removeCnt + 1 }

/-- The slot `remove[remove_cnt++]`, or the corresponding one of `add` when `reverse` is set. -/
def removePoint (d : DiffType) (p : Point) (reverse : Bool) : DiffType :=
  if !reverse then { d with remove := d.remove.set d.removeCnt p, removeCnt := d.removeCnt + 1 }
  else { d with add := d.add.set d.addCnt p, addCnt := d.addCnt + 1 }

/-- Cut both buffers at their counters. -/
def compact (d : DiffType) : DiffType :=
  { d with add := d.add.take d.addCnt, remove := d.remove.take d.removeCnt }

end DiffType

end Silva
