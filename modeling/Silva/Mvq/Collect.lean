import Silva.Lib.Buffer
import Silva.Mvq.Tree

/-!
# Collecting records into a buffer (`include/silva/index/mvq.hpp`)

The overload of `collect_records` that writes into `out` from slot `cnt` on. The right call starts
at an offset that `num_pts` gives before either call runs, and counts in a variable of its own, so
the two calls of a `par_do` only share the buffer.
-/

namespace Silva

open BaseNode

namespace Tree

/-- `size_t R_cnt`: where the right call starts. -/
def rCnt (lSon : BaseNode) (cnt : Nat) : Nat :=
  if lSon ≠ nullptr then cnt + lSon.getNumPoints else cnt

/-- `collect_records(x, out, cnt)`, on `(out, cnt)`, when the left call runs first. -/
def collectRecordsOut : BaseNode → List Point × Nat → List Point × Nat
  | nullptr, ret => ret
  | leafNode records, (out, cnt) => (Buffer.write out cnt records, cnt + records.length)
  | inteNode lSon rSon _, (out, cnt) =>
    let RCnt := rCnt lSon cnt
    let (out, cnt) := collectRecordsOut lSon (out, cnt)
    let (out, _) := collectRecordsOut rSon (out, RCnt)
    (out, cnt)

end Tree

/-- A run of `collect_records(x, out, cnt)`: the assignments to `out` in the order in which they
happen, and `cnt` afterwards. The assignments of the two calls come in any order. -/
inductive Collects : BaseNode → (cnt : Nat) → List (Nat × Point) → (cnt' : Nat) → Prop where
  /-- An empty tree assigns nothing. -/
  | nullptr (cnt : Nat) : Collects nullptr cnt [] cnt
  /-- A leaf assigns its records to the slots from `cnt` on. -/
  | leafNode (records : List Point) (cnt : Nat) :
      Collects (leafNode records) cnt (Buffer.slots cnt records) (cnt + records.length)
  /-- The two calls run at the same time. The right one starts behind the slots of the left son. -/
  | inteNode {lSon rSon : BaseNode} {cnt lCnt rCnt' : Nat} {ls rs ws : List (Nat × Point)}
      (left : Collects lSon cnt ls lCnt) (right : Collects rSon (Tree.rCnt lSon cnt) rs rCnt')
      (order : Buffer.Interleaves ls rs ws) (numPts : Nat) :
      Collects (inteNode lSon rSon numPts) cnt ws lCnt

/-- The interior nodes that are reached by going left, from the root on, have no right son. -/
def LeftOnly : BaseNode → Prop
  | nullptr => True
  | leafNode _ => True
  | inteNode lSon rSon _ => rSon = nullptr ∧ LeftOnly lSon

instance decidableLeftOnly : (t : BaseNode) → Decidable (LeftOnly t)
  | nullptr => .isTrue trivial
  | leafNode _ => .isTrue trivial
  | inteNode lSon rSon _ =>
    have := decidableLeftOnly lSon
    inferInstanceAs (Decidable (rSon = nullptr ∧ LeftOnly lSon))

end Silva
