import Mathlib

/-!
# Difference encoding of blocks (`third_party/cpam/compression.h`, `byte_encode.h`)

A block stores its values, the first key, and for every other key the difference to the key before it,
in bytes of seven bits each. Keys are unsigned integers of `w` bits.
-/

namespace Silva

namespace Cpam

variable {w : ℕ} {V : Type*}

/-! ## Bytes -/

/-- `encodeUnsigned`: the bytes that it writes. The difference zero takes none. -/
def encodeUnsigned (diff : BitVec w) : List UInt8 :=
  let curByte : UInt8 := .ofNat (diff.toNat &&& 0x7f)
  if curByte > 0 ∨ diff.toNat > 0 then
    let diff' := diff >>> 7
    let toWrite := if diff'.toNat > 0 then curByte ||| 0x80 else curByte
    toWrite :: encodeUnsigned diff'
  else []
termination_by diff.toNat
decreasing_by
  rename_i h
  have hpos : 0 < diff.toNat := by
    rcases h with h | h
    · by_contra hzero
      simp [curByte, Nat.eq_zero_of_not_pos hzero] at h
    · exact h
  rw [BitVec.toNat_ushiftRight, Nat.shiftRight_eq_div_pow]
  exact Nat.div_lt_self hpos (by decide)

/-- The loop of `decodeUnsigned`. `none` is a read past the end. -/
def decodeLoop (value : BitVec w) (shiftAmount : UInt8) :
    List UInt8 → Option (BitVec w × List UInt8)
  | [] => none
  | b :: ptr =>
    let value := value + (BitVec.ofNat w (b &&& 0x7f).toNat <<< shiftAmount.toNat)
    if b &&& 0x80 = 0 then some (value, ptr) else decodeLoop value (shiftAmount + 7) ptr

/-- `decodeUnsigned`, with the rest of the bytes. -/
def decodeUnsigned (start : List UInt8) : Option (BitVec w × List UInt8) := decodeLoop 0 0 start

/-! ## Blocks -/

/-- The three parts of an encoded block. -/
structure Encoded (w : ℕ) (V : Type*) where
  /-- The values, in the order of the entries. -/
  vals : List V
  /-- The first key, as it is. -/
  firstKey : BitVec w
  /-- The differences of the other keys, as bytes. -/
  keyBytes : List UInt8

/-- The loop of `encode` over the differences. -/
def encodeKeys (prevKey : BitVec w) : List (BitVec w × V) → List UInt8
  | [] => []
  | (curKey, _) :: data => encodeUnsigned (curKey - prevKey) ++ encodeKeys curKey data

/-- `encode` of `diffencoded_entry_encoder`. It reads the first entry. -/
def diffEncode : List (BitVec w × V) → Option (Encoded w V)
  | [] => none
  | (key, v) :: data => some ⟨v :: data.map Prod.snd, key, encodeKeys key data⟩

/-- The loop of `decode`, one value after the other. -/
def decodeKeys (prevKey : BitVec w) : List V → List UInt8 → Option (List (BitVec w × V))
  | [], _ => some []
  | v :: vals, bytes =>
    (decodeUnsigned bytes).bind fun (diff, bytes) =>
      (decodeKeys (prevKey + diff) vals bytes).map ((prevKey + diff, v) :: ·)

/-- `decode` of `diffencoded_entry_encoder`: the entries that the function is called on. -/
def diffDecode (block : Encoded w V) : Option (List (BitVec w × V)) :=
  match block.vals with
  | [] => none
  | v :: vals => (decodeKeys block.firstKey vals block.keyBytes).map ((block.firstKey, v) :: ·)

/-- The loop of `encoded_size`, from the size of the first key on. -/
def keyBytesFrom (prevKey : BitVec w) (keyBytes : ℕ) : List (BitVec w × V) → ℕ
  | [] => keyBytes
  | (curKey, _) :: data =>
    keyBytesFrom curKey (keyBytes + (encodeUnsigned (curKey - prevKey)).length) data

/-- `encoded_size`, with `sizeof(K)` and `sizeof(V)`. The loop meets the first entry, too. -/
def encodedSize (sizeofK sizeofV : ℕ) : List (BitVec w × V) → Option ℕ
  | [] => none
  | (key, v) :: data =>
    some (keyBytesFrom key sizeofK ((key, v) :: data) + (data.length + 1) * sizeofV)

end Cpam

end Silva
