import Silva.Geo.Point

/-!
# Hilbert codes (`src/hilbert.c`, `include/silva/core/hilbert.h`)

The index of a point on a Hilbert curve, and the point with an index. `nDims` is the number of
coordinates and `nBits` the number of bits of each of them; the words have 64 bits, both `bitmask_t` and
`halfmask_t`.
-/

namespace Silva

namespace Hilbert

/-- `bitmask_t`. -/
abbrev Bitmask := BitVec 64

def ones (k : ℕ) : Bitmask := (2 : Bitmask) <<< (k - 1) - 1

def rotateRight (arg : Bitmask) (nRots nDims : ℕ) : Bitmask :=
  (arg >>> nRots ||| arg <<< (nDims - nRots)) &&& ones nDims

def rotateLeft (arg : Bitmask) (nRots nDims : ℕ) : Bitmask :=
  (arg <<< nRots ||| arg >>> (nDims - nRots)) &&& ones nDims

/-- The loop of `adjust_rotation`. -/
def countShifts (bits : Bitmask) (rotation : ℕ) : ℕ :=
  if bits = 0 then rotation else countShifts (bits >>> 1) (rotation + 1)
termination_by bits.toNat
decreasing_by
  rename_i h
  have hpos : 0 < bits.toNat := Nat.pos_of_ne_zero fun hzero => h (BitVec.eq_of_toNat_eq hzero)
  rw [BitVec.toNat_ushiftRight, Nat.shiftRight_eq_div_pow]
  exact Nat.div_lt_self hpos (by decide)

/-- `adjust_rotation`, with `nd1Ones`: the new rotation. -/
def adjustRotation (rotation nDims : ℕ) (nd1Ones bits : Bitmask) : ℕ :=
  let bits := bits &&& (-bits &&& nd1Ones)
  let rotation := countShifts bits rotation + 1
  if rotation ≥ nDims then rotation - nDims else rotation

/-! ## Transposing bits -/

/-- What the inner loop of `bitTranspose` works on. -/
structure Fields where
  /-- The fields that are still to be read. -/
  inCoords : Bitmask
  /-- The bits that have their place. -/
  coords : Bitmask
  /-- The fields for the next round, half as wide. -/
  utCoords : Bitmask

/-- One run of the inner loop, for the field of the coordinate `d`. -/
def transposeField (nDims inB : ℕ) (inFieldEnds inMask utMask : Bitmask) (st : Fields) (d : ℕ) :
    Fields :=
  let utB := inB / 2
  let shiftAmt := (nDims - 1) * utB
  let field := st.inCoords &&& inMask
  let inCoords := st.inCoords >>> inB
  if inB % 2 = 1 then
    let inFieldStarts := inFieldEnds <<< (inB - 1)
    let coords := st.coords ||| (field &&& inFieldStarts) <<< (2 * shiftAmt + d)
    let field := field &&& ~~~inFieldStarts
    let field := (field ||| field <<< shiftAmt) &&& utMask
    ⟨inCoords, coords, st.utCoords ||| field <<< (d * utB)⟩
  else
    let field := (field ||| field <<< shiftAmt) &&& utMask
    ⟨inCoords, st.coords, st.utCoords ||| field <<< (d * utB)⟩

/-- The outer loop: every run halves the fields. -/
def transposeLoop (nDims inB : ℕ) (inFieldEnds inMask inCoords coords : Bitmask) : Bitmask :=
  let utB := inB / 2
  if utB = 0 then coords ||| inCoords
  else
    let shiftAmt := (nDims - 1) * utB
    let utFieldEnds := inFieldEnds ||| inFieldEnds <<< (shiftAmt + utB)
    let utMask := utFieldEnds <<< utB - utFieldEnds
    let st := (List.range nDims).foldl (transposeField nDims inB inFieldEnds inMask utMask)
      ⟨inCoords, coords, 0⟩
    transposeLoop nDims utB utFieldEnds utMask st.utCoords st.coords
termination_by inB
decreasing_by omega

def bitTranspose (nDims nBits : ℕ) (inCoords : Bitmask) : Bitmask :=
  transposeLoop nDims nBits 1 (ones nBits) inCoords 0

def rdbit (w : Bitmask) (k : ℕ) : Bitmask := w >>> k &&& 1

/-- The inner loop of `bitTranspose` without `DLOGB_BIT_TRANSPOSE`, with `b` bits of `inCoord` to go. -/
def spreadBits (nDims : ℕ) (inCoord : Bitmask) : ℕ → Bitmask → Bitmask
  | 0, out => out
  | b + 1, out => spreadBits nDims inCoord b (out <<< nDims ||| rdbit inCoord b)

/-- `bitTranspose` without `DLOGB_BIT_TRANSPOSE`. -/
def bitTransposePlain (nDims nBits : ℕ) (inCoords : Bitmask) : Bitmask :=
  ((List.range nDims).foldl (fun (st : Bitmask × Bitmask) d =>
    (st.1 >>> nBits, st.2 ||| spreadBits nDims (st.1 &&& ones nBits) nBits 0 <<< d)) (inCoords, 0)).2

/-! ## Indices and coordinates -/

/-- `for (b = start; b < limit; b *= 2) x ^= x >> b`. -/
def xorLoop (limit start : ℕ) (x : Bitmask) : Bitmask :=
  if 0 < start ∧ start < limit then xorLoop limit (start * 2) (x ^^^ x >>> start) else x
termination_by limit - start

/-- The loop of `hilbert_i2c`, with `b` groups of `nDims` bits to go. -/
def coordsLoop (nDims : ℕ) (index : Bitmask) : ℕ → ℕ → Bitmask → Bitmask → Bitmask
  | 0, _, _, coords => coords
  | b + 1, rotation, flipBit, coords =>
    let bits := index >>> (b * nDims) &&& ones nDims
    let coords := coords <<< nDims ||| (rotateLeft bits rotation nDims ^^^ flipBit)
    coordsLoop nDims index b (adjustRotation rotation nDims (ones nDims >>> 1) bits)
      ((1 : Bitmask) <<< rotation) coords

/-- The loop of `hilbert_c2i`. -/
def indexLoop (nDims : ℕ) (coords : Bitmask) : ℕ → ℕ → Bitmask → Bitmask → Bitmask
  | 0, _, _, index => index
  | b + 1, rotation, flipBit, index =>
    let bits := coords >>> (b * nDims) &&& ones nDims
    let bits := rotateRight (flipBit ^^^ bits) rotation nDims
    indexLoop nDims coords b (adjustRotation rotation nDims (ones nDims >>> 1) bits)
      ((1 : Bitmask) <<< rotation) (index <<< nDims ||| bits)

def nthbits (nDims nBits : ℕ) : Bitmask := ones (nDims * nBits) / ones nDims

/-- The loop of `hilbert_c2i` over the array: the first coordinate comes into the lowest bits. -/
def pack (nBits : ℕ) (coord : List Bitmask) : Bitmask :=
  coord.foldr (fun (c coords : Bitmask) => coords <<< nBits ||| c) 0

/-- The loop of `hilbert_i2c` over the array. -/
def unpack (nBits : ℕ) : ℕ → Bitmask → List Bitmask
  | 0, _ => []
  | d + 1, coords => (coords &&& ones nBits) :: unpack nBits d (coords >>> nBits)

/-- `hilbert_i2c`: the array `coord`. -/
def hilbertI2c (nDims nBits : ℕ) (index : Bitmask) : List Bitmask :=
  if nDims > 1 then
    let coords :=
      if nBits > 1 then
        let index := index ^^^ (index ^^^ nthbits nDims nBits) >>> 1
        let coords := coordsLoop nDims index nBits 0 0 0
        let coords := xorLoop (nDims * nBits) nDims coords
        bitTranspose nBits nDims coords
      else index ^^^ index >>> 1
    unpack nBits nDims coords
  else [index]

/-- `hilbert_c2i`. -/
def hilbertC2i (nDims nBits : ℕ) (coord : List Bitmask) : Bitmask :=
  if nDims > 1 then
    let coords := pack nBits coord
    let index :=
      if nBits > 1 then
        let coords := bitTranspose nDims nBits coords
        let coords := coords ^^^ coords >>> nDims
        let index := indexLoop nDims coords nBits 0 0 0
        index ^^^ nthbits nDims nBits >>> 1
      else coords
    xorLoop (nDims * nBits) 1 index
  else coord.headD 0

end Hilbert

/-- `overlap_bits`. The casts are those of nonnegative numbers to `unsigned long long`. -/
def Point.overlapBits (p : Point) : Hilbert.Bitmask :=
  Hilbert.hilbertC2i 2 32 [.ofNat 64 ⌊p.x⌋₊, .ofNat 64 ⌊p.y⌋₊]

end Silva
