import Silva.Geo.Proofs.TransposeProofs
import Silva.Geo.Proofs.MortonProofs

/-!
# Proofs: Hilbert codes are a bijection

Both loops over the digits are machines whose state is a rotation and a flipped bit, and one undoes
every step of the other. What is done before and after the loops can be undone, too.
-/

namespace Silva

namespace Hilbert

open BitWord

variable {n m k limit start r : ℕ} {x y index : Bitmask} {coord : List Bitmask}

/-! ## The loops that halve -/

theorem below_xorLoop (hx : Below k x) : Below k (xorLoop limit start x) := by
  fun_induction xorLoop limit start x with
  | case1 start x h ih => exact ih (hx.xor (hx.ushiftRight start))
  | case2 start x h => exact hx

theorem xorLoop_xor (hs : 0 < start) (hx : Below limit x) :
    xorLoop limit start (x ^^^ x >>> start) = x := by
  induction hk : limit - start using Nat.strong_induction_on generalizing start with
  | h k ih =>
    rw [xorLoop]
    by_cases hlt : start < limit
    · rw [if_pos ⟨hs, hlt⟩, xor_ushiftRight_twice]
      exact ih (limit - start * 2) (by omega) (by omega) rfl
    · rw [if_neg fun h => hlt h.2, hx.ushiftRight_eq_zero (not_lt.mp hlt)]
      exact BitVec.xor_zero

theorem xorLoop_comm (x : Bitmask) (d : ℕ) : xorLoop limit start (x ^^^ x >>> d) =
    xorLoop limit start x ^^^ xorLoop limit start x >>> d := by
  fun_induction xorLoop limit start x with
  | case1 start x h ih => rw [xorLoop, if_pos h, xor_ushiftRight_comm, ih]
  | case2 start x h => rw [xorLoop, if_neg h]

theorem xor_xorLoop (hs : 0 < start) (hx : Below limit x) :
    xorLoop limit start x ^^^ xorLoop limit start x >>> start = x := by
  rw [← xorLoop_comm, xorLoop_xor hs hx]

/-! ## Rotations -/

theorem countShifts_le (hx : Below k x) : countShifts x r ≤ r + k := by
  fun_induction countShifts x r generalizing k with
  | case1 r => omega
  | case2 x r hne ih =>
    have hk : 0 < k := by
      by_contra hzero
      refine hne (BitVec.eq_of_getLsbD_eq fun i hi => ?_)
      rw [hx i (by omega)]
      simp
    have hshift : Below (k - 1) (x >>> 1) := fun i hi => by
      rw [BitVec.getLsbD_ushiftRight]
      exact hx _ (by omega)
    have := ih hshift
    omega

theorem below_ones (hn : 0 < n) (hn64 : n ≤ 64) : Below n (ones n) := fun i hi => by
  rw [← Bool.not_eq_true, getLsbD_ones hn hn64]
  exact not_lt.mpr hi

theorem adjustRotation_lt (hn64 : n ≤ 64) (hr : r < n) (bits : Bitmask) :
    adjustRotation r n (ones n >>> 1) bits < n := by
  have hbits : Below (n - 1) (bits &&& (-bits &&& ones n >>> 1)) := fun i hi => by
    rw [BitVec.getLsbD_and, BitVec.getLsbD_and, BitVec.getLsbD_ushiftRight,
      below_ones (by omega) hn64 (1 + i) (by omega), Bool.and_false, Bool.and_false]
  have := countShifts_le (r := r) hbits
  unfold adjustRotation
  dsimp only
  split <;> omega

/-- A digit as a word. -/
theorem getLsbD_digit {d : BitVec n} (hn64 : n ≤ 64) (i : ℕ) :
    (d.setWidth 64).getLsbD i = d.getLsbD i := by
  rw [BitVec.getLsbD_setWidth]
  by_cases hi : i < 64
  · rw [decide_eq_true hi, Bool.true_and]
  · rw [BitVec.getLsbD_of_ge d i (by omega), Bool.and_false]

theorem rotateLeft_digit (hn64 : n ≤ 64) (hr : r < n) (d : BitVec n) :
    rotateLeft (d.setWidth 64) r n = (d.rotateLeft r).setWidth 64 := by
  refine BitVec.eq_of_getLsbD_eq fun i hi => ?_
  rw [rotateLeft, BitVec.getLsbD_and, BitVec.getLsbD_or, BitVec.getLsbD_shiftLeft,
    BitVec.getLsbD_ushiftRight, getLsbD_digit hn64, getLsbD_digit hn64, getLsbD_digit hn64,
    BitVec.getLsbD_rotateLeft_of_le hr]
  by_cases hin : i < n
  · rw [(getLsbD_ones (by omega) hn64 i).mpr hin, Bool.and_true]
    by_cases hir : i < r
    · simp [hir]
    · rw [BitVec.getLsbD_of_ge d (n - r + i) (by omega)]
      simp [hir, hi, hin]
  · rw [below_ones (by omega) hn64 i (by omega), Bool.and_false]
    simp [hin, show ¬i < r by omega]

theorem rotateRight_digit (hn64 : n ≤ 64) (hr : r < n) (d : BitVec n) :
    rotateRight (d.setWidth 64) r n = (d.rotateRight r).setWidth 64 := by
  refine BitVec.eq_of_getLsbD_eq fun i hi => ?_
  rw [rotateRight, BitVec.getLsbD_and, BitVec.getLsbD_or, BitVec.getLsbD_shiftLeft,
    BitVec.getLsbD_ushiftRight, getLsbD_digit hn64, getLsbD_digit hn64, getLsbD_digit hn64,
    BitVec.getLsbD_rotateRight_of_lt hr]
  by_cases hin : i < n
  · rw [(getLsbD_ones (by omega) hn64 i).mpr hin, Bool.and_true]
    by_cases hir : i < n - r
    · simp [hir]
    · rw [BitVec.getLsbD_of_ge d (r + i) (by omega)]
      simp [hir, hi, hin]
  · rw [below_ones (by omega) hn64 i (by omega), Bool.and_false]
    simp [hin, show ¬i < n - r by omega]

theorem rotateRight_rotateLeft (hr : r < n) (d : BitVec n) : (d.rotateLeft r).rotateRight r = d := by
  refine BitVec.eq_of_getLsbD_eq fun i hi => ?_
  rw [BitVec.getLsbD_rotateRight_of_lt hr, BitVec.getLsbD_rotateLeft_of_le hr,
    BitVec.getLsbD_rotateLeft_of_le hr]
  by_cases hir : i < n - r
  · simp [hir, show r + i < n by omega]
  · have h1 : i - (n - r) < r := by omega
    have h2 : n - r + (i - (n - r)) = i := by omega
    simp [hir, hi, h1, h2]

theorem rotateLeft_rotateRight (hr : r < n) (d : BitVec n) : (d.rotateRight r).rotateLeft r = d := by
  refine BitVec.eq_of_getLsbD_eq fun i hi => ?_
  rw [BitVec.getLsbD_rotateLeft_of_le hr, BitVec.getLsbD_rotateRight_of_lt hr,
    BitVec.getLsbD_rotateRight_of_lt hr]
  by_cases hir : i < r
  · simp [hir, show n - r + i < n by omega]
  · have h1 : i - r < n - r := by omega
    have h2 : r + (i - r) = i := by omega
    simp [hir, hi, h1, h2]

/-! ## The loops over the digits -/

/-- The rotation that follows. -/
def nextRotation (r : ℕ) (bits : BitVec n) : ℕ :=
  adjustRotation r n (ones n >>> 1) (bits.setWidth 64)

/-- A step of the loop of `hilbert_i2c` on a digit. The state is the rotation and the flipped bit. -/
def coordStep (s : ℕ × BitVec n) (bits : BitVec n) : BitVec n × (ℕ × BitVec n) :=
  (bits.rotateLeft s.1 ^^^ s.2, nextRotation s.1 bits, BitVec.twoPow n s.1)

/-- A step of the loop of `hilbert_c2i`. -/
def indexStep (s : ℕ × BitVec n) (d : BitVec n) : BitVec n × (ℕ × BitVec n) :=
  let bits := (s.2 ^^^ d).rotateRight s.1
  (bits, nextRotation s.1 bits, BitVec.twoPow n s.1)

theorem run_indexStep_coordStep (hn64 : n ≤ 64) (hr : r < n) (flip : BitVec n) (ds : List (BitVec n)) :
    run indexStep (r, flip) (run coordStep (r, flip) ds) = ds := by
  refine run_run (I := fun s => s.1 < n) (fun s a hs => adjustRotation_lt hn64 hs _) (fun s a hs => ?_)
    hr ds
  have hbits : (s.2 ^^^ (a.rotateLeft s.1 ^^^ s.2)).rotateRight s.1 = a := by
    rw [BitVec.xor_comm (a.rotateLeft s.1), ← BitVec.xor_assoc, BitVec.xor_self, BitVec.zero_xor,
      rotateRight_rotateLeft hs]
  simp only [indexStep, coordStep, hbits]

theorem run_coordStep_indexStep (hn64 : n ≤ 64) (hr : r < n) (flip : BitVec n) (ds : List (BitVec n)) :
    run coordStep (r, flip) (run indexStep (r, flip) ds) = ds := by
  refine run_run (I := fun s => s.1 < n) (fun s a hs => adjustRotation_lt hn64 hs _) (fun s a hs => ?_)
    hr ds
  simp only [indexStep, coordStep, rotateLeft_rotateRight hs]
  rw [BitVec.xor_comm s.2, BitVec.xor_assoc, BitVec.xor_self, BitVec.xor_zero]

/-- The digit that a loop reads. -/
theorem digit_eq (hn : 0 < n) (hn64 : n ≤ 64) (x : Bitmask) (b : ℕ) :
    x >>> (b * n) &&& ones n = (x.extractLsb' (b * n) n).setWidth 64 := by
  refine BitVec.eq_of_getLsbD_eq fun i hi => ?_
  rw [BitVec.getLsbD_and, BitVec.getLsbD_ushiftRight, getLsbD_digit hn64, BitVec.getLsbD_extractLsb',
    Bool.and_comm]
  congr 1
  rw [Bool.eq_iff_iff, getLsbD_ones hn hn64, decide_eq_true_iff]

/-- The bit that a loop flips. -/
theorem flipBit_eq (hn64 : n ≤ 64) (hr : r < n) :
    (1 : Bitmask) <<< r = (BitVec.twoPow n r).setWidth 64 := by
  refine BitVec.eq_of_getLsbD_eq fun i hi => ?_
  show (BitVec.twoPow 64 r).getLsbD i = _
  rw [getLsbD_digit hn64, BitVec.getLsbD_twoPow, BitVec.getLsbD_twoPow, decide_eq_true hr,
    decide_eq_true (show r < 64 by omega)]

theorem coordsLoop_eq (hn64 : n ≤ 64) (hr : r < n) (flip : BitVec n) (b : ℕ) (coords : Bitmask) :
    coordsLoop n x b r (flip.setWidth 64) coords =
      appendDigits coords (run coordStep (r, flip) (digits n b x)) := by
  induction b generalizing r flip coords with
  | zero => rfl
  | succ b ih =>
    rw [coordsLoop, digit_eq (by omega) hn64, rotateLeft_digit hn64 hr, flipBit_eq hn64 hr,
      ← BitVec.setWidth_xor]
    exact ih (adjustRotation_lt hn64 hr _) _ _

theorem indexLoop_eq (hn64 : n ≤ 64) (hr : r < n) (flip : BitVec n) (b : ℕ) (index : Bitmask) :
    indexLoop n x b r (flip.setWidth 64) index =
      appendDigits index (run indexStep (r, flip) (digits n b x)) := by
  induction b generalizing r flip index with
  | zero => rfl
  | succ b ih =>
    rw [indexLoop, digit_eq (by omega) hn64, ← BitVec.setWidth_xor, rotateRight_digit hn64 hr,
      flipBit_eq hn64 hr]
    exact ih (adjustRotation_lt hn64 hr _) _ _

/-! ## Words of coordinates -/

theorem below_bitTranspose (hn : 2 ≤ n) (hm : 0 < m) (h64 : n * m ≤ 64) (hx : Below (n * m) x) :
    Below (n * m) (bitTranspose n m x) := by
  intro k hk
  rw [← Bool.not_eq_true, getLsbD_bitTranspose hn hm h64 hx]
  rintro ⟨b, hb, d, hd, rfl, -⟩
  have := Nat.mul_le_mul_left n hb
  rw [Nat.mul_succ] at this
  omega

theorem bitTranspose_bitTranspose (hn : 2 ≤ n) (hm : 2 ≤ m) (h64 : n * m ≤ 64) (hx : Below (n * m) x) :
    bitTranspose m n (bitTranspose n m x) = x := by
  have hmn : m * n ≤ 64 := by rwa [Nat.mul_comm]
  have hbelow : Below (m * n) (bitTranspose n m x) := by
    rw [Nat.mul_comm]
    exact below_bitTranspose hn (by omega) h64 hx
  refine BitVec.eq_of_getLsbD_eq fun k _ => ?_
  rw [Bool.eq_iff_iff, getLsbD_bitTranspose hm (by omega) hmn hbelow]
  constructor
  · rintro ⟨d, hd, b, hb, rfl, hbit⟩
    obtain ⟨b', hb', d', hd', heq, hbit'⟩ := (getLsbD_bitTranspose hn (by omega) h64 hx _).mp hbit
    obtain ⟨rfl, rfl⟩ : b = b' ∧ d = d' := by
      have hmod := congrArg (· % n) heq
      have hdiv := congrArg (· / n) heq
      simp only [Nat.mul_add_mod_self_left, Nat.mod_eq_of_lt hd, Nat.mod_eq_of_lt hd', Nat.mul_comm b n,
        Nat.mul_add_div (show 0 < n by omega), Nat.div_eq_of_lt hd, Nat.div_eq_of_lt hd',
        Nat.add_zero] at hmod hdiv
      exact ⟨hdiv, hmod⟩
    rwa [Nat.mul_comm m]
  · intro hk
    have hlt := hx.lt hk
    have hb : k % m < m := Nat.mod_lt k (by omega)
    have hd : k / m < n := Nat.div_lt_of_lt_mul (by rwa [Nat.mul_comm])
    refine ⟨k / m, hd, k % m, hb, (Nat.div_add_mod k m).symm, ?_⟩
    refine (getLsbD_bitTranspose hn (by omega) h64 hx _).mpr
      ⟨k % m, hb, k / m, hd, by rw [Nat.mul_comm], ?_⟩
    rwa [Nat.div_add_mod']

theorem below_pack (hcoord : ∀ c ∈ coord, Below m c) : Below (coord.length * m) (pack m coord) := by
  induction coord with
  | nil =>
    intro i _
    exact BitVec.getLsbD_zero
  | cons c coord ih =>
    intro i hi
    have hlen : (c :: coord).length * m = coord.length * m + m := by rw [List.length_cons, Nat.succ_mul]
    show (pack m coord <<< m ||| c).getLsbD i = false
    rw [BitVec.getLsbD_or, BitVec.getLsbD_shiftLeft, hcoord c List.mem_cons_self i (by omega),
      ih (fun c hc => hcoord c (List.mem_cons_of_mem _ hc)) (i - m) (by omega), Bool.and_false]
    rfl

theorem unpack_pack (hm : 0 < m) (h64 : coord.length * m ≤ 64) (hcoord : ∀ c ∈ coord, Below m c) :
    unpack m coord.length (pack m coord) = coord := by
  induction coord with
  | nil => rfl
  | cons c coord ih =>
    have hlen : (c :: coord).length * m = coord.length * m + m := by rw [List.length_cons, Nat.succ_mul]
    have hc := hcoord c List.mem_cons_self
    have hrest : ∀ c ∈ coord, Below m c := fun c hc => hcoord c (List.mem_cons_of_mem _ hc)
    have hlow : (pack m coord <<< m ||| c) &&& ones m = c := by
      refine BitVec.eq_of_getLsbD_eq fun i hi => ?_
      rw [BitVec.getLsbD_and, BitVec.getLsbD_or, BitVec.getLsbD_shiftLeft]
      by_cases him : i < m
      · rw [(getLsbD_ones hm (by omega) i).mpr him]
        simp [him]
      · rw [below_ones hm (by omega) i (by omega), hc i (by omega), Bool.and_false]
    have hhigh : (pack m coord <<< m ||| c) >>> m = pack m coord := by
      refine BitVec.eq_of_getLsbD_eq fun i hi => ?_
      rw [BitVec.getLsbD_ushiftRight, BitVec.getLsbD_or, BitVec.getLsbD_shiftLeft, hc (m + i) (by omega),
        Bool.or_false, Nat.add_sub_cancel_left]
      by_cases hlt : m + i < 64
      · simp [hlt]
      · rw [below_pack hrest i (by omega), Bool.and_false]
    rw [List.length_cons, unpack]
    show ((pack m coord <<< m ||| c) &&& ones m) ::
      unpack m coord.length ((pack m coord <<< m ||| c) >>> m) = _
    rw [hlow, hhigh, ih (by omega) hrest]

theorem pack_unpack (hm : 0 < m) (h64 : n * m ≤ 64) (hx : Below (n * m) x) :
    pack m (unpack m n x) = x := by
  induction n generalizing x with
  | zero =>
    refine BitVec.eq_of_getLsbD_eq fun i _ => ?_
    rw [hx i (by omega)]
    exact BitVec.getLsbD_zero
  | succ n ih =>
    rw [Nat.succ_mul] at h64 hx
    have hshift : Below (n * m) (x >>> m) := fun i hi => by
      rw [BitVec.getLsbD_ushiftRight]
      exact hx _ (by omega)
    show pack m (unpack m n (x >>> m)) <<< m ||| (x &&& ones m) = x
    rw [ih (by omega) hshift]
    refine BitVec.eq_of_getLsbD_eq fun i hi => ?_
    rw [BitVec.getLsbD_or, BitVec.getLsbD_shiftLeft, BitVec.getLsbD_ushiftRight, BitVec.getLsbD_and]
    by_cases him : i < m
    · rw [(getLsbD_ones hm (by omega) i).mpr him]
      simp [him]
    · rw [below_ones hm (by omega) i (by omega), Nat.add_sub_cancel' (by omega)]
      simp [him, hi]

@[simp] theorem length_unpack (m n : ℕ) (x : Bitmask) : (unpack m n x).length = n := by
  induction n generalizing x with
  | zero => rfl
  | succ n ih => rw [unpack, List.length_cons, ih]

/-! ## Round trips -/

theorem below_nthbits (hn : 0 < n) (hm : 0 < m) (h64 : n * m ≤ 64) : Below (n * m) (nthbits n m) := by
  rw [below_iff, nthbits, BitVec.toNat_udiv]
  exact (Nat.div_le_self _ _).trans_lt (below_iff.mp (below_ones (Nat.mul_pos hn hm) h64))

/-- The word that the loop of `hilbert_i2c` reads. -/
theorem gray_eq (index nth : Bitmask) :
    index ^^^ (index ^^^ nth) >>> 1 = (index ^^^ index >>> 1) ^^^ nth >>> 1 := by
  rw [BitVec.ushiftRight_xor_distrib, BitVec.xor_assoc]

/-- The coordinates of the digits that the loop of `hilbert_i2c` reads, in one word. -/
def coordsOf (n m : ℕ) (x : Bitmask) : Bitmask :=
  bitTranspose m n (xorLoop (n * m) n (coordsLoop n x m 0 0 0))

/-- The digits that the loop of `hilbert_c2i` writes. -/
def indexOf (n m : ℕ) (x : Bitmask) : Bitmask :=
  indexLoop n (bitTranspose n m x ^^^ bitTranspose n m x >>> n) m 0 0 0

section Middle

variable (hn : 2 ≤ n) (hm : 2 ≤ m) (h64 : n * m ≤ 64)

include hn h64

theorem coordsLoop_zero (hm : 0 < m) (x : Bitmask) :
    coordsLoop n x m 0 0 0 = appendDigits 0 (run coordStep (0, 0) (digits n m x)) := by
  have hnm : n ≤ 64 := (Nat.le_mul_of_pos_right n hm).trans h64
  have h := coordsLoop_eq (x := x) hnm (show 0 < n by omega) 0 m 0
  rwa [show ((0 : BitVec n).setWidth 64) = 0 from BitVec.setWidth_zero 64 n] at h

theorem indexLoop_zero (hm : 0 < m) (x : Bitmask) :
    indexLoop n x m 0 0 0 = appendDigits 0 (run indexStep (0, 0) (digits n m x)) := by
  have hnm : n ≤ 64 := (Nat.le_mul_of_pos_right n hm).trans h64
  have h := indexLoop_eq (x := x) hnm (show 0 < n by omega) 0 m 0
  rwa [show ((0 : BitVec n).setWidth 64) = 0 from BitVec.setWidth_zero 64 n] at h

omit hn in
/-- What a loop writes has the digits that its machine puts out. -/
theorem digits_run (step : ℕ × BitVec n → BitVec n → BitVec n × (ℕ × BitVec n)) (x : Bitmask) :
    digits n m (appendDigits (0 : Bitmask) (run step (0, 0) (digits n m x))) =
        run step (0, 0) (digits n m x) ∧
      Below (n * m) (appendDigits (0 : Bitmask) (run step (0, 0) (digits n m x))) := by
  have hlen : (run step (0, 0) (digits n m x)).length = m := by rw [length_run, length_digits]
  have hdig := digits_appendDigits (run step (0, 0) (digits n m x)) (0 : Bitmask)
    (by rwa [hlen, Nat.mul_comm])
  have hbelow := below_appendDigits (w := 64) (run step (0, 0) (digits n m x))
  rw [hlen] at hdig hbelow
  exact ⟨hdig, by rwa [Nat.mul_comm]⟩

include hm

theorem below_coordsOf (x : Bitmask) : Below (n * m) (coordsOf n m x) := by
  have hmn : m * n ≤ 64 := by rwa [Nat.mul_comm]
  rw [coordsOf, coordsLoop_zero hn h64 (by omega)]
  have hbelow : Below (n * m) (xorLoop (n * m) n _) := below_xorLoop (digits_run h64 coordStep x).2
  rw [Nat.mul_comm] at hbelow ⊢
  exact below_bitTranspose hm (by omega) hmn hbelow

theorem below_indexOf (x : Bitmask) : Below (n * m) (indexOf n m x) := by
  rw [indexOf, indexLoop_zero hn h64 (by omega)]
  exact (digits_run h64 indexStep _).2

theorem indexOf_coordsOf (hx : Below (n * m) x) : indexOf n m (coordsOf n m x) = x := by
  have hnm : n ≤ 64 := (Nat.le_mul_of_pos_right n (show 0 < m by omega)).trans h64
  have hmn : m * n ≤ 64 := by rwa [Nat.mul_comm]
  obtain ⟨hdigits, hbelow⟩ := digits_run h64 coordStep x
  have hloop : Below (m * n) (xorLoop (n * m) n
      (appendDigits (0 : Bitmask) (run coordStep (0, 0) (digits n m x)))) := by
    rw [Nat.mul_comm m]
    exact below_xorLoop hbelow
  rw [indexOf, coordsOf, coordsLoop_zero hn h64 (by omega), bitTranspose_bitTranspose hm hn hmn hloop,
    xor_xorLoop (by omega) hbelow, indexLoop_zero hn h64 (by omega), hdigits,
    run_indexStep_coordStep hnm (by omega)]
  rw [Nat.mul_comm] at hx
  exact appendDigits_digits (by omega) hmn hx

theorem coordsOf_indexOf (hx : Below (n * m) x) : coordsOf n m (indexOf n m x) = x := by
  have hnm : n ≤ 64 := (Nat.le_mul_of_pos_right n (show 0 < m by omega)).trans h64
  have hmn : m * n ≤ 64 := by rwa [Nat.mul_comm]
  have hT := below_bitTranspose hn (by omega) h64 hx
  have hC : Below (m * n) (bitTranspose n m x ^^^ bitTranspose n m x >>> n) := by
    rw [Nat.mul_comm]
    exact hT.xor (hT.ushiftRight n)
  rw [coordsOf, indexOf, indexLoop_zero hn h64 (by omega), coordsLoop_zero hn h64 (by omega),
    (digits_run h64 indexStep _).1, run_coordStep_indexStep hnm (by omega),
    appendDigits_digits (by omega) hmn hC, xorLoop_xor (by omega) hT,
    bitTranspose_bitTranspose hn hm h64 hx]

end Middle

/-- `hilbert_i2c` and `hilbert_c2i` with several coordinates of several bits. -/
theorem hilbertI2c_eq (hn : n > 1) (hm : m > 1) (index : Bitmask) : hilbertI2c n m index =
    unpack m n (coordsOf n m ((index ^^^ index >>> 1) ^^^ nthbits n m >>> 1)) := by
  unfold hilbertI2c
  simp only [if_pos hn, if_pos hm, gray_eq]
  rfl

theorem hilbertC2i_eq (hn : n > 1) (hm : m > 1) (coord : List Bitmask) : hilbertC2i n m coord =
    xorLoop (n * m) 1 (indexOf n m (pack m coord) ^^^ nthbits n m >>> 1) := by
  unfold hilbertC2i
  simp only [if_pos hn, if_pos hm]
  rfl

/-- The code of the point that has a code. -/
theorem hilbertC2i_hilbertI2c (hm : 0 < m) (h64 : n * m ≤ 64) (hindex : index.toNat < 2 ^ (n * m)) :
    hilbertC2i n m (hilbertI2c n m index) = index := by
  have hx : Below (n * m) index := below_iff.mpr hindex
  by_cases hn : n > 1
  · by_cases hm1 : m > 1
    · have hnth := (below_nthbits (by omega) hm h64).ushiftRight 1
      have hg := (hx.xor (hx.ushiftRight 1)).xor hnth
      rw [hilbertI2c_eq hn hm1, hilbertC2i_eq hn hm1, pack_unpack hm h64 (below_coordsOf hn hm1 h64 _),
        indexOf_coordsOf hn hm1 h64 hg, BitVec.xor_assoc, BitVec.xor_self, BitVec.xor_zero]
      exact xorLoop_xor Nat.one_pos hx
    · obtain rfl : m = 1 := by omega
      unfold hilbertC2i hilbertI2c
      simp only [if_pos hn, if_neg hm1]
      rw [pack_unpack hm h64 (hx.xor (hx.ushiftRight 1))]
      exact xorLoop_xor Nat.one_pos hx
  · unfold hilbertC2i hilbertI2c
    simp only [if_neg hn]
    rfl

/-- The point that has the code of a point. -/
theorem hilbertI2c_hilbertC2i (hm : 0 < m) (hlen : coord.length = n) (hn0 : 0 < n) (h64 : n * m ≤ 64)
    (hcoord : ∀ c ∈ coord, c.toNat < 2 ^ m) : hilbertI2c n m (hilbertC2i n m coord) = coord := by
  have hbelow : ∀ c ∈ coord, Below m c := fun c hc => below_iff.mpr (hcoord c hc)
  have hpack : Below (n * m) (pack m coord) := hlen ▸ below_pack hbelow
  by_cases hn : n > 1
  · by_cases hm1 : m > 1
    · have hnth := (below_nthbits (by omega) hm h64).ushiftRight 1
      have hJ := (below_indexOf hn hm1 h64 (pack m coord)).xor hnth
      rw [hilbertC2i_eq hn hm1, hilbertI2c_eq hn hm1, xor_xorLoop Nat.one_pos hJ, BitVec.xor_assoc,
        BitVec.xor_self]
      refine (congrArg (fun x => unpack m n (coordsOf n m x)) BitVec.xor_zero).trans ?_
      rw [coordsOf_indexOf hn hm1 h64 hpack, ← hlen]
      exact unpack_pack hm (by rwa [hlen]) hbelow
    · obtain rfl : m = 1 := by omega
      unfold hilbertC2i hilbertI2c
      simp only [if_pos hn, if_neg hm1]
      rw [xor_xorLoop Nat.one_pos hpack, ← hlen]
      exact unpack_pack hm (by rwa [hlen]) hbelow
  · unfold hilbertC2i hilbertI2c
    simp only [if_neg hn]
    obtain ⟨c, rfl⟩ := List.length_eq_one_iff.mp (show coord.length = 1 by omega)
    rfl

/-- Codes tell points apart. -/
theorem hilbertC2i_inj {coord' : List Bitmask} (hm : 0 < m) (hlen : coord.length = n)
    (hlen' : coord'.length = n) (hn0 : 0 < n) (h64 : n * m ≤ 64) (hcoord : ∀ c ∈ coord, c.toNat < 2 ^ m)
    (hcoord' : ∀ c ∈ coord', c.toNat < 2 ^ m) :
    hilbertC2i n m coord = hilbertC2i n m coord' ↔ coord = coord' := by
  refine ⟨fun h => ?_, fun h => h ▸ rfl⟩
  rw [← hilbertI2c_hilbertC2i hm hlen hn0 h64 hcoord, h, hilbertI2c_hilbertC2i hm hlen' hn0 h64 hcoord']

/-- The cells of the grid that the curve runs through. -/
def Cells (n m : ℕ) : Set (List Bitmask) := { coord | coord.length = n ∧ ∀ c ∈ coord, c.toNat < 2 ^ m }

/-- The places on the curve. -/
def Indices (n m : ℕ) : Set Bitmask := { index | index.toNat < 2 ^ (n * m) }

theorem below_unpack (hm : 0 < m) (hm64 : m ≤ 64) : ∀ c ∈ unpack m n x, Below m c := by
  induction n generalizing x with
  | zero =>
    intro c hc
    cases hc
  | succ n ih =>
    intro c hc
    rcases List.mem_cons.mp hc with rfl | hc'
    · intro i hi
      rw [BitVec.getLsbD_and, below_ones hm hm64 i hi, Bool.and_false]
    · exact ih c hc'

theorem hilbertI2c_mem_cells (hn : 0 < n) (hm : 0 < m) (h64 : n * m ≤ 64)
    (hindex : index ∈ Indices n m) : hilbertI2c n m index ∈ Cells n m := by
  have hm64 : m ≤ 64 := (Nat.le_mul_of_pos_left m hn).trans h64
  unfold hilbertI2c
  by_cases hn1 : n > 1
  · rw [if_pos hn1]
    exact ⟨length_unpack .., fun c hc => below_iff.mp (below_unpack hm hm64 c hc)⟩
  · obtain rfl : n = 1 := by omega
    rw [if_neg hn1]
    refine ⟨rfl, fun c hc => ?_⟩
    rw [List.mem_singleton.mp hc, ← Nat.one_mul m]
    exact hindex

theorem hilbertC2i_mem_indices (hn : 0 < n) (hm : 0 < m) (h64 : n * m ≤ 64)
    (hcoord : coord ∈ Cells n m) : hilbertC2i n m coord ∈ Indices n m := by
  obtain ⟨hlen, hlt⟩ := hcoord
  have hpack : Below (n * m) (pack m coord) := hlen ▸ below_pack fun c hc => below_iff.mpr (hlt c hc)
  refine below_iff.mp ?_
  unfold hilbertC2i
  by_cases hn1 : n > 1
  · simp only [if_pos hn1]
    refine below_xorLoop ?_
    by_cases hm1 : m > 1
    · rw [if_pos hm1]
      exact (below_indexOf hn1 hm1 h64 _).xor ((below_nthbits hn hm h64).ushiftRight 1)
    · rwa [if_neg hm1]
  · obtain rfl : n = 1 := by omega
    obtain ⟨c, rfl⟩ := List.length_eq_one_iff.mp hlen
    rw [if_neg hn1, Nat.one_mul]
    exact below_iff.mpr (hlt c List.mem_cons_self)

/-- The curve runs through every cell once, and `hilbert_c2i` tells where. -/
theorem hilbert_bijective (hn : 0 < n) (hm : 0 < m) (h64 : n * m ≤ 64) :
    Set.BijOn (hilbertI2c n m) (Indices n m) (Cells n m) ∧
      Set.InvOn (hilbertC2i n m) (hilbertI2c n m) (Indices n m) (Cells n m) := by
  have hinv : Set.InvOn (hilbertC2i n m) (hilbertI2c n m) (Indices n m) (Cells n m) :=
    ⟨fun index hindex => hilbertC2i_hilbertI2c hm h64 hindex,
      fun coord hcoord => hilbertI2c_hilbertC2i hm hcoord.1 hn h64 hcoord.2⟩
  refine ⟨hinv.bijOn (fun index hindex => ?_) fun coord hcoord => ?_, hinv⟩
  · exact hilbertI2c_mem_cells hn hm h64 hindex
  · exact hilbertC2i_mem_indices hn hm h64 hcoord

theorem hilbert_bijective_space : Set.BijOn (hilbertI2c 3 4) (Indices 3 4) (Cells 3 4) ∧
    Set.InvOn (hilbertC2i 3 4) (hilbertI2c 3 4) (Indices 3 4) (Cells 3 4) :=
  hilbert_bijective (by decide) (by decide) (by decide)

end Hilbert

/-- The Hilbert code of a point tells its cell, as the Morton code does. -/
theorem Point.overlapBits_eq_iff {p q : Point} (hp : p.InDomain) (hq : q.InDomain) :
    p.overlapBits = q.overlapBits ↔ p.interleaveBits = q.interleaveBits := by
  have hlt : ∀ {x : FT}, 0 ≤ x → x < 2 ^ 32 → ⌊x⌋₊ < 2 ^ 32 := fun h0 hx =>
    (Nat.floor_lt h0).mpr (by exact_mod_cast hx)
  have hword : ∀ {a : ℕ}, a < 2 ^ 32 → (BitVec.ofNat 64 a).toNat = a := fun ha => by
    rw [BitVec.toNat_ofNat]
    exact Nat.mod_eq_of_lt (by omega)
  have hxp := hlt hp.x_nonneg hp.x_lt
  have hyp := hlt hp.y_nonneg hp.y_lt
  have hxq := hlt hq.x_nonneg hq.x_lt
  have hyq := hlt hq.y_nonneg hq.y_lt
  have hcoord : ∀ {a b : ℕ}, a < 2 ^ 32 → b < 2 ^ 32 →
      ∀ c ∈ [BitVec.ofNat 64 a, BitVec.ofNat 64 b], c.toNat < 2 ^ 32 := by
    intro a b ha hb c hc
    rcases List.mem_pair.mp hc with rfl | rfl
    · rwa [hword ha]
    · rwa [hword hb]
  have hcast : ∀ {a b : ℕ}, a < 2 ^ 32 → b < 2 ^ 32 →
      (BitVec.ofNat 64 a = BitVec.ofNat 64 b ↔ a = b) := by
    intro a b ha hb
    rw [← BitVec.toNat_inj, hword ha, hword hb]
  have hinj : p.overlapBits = q.overlapBits ↔ _ = _ :=
    Hilbert.hilbertC2i_inj (n := 2) (m := 32) (by decide) (by rfl) (by rfl) (by decide) (by decide)
      (hcoord hxp hyp) (hcoord hxq hyq)
  rw [hinj, interleaveBits_inj, toUint_eq_floor hp.x_lt, toUint_eq_floor hp.y_lt,
    toUint_eq_floor hq.x_lt, toUint_eq_floor hq.y_lt]
  simp only [List.cons.injEq, and_true, hcast hxp hxq, hcast hyp hyq]

theorem Point.overlapBits_eq_iff_halves :
    (Point.ofXY (1 / 2) 3).overlapBits = (Point.ofXY (3 / 4) 3).overlapBits ↔
      (Point.ofXY (1 / 2) 3).interleaveBits = (Point.ofXY (3 / 4) 3).interleaveBits :=
  Point.overlapBits_eq_iff ⟨by norm_num [ofXY], by norm_num [ofXY], by norm_num [ofXY], by norm_num [ofXY]⟩
    ⟨by norm_num [ofXY], by norm_num [ofXY], by norm_num [ofXY], by norm_num [ofXY]⟩

end Silva
