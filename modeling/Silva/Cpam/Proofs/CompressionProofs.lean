import Silva.Cpam.Compression

/-!
# Proofs: what difference encoding keeps

A difference that is not zero is read back with whatever follows it. The difference zero is not written
at all, but read as one: a block is read back if and only if no two neighbouring keys are equal.
-/

namespace Silva

namespace Cpam

variable {w : ℕ} {V : Type*} {diff value prevKey : BitVec w} {rest : List UInt8}
  {es : List (BitVec w × V)}

/-! ## Bytes -/

theorem toNat_shiftRight_seven (diff : BitVec w) : (diff >>> 7).toNat = diff.toNat / 128 := by
  rw [BitVec.toNat_ushiftRight, Nat.shiftRight_eq_div_pow]

theorem and_low (n : ℕ) : n &&& 0x7f = n % 128 := Nat.and_two_pow_sub_one_eq_mod n 7

theorem encodeUnsigned_zero : encodeUnsigned (0 : BitVec w) = [] := by
  rw [encodeUnsigned]
  simp

/-- One byte more: it carries the last seven bits, and the flag when others follow. -/
theorem encodeUnsigned_cons (h : diff ≠ 0) : ∃ b, encodeUnsigned diff = b :: encodeUnsigned (diff >>> 7) ∧
    (b &&& 0x7f).toNat = diff.toNat % 128 ∧ (b &&& 0x80 = 0 ↔ diff >>> 7 = 0) := by
  have hpos : 0 < diff.toNat := Nat.pos_of_ne_zero fun hzero => h (BitVec.eq_of_toNat_eq hzero)
  have hbyte : ∀ n : Fin 128, ((UInt8.ofNat n.val) &&& 0x7f).toNat = n.val ∧
      (UInt8.ofNat n.val) &&& 0x80 = 0 ∧ ((UInt8.ofNat n.val ||| 0x80) &&& 0x7f).toNat = n.val ∧
      ¬(UInt8.ofNat n.val ||| 0x80) &&& 0x80 = 0 := by decide +kernel
  obtain ⟨h1, h2, h3, h4⟩ := hbyte ⟨diff.toNat % 128, Nat.mod_lt _ (by decide)⟩
  rw [encodeUnsigned, and_low, if_pos (Or.inr hpos)]
  refine ⟨_, rfl, ?_⟩
  by_cases hmore : (diff >>> 7).toNat > 0
  · rw [if_pos hmore]
    exact ⟨h3, iff_of_false h4 fun hzero => by simp [hzero] at hmore⟩
  · rw [if_neg hmore]
    exact ⟨h1, iff_of_true h2 (BitVec.eq_of_toNat_eq (Nat.eq_zero_of_not_pos hmore))⟩

/-- The bits of a byte, at their place. -/
theorem add_shifted (h : diff.toNat * 2 ^ s < 2 ^ w) :
    BitVec.ofNat w (diff.toNat % 128) <<< s + (diff >>> 7) <<< (s + 7) = diff <<< s := by
  have hlow : diff.toNat % 128 * 2 ^ s ≤ diff.toNat * 2 ^ s := Nat.mul_le_mul_right _ (Nat.mod_le ..)
  have hhigh : diff.toNat / 128 * 2 ^ (s + 7) ≤ diff.toNat * 2 ^ s := by
    rw [pow_add, mul_comm (2 ^ s), ← mul_assoc]
    exact Nat.mul_le_mul_right _ (Nat.div_mul_le_self ..)
  have hmod : diff.toNat % 128 < 2 ^ w := (Nat.mod_le ..).trans_lt diff.isLt
  refine BitVec.eq_of_toNat_eq ?_
  rw [BitVec.toNat_add, BitVec.toNat_shiftLeft, BitVec.toNat_shiftLeft, BitVec.toNat_shiftLeft,
    BitVec.toNat_ofNat, toNat_shiftRight_seven, Nat.shiftLeft_eq, Nat.shiftLeft_eq, Nat.shiftLeft_eq,
    Nat.mod_eq_of_lt hmod, Nat.mod_eq_of_lt (hlow.trans_lt h), Nat.mod_eq_of_lt (hhigh.trans_lt h),
    Nat.mod_eq_of_lt h]
  have hsum : diff.toNat % 128 * 2 ^ s + diff.toNat / 128 * 2 ^ (s + 7) = diff.toNat * 2 ^ s := by
    rw [pow_add, mul_comm (2 ^ s) (2 ^ 7), ← mul_assoc, ← add_mul]
    congr 1
    omega
  rw [hsum, Nat.mod_eq_of_lt h]

/-- A difference is read back, from any place on, when its bits fit there. -/
theorem decodeLoop_encodeUnsigned (hw : w ≤ 64) {shiftAmount : UInt8} (hne : diff ≠ 0)
    (hfit : diff.toNat * 2 ^ shiftAmount.toNat < 2 ^ w) :
    decodeLoop value shiftAmount (encodeUnsigned diff ++ rest) =
      some (value + diff <<< shiftAmount.toNat, rest) := by
  induction hn : diff.toNat using Nat.strong_induction_on generalizing diff value shiftAmount with
  | h n ih =>
    obtain ⟨b, hcons, hlow, hflag⟩ := encodeUnsigned_cons hne
    have hpos : 0 < diff.toNat := Nat.pos_of_ne_zero fun hzero => hne (BitVec.eq_of_toNat_eq hzero)
    rw [hcons, List.cons_append, decodeLoop, hlow]
    by_cases hlast : diff >>> 7 = 0
    · have hsmall : diff.toNat % 128 = diff.toNat := by
        have hdiv : diff.toNat / 128 = 0 := by rw [← toNat_shiftRight_seven, hlast]; rfl
        omega
      rw [if_pos (hflag.mpr hlast), hlast, encodeUnsigned_zero, hsmall, BitVec.ofNat_toNat,
        BitVec.setWidth_eq]
      rfl
    · have hshift : (shiftAmount + 7).toNat = shiftAmount.toNat + 7 := by
        have hlt : shiftAmount.toNat < w := by
          by_contra hge
          have : 2 ^ w ≤ 2 ^ shiftAmount.toNat := Nat.pow_le_pow_right (by decide) (not_lt.mp hge)
          have := Nat.le_mul_of_pos_left (2 ^ shiftAmount.toNat) hpos
          omega
        rw [UInt8.toNat_add]
        exact Nat.mod_eq_of_lt (by show _ + 7 < 256; omega)
      have hfit' : (diff >>> 7).toNat * 2 ^ (shiftAmount + 7).toNat < 2 ^ w := by
        refine lt_of_le_of_lt ?_ hfit
        rw [hshift, toNat_shiftRight_seven, pow_add, mul_comm (2 ^ shiftAmount.toNat), ← mul_assoc]
        exact Nat.mul_le_mul_right _ (Nat.div_mul_le_self ..)
      rw [if_neg (mt hflag.mp hlast), ih (diff >>> 7).toNat ?_ hlast hfit' rfl, hshift, add_assoc,
        add_shifted hfit]
      rw [toNat_shiftRight_seven, ← hn]
      exact Nat.div_lt_self hpos (by decide)

theorem decodeUnsigned_encodeUnsigned (hw : w ≤ 64) (hne : diff ≠ 0) (rest : List UInt8) :
    decodeUnsigned (encodeUnsigned diff ++ rest) = some (diff, rest) := by
  have hfit : diff.toNat * 2 ^ (0 : UInt8).toNat < 2 ^ w := by simpa using diff.isLt
  rw [decodeUnsigned, decodeLoop_encodeUnsigned hw hne hfit]
  simp

/-! ## Blocks -/

/-- Whatever the encoder has written, no difference is read as zero. -/
theorem decodeUnsigned_encodeKeys (hw : w ≤ 64) {bytes : List UInt8}
    (h : decodeUnsigned (encodeKeys prevKey es) = some (diff, bytes)) : diff ≠ 0 := by
  induction es generalizing prevKey with
  | nil => cases h
  | cons e es ih =>
    rw [encodeKeys] at h
    by_cases heq : e.1 - prevKey = 0
    · rw [heq, encodeUnsigned_zero, List.nil_append] at h
      exact ih h
    · rw [decodeUnsigned_encodeUnsigned hw heq] at h
      obtain ⟨rfl, -⟩ := Prod.mk.inj (Option.some.inj h)
      exact heq

theorem decodeKeys_encodeKeys (hw : w ≤ 64) :
    decodeKeys prevKey (es.map Prod.snd) (encodeKeys prevKey es) = some es ↔
      (prevKey :: es.map Prod.fst).IsChain (· ≠ ·) := by
  induction es generalizing prevKey with
  | nil => simp [decodeKeys]
  | cons e es ih =>
    rw [List.map_cons, List.map_cons, List.isChain_cons_cons, decodeKeys, encodeKeys]
    by_cases heq : e.1 - prevKey = 0
    · have hkey : e.1 = prevKey := by simpa using BitVec.sub_eq_iff_eq_add.mp heq
      rw [heq, encodeUnsigned_zero, List.nil_append]
      refine iff_of_false (fun h => ?_) fun h => h.1 hkey.symm
      obtain ⟨⟨d, bytes⟩, hd, hrest⟩ := Option.bind_eq_some_iff.mp h
      obtain ⟨es', -, hcons⟩ := Option.map_eq_some_iff.mp hrest
      have hfirst : prevKey + d = e.1 := congrArg Prod.fst (List.cons.inj hcons).1
      rw [hkey] at hfirst hd
      refine decodeUnsigned_encodeKeys hw hd ?_
      simpa using hfirst
    · have hkey : prevKey ≠ e.1 := fun h => heq (by rw [h, BitVec.sub_self]; rfl)
      rw [decodeUnsigned_encodeUnsigned hw heq, Option.bind_some]
      have hadd : prevKey + (e.1 - prevKey) = e.1 := by
        rw [BitVec.add_comm, BitVec.sub_add_cancel]
      simp only [hadd]
      rw [and_iff_right hkey, ← ih]
      constructor
      · intro h
        obtain ⟨es', hes', hcons⟩ := Option.map_eq_some_iff.mp h
        rw [hes', (List.cons.inj hcons).2]
      · intro h
        rw [h]
        rfl

/-- A block is read back if and only if no two neighbouring keys are equal. -/
theorem diffDecode_diffEncode (hw : w ≤ 64) (hne : es ≠ []) :
    (diffEncode es).bind diffDecode = some es ↔ (es.map Prod.fst).IsChain (· ≠ ·) := by
  obtain ⟨e, es, rfl⟩ := List.exists_cons_of_ne_nil hne
  rw [List.map_cons, ← decodeKeys_encodeKeys hw]
  show (decodeKeys e.1 (es.map Prod.snd) (encodeKeys e.1 es)).map (e :: ·) = some (e :: es) ↔ _
  constructor
  · intro h
    obtain ⟨es', hes', hcons⟩ := Option.map_eq_some_iff.mp h
    rw [hes', (List.cons.inj hcons).2]
  · intro h
    rw [h]
    rfl

/-- The last two keys are equal. -/
theorem diffDecode_diffEncode_three :
    (diffEncode [((1 : BitVec 64), 10), (300, 20), (300, 30)]).bind diffDecode =
      some [((1 : BitVec 64), 10), (300, 20), (300, 30)] ↔
        ([(1 : BitVec 64), 300, 300]).IsChain (· ≠ ·) :=
  diffDecode_diffEncode (by decide) (List.cons_ne_nil _ _)

theorem keyBytesFrom_eq (keyBytes : ℕ) :
    keyBytesFrom prevKey keyBytes es = keyBytes + (encodeKeys prevKey es).length := by
  induction es generalizing prevKey keyBytes with
  | nil => rfl
  | cons e es ih =>
    rw [keyBytesFrom, encodeKeys, ih, List.length_append]
    omega

/-- `encoded_size` is the number of bytes that `encode` fills. -/
theorem encodedSize_eq (sizeofK sizeofV : ℕ) : encodedSize sizeofK sizeofV es =
    (diffEncode es).map fun block =>
      block.vals.length * sizeofV + sizeofK + block.keyBytes.length := by
  cases es with
  | nil => rfl
  | cons e es =>
    rw [encodedSize, keyBytesFrom_eq, encodeKeys, BitVec.sub_self]
    rw [show encodeUnsigned (0#w) = [] from encodeUnsigned_zero, List.nil_append]
    refine congrArg some ?_
    show _ = (e.2 :: es.map Prod.snd).length * sizeofV + sizeofK + (encodeKeys e.1 es).length
    rw [List.length_cons, List.length_map]
    omega

end Cpam

end Silva
