import Saturn.ByteArray.Varint

/-!
# Zigzag coding in signed arithmetic

The encoders negate and double in the signed type before they convert. Where the exact result is
beyond that type the code has no meaning; elsewhere the code of a number is that of
`encodeZigzag`, which wraps around.
-/

namespace Saturn

namespace Zigzag

variable {w : Nat}

/-- What a signed operation with the exact result `x` gives. -/
def signed (w : Nat) (x : Int) : Option (BitVec w) :=
  if -2 ^ (w - 1) ≤ x ∧ x < 2 ^ (w - 1) then some (BitVec.ofInt w x) else none

/-- `EncodeZigzag32` and `EncodeZigzag64`. The negation and the doubling of `v` are signed. -/
def encode (v : BitVec w) : Option (BitVec w) :=
  if v.slt 0#w then (signed w (-v.toInt)).map fun n => n * 2#w - 1#w else signed w (v.toInt * 2)

/-- The coding of a signed number: no operation overflows, numbers from 0 on are doubled, the others
fill the gaps, and the decoder undoes it. -/
def Codes (v : BitVec w) : Prop :=
  ∃ u, encode v = some u ∧ (u.toNat : Int) = (if v.toInt < 0 then -2 * v.toInt - 1 else 2 * v.toInt) ∧
    decodeZigzag u = v

/-- The decoding of a code: the encoder is defined on the number and gives the code back. -/
def Decodes (u : BitVec w) : Prop := encode (decodeZigzag u) = some u

theorem signed_neg {v : BitVec w} (h : -2 ^ (w - 1) ≤ -v.toInt ∧ -v.toInt < 2 ^ (w - 1)) :
    signed w (-v.toInt) = some (-v) := by
  rw [signed, if_pos h, BitVec.ofInt_neg, BitVec.ofInt_toInt]

theorem signed_double {v : BitVec w} (h : -2 ^ (w - 1) ≤ v.toInt * 2 ∧ v.toInt * 2 < 2 ^ (w - 1)) :
    signed w (v.toInt * 2) = some (v * 2#w) := by
  rw [signed, if_pos h, BitVec.ofInt_mul, BitVec.ofInt_toInt]
  rfl

/-- Where no signed operation overflows. -/
def Fits (v : BitVec w) : Prop := -2 ^ (w - 1) < v.toInt ∧ 2 * v.toInt < 2 ^ (w - 1)

theorem encode_of_fits {v : BitVec w} (h : Fits v) : encode v = some (encodeZigzag v) := by
  obtain ⟨hlow, hhigh⟩ := h
  have hpos : (0 : Int) < 2 ^ (w - 1) := Int.pow_pos (by decide)
  have hslt : v.slt 0#w = decide (v.toInt < 0) := by
    rw [BitVec.slt_eq_decide, BitVec.toInt_zero]
  rw [encode, encodeZigzag, hslt]
  by_cases hneg : v.toInt < 0
  · rw [if_pos (decide_eq_true hneg), if_pos (decide_eq_true hneg),
      signed_neg ⟨by omega, by omega⟩]
    rfl
  · rw [if_neg (by simpa using hneg), if_neg (by simpa using hneg),
      signed_double ⟨by omega, by omega⟩]

theorem fits_of_encode {v u : BitVec w} (h : encode v = some u) : Fits v := by
  have hpos : (0 : Int) < 2 ^ (w - 1) := Int.pow_pos (by decide)
  have hslt : v.slt 0#w = decide (v.toInt < 0) := by
    rw [BitVec.slt_eq_decide, BitVec.toInt_zero]
  rw [encode, hslt] at h
  by_cases hneg : v.toInt < 0
  · rw [if_pos (decide_eq_true hneg)] at h
    obtain ⟨n, hn, -⟩ := Option.map_eq_some_iff.mp h
    rw [signed, Option.ite_none_right_eq_some] at hn
    exact ⟨by omega, by omega⟩
  · rw [if_neg (by simpa using hneg), signed, Option.ite_none_right_eq_some] at h
    exact ⟨by omega, by omega⟩

theorem codes_iff_fits (hw : 1 < w) (v : BitVec w) : Codes v ↔ Fits v := by
  constructor
  · rintro ⟨u, hu, -⟩
    exact fits_of_encode hu
  · intro h
    exact ⟨encodeZigzag v, encode_of_fits h, encodeZigzag_toInt hw v, decodeZigzag_encodeZigzag hw v⟩

/-- As wrap-around arithmetic, the coding is onto. -/
theorem encodeZigzag_decodeZigzag (hw : 1 < w) (u : BitVec w) : encodeZigzag (decodeZigzag u) = u := by
  have hcode := encodeZigzag_toInt hw (decodeZigzag u)
  rw [decodeZigzag_toInt hw] at hcode
  apply BitVec.eq_of_toNat_eq
  by_cases heven : u.toNat % 2 = 0
  · rw [if_pos heven, if_neg (by omega)] at hcode
    omega
  · rw [if_neg heven, if_pos (by omega)] at hcode
    omega

/-- The codes of the numbers that the encoder is defined on. -/
def CodeFits (u : BitVec w) : Prop :=
  u.toNat ≠ 2 ^ w - 1 ∧ (u.toNat % 2 = 0 → u.toNat < 2 ^ (w - 1))

theorem fits_decodeZigzag (hw : 1 < w) (u : BitVec w) : Fits (decodeZigzag u) ↔ CodeFits u := by
  have hu := u.isLt
  obtain ⟨k, rfl⟩ : ∃ k, w = k + 2 := ⟨w - 2, by omega⟩
  have hpow : 2 ^ (k + 2) = 2 ^ (k + 1) * 2 := Nat.pow_succ ..
  have hhalf : 2 ^ (k + 1) = 2 ^ k * 2 := Nat.pow_succ ..
  have hexp : k + 2 - 1 = k + 1 := rfl
  have hcast : (2 : Int) ^ (k + 2 - 1) = ((2 ^ (k + 1) : Nat) : Int) := by simp
  rw [Fits, CodeFits, decodeZigzag_toInt hw, hcast, hexp]
  by_cases heven : u.toNat % 2 = 0
  · rw [if_pos heven]
    omega
  · rw [if_neg heven]
    omega

theorem decodes_iff_codeFits (hw : 1 < w) (u : BitVec w) : Decodes u ↔ CodeFits u := by
  rw [← fits_decodeZigzag hw]
  constructor
  · intro h
    exact fits_of_encode h
  · intro h
    rw [Decodes, encode_of_fits h, encodeZigzag_decodeZigzag hw]

/-- The coding is undone in both directions for the numbers from `-2 ^ (w - 1) + 1` to
`2 ^ (w - 2) - 1` and for no others: the rest overflow the signed type. -/
theorem zigzag_iff (v : Int32) (u : UInt32) (v' : Int64) (u' : UInt64) :
    (Codes v.toBitVec ↔ -2 ^ 31 < v.toInt ∧ v.toInt < 2 ^ 30) ∧
    (Decodes u.toBitVec ↔ u.toNat ≠ 2 ^ 32 - 1 ∧ (u.toNat % 2 = 0 → u.toNat < 2 ^ 31)) ∧
    (Codes v'.toBitVec ↔ -2 ^ 63 < v'.toInt ∧ v'.toInt < 2 ^ 62) ∧
    (Decodes u'.toBitVec ↔ u'.toNat ≠ 2 ^ 64 - 1 ∧ (u'.toNat % 2 = 0 → u'.toNat < 2 ^ 63)) := by
  have hv : v.toBitVec.toInt = v.toInt := rfl
  have hv' : v'.toBitVec.toInt = v'.toInt := rfl
  refine ⟨?_, decodes_iff_codeFits (by decide) _, ?_, decodes_iff_codeFits (by decide) _⟩
  · rw [codes_iff_fits (by decide), Fits, hv]
    omega
  · rw [codes_iff_fits (by decide), Fits, hv']
    omega

/-- The least number is negated beyond its type, and a quarter of the range doubled beyond it. -/
theorem extremes_not_coded :
    ¬ Codes (-2147483648 : Int32).toBitVec ∧ ¬ Codes (1073741824 : Int32).toBitVec ∧
    ¬ Codes (-9223372036854775808 : Int64).toBitVec ∧
    ¬ Codes (4611686018427387904 : Int64).toBitVec := by
  refine ⟨?_, ?_, ?_, ?_⟩ <;> rintro ⟨u, hu, -⟩ <;> have hfits := fits_of_encode hu <;>
    unfold Fits at hfits <;> revert hfits <;> decide

end Zigzag

end Saturn
