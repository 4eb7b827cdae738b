import Saturn.Misc.Bytes

/-!
# Bits of bytes and prefix masks

Which bit of a number is in which of its bytes, what that says of the number with its bytes reversed,
and the masks that have only their leading bits set.
-/

namespace Saturn

section Bits

theorem testBit_ofLeBytes (bs : List UInt8) (i : Nat) :
    (ofLeBytes bs).testBit i = (bs.getD (i / 8) 0).toNat.testBit (i % 8) := by
  induction bs generalizing i with
  | nil => simp [ofLeBytes]
  | cons b bs ih =>
      have hsum : b.toNat + 256 * ofLeBytes bs = 2 ^ 8 * ofLeBytes bs + b.toNat := by omega
      rw [ofLeBytes, hsum, Nat.testBit_two_pow_mul_add _ b.toNat_lt]
      split
      · rename_i hlt
        rw [Nat.div_eq_of_lt hlt, Nat.mod_eq_of_lt hlt, List.getD_cons_zero]
      · rename_i hge
        rw [ih, show i / 8 = (i - 8) / 8 + 1 by omega, List.getD_cons_succ,
          show (i - 8) % 8 = i % 8 by omega]

theorem testBit_leBytes {k n j : Nat} (hj : j < k) {i : Nat} (hi : i < 8) :
    ((leBytes k n).getD j 0).toNat.testBit i = n.testBit (8 * j + i) := by
  have hbit := testBit_ofLeBytes (leBytes k n) (8 * j + i)
  rw [ofLeBytes_leBytes, show (256 : Nat) = 2 ^ 8 from rfl, ← Nat.pow_mul, Nat.testBit_mod_two_pow,
    decide_eq_true (show 8 * j + i < 8 * k by omega), Bool.true_and,
    show (8 * j + i) / 8 = j by omega, show (8 * j + i) % 8 = i by omega] at hbit
  exact hbit.symm

variable {w : Nat}

theorem getLsbD_loadLe {bs : List UInt8} {i : Nat} (hi : i < w) :
    (loadLe w bs).getLsbD i = (bs.getD (i / 8) 0).toNat.testBit (i % 8) := by
  rw [loadLe, BitVec.getLsbD_ofNat, decide_eq_true hi, Bool.true_and, testBit_ofLeBytes]

/-- The bits of a byte stay together, the bytes change places. -/
theorem getLsbD_bswap (hw : 8 ∣ w) (v : BitVec w) {i : Nat} (hi : i < w) :
    (bswap v).getLsbD i = v.getLsbD (8 * (w / 8 - 1 - i / 8) + i % 8) := by
  obtain ⟨k, rfl⟩ := hw
  have hk : 8 * k / 8 = k := Nat.mul_div_cancel_left k (by decide)
  have hj : i / 8 < (storeLe v).length := by
    rw [storeLe_length]
    omega
  rw [bswap, getLsbD_loadLe hi, List.getD_eq_getElem?_getD, List.getElem?_reverse hj,
    ← List.getD_eq_getElem?_getD, storeLe_length, storeLe, hk,
    testBit_leBytes (by omega) (by omega), BitVec.testBit_toNat]

theorem bswap_index_lt (hw : 8 ∣ w) {i : Nat} (hi : i < w) : 8 * (w / 8 - 1 - i / 8) + i % 8 < w := by
  obtain ⟨k, rfl⟩ := hw
  omega

theorem bswap_and (hw : 8 ∣ w) (u v : BitVec w) : bswap (u &&& v) = bswap u &&& bswap v := by
  refine BitVec.eq_of_getLsbD_eq fun i hi => ?_
  simp only [BitVec.getLsbD_and, getLsbD_bswap hw _ hi]

theorem bswap_or (hw : 8 ∣ w) (u v : BitVec w) : bswap (u ||| v) = bswap u ||| bswap v := by
  refine BitVec.eq_of_getLsbD_eq fun i hi => ?_
  simp only [BitVec.getLsbD_or, getLsbD_bswap hw _ hi]

theorem bswap_not (hw : 8 ∣ w) (v : BitVec w) : bswap (~~~v) = ~~~bswap v := by
  refine BitVec.eq_of_getLsbD_eq fun i hi => ?_
  simp only [BitVec.getLsbD_not, getLsbD_bswap hw _ hi, hi, bswap_index_lt hw hi]

end Bits

/-- The number of `w` bits with the `p` leading ones set, all of them if `w ≤ p`. -/
def prefixMask (w p : Nat) : BitVec w := BitVec.allOnes w <<< (w - p)

section Masks

variable {w p : Nat}

theorem getLsbD_prefixMask {i : Nat} (hi : i < w) :
    (prefixMask w p).getLsbD i = decide (w - p ≤ i) := by
  rw [prefixMask, BitVec.getLsbD_shiftLeft, BitVec.getLsbD_allOnes]
  simp only [hi, decide_true, Bool.true_and, decide_eq_true (show i - (w - p) < w by omega),
    Bool.and_true]
  simp only [← decide_not, Nat.not_lt]

/-- The bits behind the leading ones, as a number. -/
theorem not_prefixMask (w p : Nat) : ~~~prefixMask w p = BitVec.ofNat w (2 ^ (w - p) - 1) := by
  refine BitVec.eq_of_getLsbD_eq fun i hi => ?_
  rw [BitVec.getLsbD_not, getLsbD_prefixMask hi, BitVec.getLsbD_ofNat, Nat.testBit_two_pow_sub_one]
  simp only [← decide_not, Nat.not_le]

/-- Only zero has the same bits on both sides of a mask. -/
theorem and_eq_and_not_iff (x m : BitVec w) : x &&& ~~~m = x &&& m ↔ x = 0 := by
  refine ⟨fun h => ?_, fun h => by simp [h]⟩
  refine BitVec.eq_of_getLsbD_eq fun i hi => ?_
  have hbit := congrArg (fun y => y.getLsbD i) h
  simp only [BitVec.getLsbD_and, BitVec.getLsbD_not, hi, decide_true, Bool.true_and] at hbit
  cases hx : x.getLsbD i <;> cases hm : m.getLsbD i <;> simp_all

end Masks

end Saturn
