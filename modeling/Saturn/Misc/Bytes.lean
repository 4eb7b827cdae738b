import Mathlib.Algebra.Group.Int.Defs
import Mathlib.Algebra.Group.Nat.Defs
import Mathlib.Data.List.Basic

/-!
# Numbers as bytes

The bytes of a number from the lowest on, and the number that bytes spell. A machine integer of `w`
bits is stored in memory as `w / 8` bytes; on a little-endian machine the lowest comes first.
-/

namespace Saturn

/-- The `k` lowest bytes of `n`, the lowest first. -/
def leBytes : Nat → Nat → List UInt8
  | 0, _ => []
  | k + 1, n => UInt8.ofNat n :: leBytes k (n / 256)

/-- The number that the bytes spell, the lowest first. -/
def ofLeBytes : List UInt8 → Nat
  | [] => 0
  | b :: bs => b.toNat + 256 * ofLeBytes bs

@[simp] theorem leBytes_length (k n : Nat) : (leBytes k n).length = k := by
  induction k generalizing n with
  | zero => rfl
  | succ k ih => rw [leBytes, List.length_cons, ih]

theorem ofLeBytes_lt (bs : List UInt8) : ofLeBytes bs < 256 ^ bs.length := by
  induction bs with
  | nil => exact Nat.one_pos
  | cons b bs ih =>
      have hb := b.toNat_lt
      rw [ofLeBytes, List.length_cons, Nat.pow_succ]
      omega

theorem ofLeBytes_leBytes (k n : Nat) : ofLeBytes (leBytes k n) = n % 256 ^ k := by
  induction k generalizing n with
  | zero => rw [leBytes, ofLeBytes, Nat.pow_zero, Nat.mod_one]
  | succ k ih =>
      have hpow : 256 ^ (k + 1) = 256 * 256 ^ k := by rw [Nat.pow_succ, Nat.mul_comm]
      have hlow : (UInt8.ofNat n).toNat = n % 256 := UInt8.toNat_ofNat'
      rw [leBytes, ofLeBytes, ih, hlow, hpow, Nat.mod_mul]

theorem leBytes_ofLeBytes (bs : List UInt8) : leBytes bs.length (ofLeBytes bs) = bs := by
  induction bs with
  | nil => rfl
  | cons b bs ih =>
      have hb := b.toNat_lt
      have hlow : UInt8.ofNat (b.toNat + 256 * ofLeBytes bs) = b := by
        apply UInt8.toNat_inj.mp
        rw [UInt8.toNat_ofNat']
        omega
      have hhigh : (b.toNat + 256 * ofLeBytes bs) / 256 = ofLeBytes bs := by omega
      rw [ofLeBytes, List.length_cons, leBytes, hlow, hhigh, ih]

theorem leBytes_mod (k n : Nat) : leBytes k (n % 256 ^ k) = leBytes k n := by
  have h := leBytes_ofLeBytes (leBytes k n)
  rwa [leBytes_length, ofLeBytes_leBytes] at h

section Scalars

variable {w : Nat}

/-- How a machine integer lies in the memory of a little-endian machine. -/
def storeLe (v : BitVec w) : List UInt8 := leBytes (w / 8) v.toNat

/-- The number that the bytes say, the lowest first. -/
def loadLe (w : Nat) (bs : List UInt8) : BitVec w := BitVec.ofNat w (ofLeBytes bs)

/-- The integer with the order of its bytes reversed. -/
def bswap (v : BitVec w) : BitVec w := loadLe w (storeLe v).reverse

@[simp] theorem storeLe_length (v : BitVec w) : (storeLe v).length = w / 8 := leBytes_length _ _

theorem two_pow_eq (hw : 8 ∣ w) : 2 ^ w = 256 ^ (w / 8) := by
  obtain ⟨k, rfl⟩ := hw
  rw [Nat.mul_div_cancel_left _ (by decide), Nat.pow_mul]

theorem loadLe_storeLe (hw : 8 ∣ w) (v : BitVec w) : loadLe w (storeLe v) = v := by
  apply BitVec.eq_of_toNat_eq
  rw [loadLe, storeLe, ofLeBytes_leBytes, BitVec.toNat_ofNat, ← two_pow_eq hw, Nat.mod_mod,
    Nat.mod_eq_of_lt v.isLt]

theorem loadLe_toNat (hw : 8 ∣ w) {bs : List UInt8} (hbs : bs.length = w / 8) :
    (loadLe w bs).toNat = ofLeBytes bs := by
  have hlt := ofLeBytes_lt bs
  rw [hbs, ← two_pow_eq hw] at hlt
  rw [loadLe, BitVec.toNat_ofNat, Nat.mod_eq_of_lt hlt]

theorem storeLe_loadLe (hw : 8 ∣ w) {bs : List UInt8} (hbs : bs.length = w / 8) :
    storeLe (loadLe w bs) = bs := by
  rw [storeLe, loadLe_toNat hw hbs, ← hbs, leBytes_ofLeBytes]

theorem storeLe_bswap (hw : 8 ∣ w) (v : BitVec w) : storeLe (bswap v) = (storeLe v).reverse :=
  storeLe_loadLe hw (by rw [List.length_reverse, storeLe_length])

theorem bswap_bswap (hw : 8 ∣ w) (v : BitVec w) : bswap (bswap v) = v := by
  rw [bswap, storeLe_bswap hw, List.reverse_reverse, loadLe_storeLe hw]

theorem bswap_loadLe (hw : 8 ∣ w) {bs : List UInt8} (hbs : bs.length = w / 8) :
    bswap (loadLe w bs) = loadLe w bs.reverse := by
  rw [bswap, storeLe_loadLe hw hbs]

end Scalars

end Saturn
