import Saturn.ByteArray.Delivers

/-!
# Variable-length integers

What the writers of variable-length integers emit is the groups of the number, zigzag coded where it
is signed, and the readers take the groups that they find. `readInt64` reads 32 bits.
-/

namespace Saturn

section Zigzag

variable {w : Nat}

theorem decodeZigzag_eq (hw : 0 < w) (u : BitVec w) :
    decodeZigzag u = if u.toNat % 2 = 0 then BitVec.ofNat w (u.toNat / 2)
      else ~~~ BitVec.ofNat w (u.toNat / 2) := by
  have hone : (1#w).toNat = 1 := by
    rw [BitVec.toNat_ofNat]
    exact Nat.mod_eq_of_lt (Nat.one_lt_two_pow (by omega))
  have hlow : u &&& 1#w = BitVec.ofNat w (u.toNat % 2) := by
    apply BitVec.eq_of_toNat_eq
    rw [BitVec.toNat_and, hone, Nat.and_one_is_mod, BitVec.toNat_ofNat]
    exact (Nat.mod_eq_of_lt (Nat.lt_of_le_of_lt (Nat.mod_le _ _) u.isLt)).symm
  have hhigh : u >>> 1 = BitVec.ofNat w (u.toNat / 2) := by
    apply BitVec.eq_of_toNat_eq
    rw [BitVec.toNat_ushiftRight, Nat.shiftRight_eq_div_pow, BitVec.toNat_ofNat]
    exact (Nat.mod_eq_of_lt (Nat.lt_of_le_of_lt (Nat.div_le_self _ _) u.isLt)).symm
  rw [decodeZigzag, hlow, hhigh]
  split
  · rename_i h
    rw [h]
    simp
  · rename_i h
    have h1 : u.toNat % 2 = 1 := by omega
    rw [h1, BitVec.neg_one_eq_allOnes, BitVec.xor_allOnes]

/-- A number and its sign lie in the upper bits and in the lowest one. -/
theorem encodeZigzag_toNat (hw : 1 < w) (v : BitVec w) :
    (encodeZigzag v).toNat = if v.msb then 2 * (2 ^ w - 1 - v.toNat) + 1 else 2 * v.toNat := by
  obtain ⟨k, rfl⟩ : ∃ k, w = k + 2 := ⟨w - 2, by omega⟩
  have hv := v.isLt
  have hpow : 2 ^ (k + 2) = 2 ^ k * 4 := Nat.pow_add ..
  have hpow' : 2 ^ (k + 2 - 1) = 2 ^ k * 2 := Nat.pow_succ ..
  have hpos : 0 < 2 ^ k := Nat.two_pow_pos k
  have hmsb := BitVec.msb_eq_decide v
  rw [encodeZigzag, BitVec.slt_zero_eq_msb, hmsb, hpow']
  have hone : (1#(k + 2)).toNat = 1 := by
    rw [BitVec.toNat_ofNat]
    exact Nat.mod_eq_of_lt (by omega)
  have htwo : (2#(k + 2)).toNat = 2 := by
    rw [BitVec.toNat_ofNat]
    exact Nat.mod_eq_of_lt (by omega)
  by_cases h : 2 ^ k * 2 ≤ v.toNat
  · rw [if_pos (by simpa using h), if_pos (by simpa using h)]
    have hneg : (-v).toNat = 2 ^ (k + 2) - v.toNat := by
      rw [BitVec.toNat_neg]
      exact Nat.mod_eq_of_lt (by omega)
    rw [BitVec.toNat_sub, BitVec.toNat_mul, hneg, hone, htwo]
    by_cases hmin : v.toNat = 2 ^ k * 2
    · -- the double of the least number wraps to 0, and 1 less to the greatest
      have hdouble : (2 ^ (k + 2) - v.toNat) * 2 = 2 ^ (k + 2) := by omega
      rw [hdouble, Nat.mod_self, Nat.mod_eq_of_lt (by omega)]
      omega
    · have hcarry : 2 ^ (k + 2) - 1 + (2 ^ (k + 2) - v.toNat) * 2 =
          2 ^ (k + 2) + (2 * (2 ^ (k + 2) - 1 - v.toNat) + 1) := by omega
      rw [Nat.mod_eq_of_lt (show (2 ^ (k + 2) - v.toNat) * 2 < 2 ^ (k + 2) by omega), hcarry,
        Nat.add_mod_left, Nat.mod_eq_of_lt (by omega)]
  · rw [if_neg (by simpa using h), if_neg (by simpa using h)]
    rw [BitVec.toNat_mul, htwo, Nat.mod_eq_of_lt (by omega), Nat.mul_comm]

theorem decodeZigzag_encodeZigzag (hw : 1 < w) (v : BitVec w) :
    decodeZigzag (encodeZigzag v) = v := by
  have hv := v.isLt
  rw [decodeZigzag_eq (by omega), encodeZigzag_toNat hw]
  cases v.msb with
  | false =>
      simp only [Bool.false_eq_true, if_false]
      rw [if_pos (by omega), Nat.mul_div_cancel_left _ (by decide), BitVec.ofNat_toNat,
        BitVec.setWidth_eq]
  | true =>
      simp only [if_true]
      rw [if_neg (by omega)]
      apply BitVec.eq_of_toNat_eq
      rw [BitVec.toNat_not, BitVec.toNat_ofNat, Nat.mod_eq_of_lt (by omega)]
      omega

/-- Signed numbers are coded by magnitude: `v` as `2 * v`, and a negative one as `-2 * v - 1`. -/
theorem encodeZigzag_toInt (hw : 1 < w) (v : BitVec w) :
    ((encodeZigzag v).toNat : Int) = if v.toInt < 0 then -2 * v.toInt - 1 else 2 * v.toInt := by
  have hv := v.isLt
  have hpos : 0 < 2 ^ w := Nat.two_pow_pos w
  have hmsb := BitVec.toInt_neg_iff (x := v)
  have hint := BitVec.toInt_eq_msb_cond v
  rw [encodeZigzag_toNat hw]
  cases hm : v.msb with
  | false =>
      rw [hm] at hint
      simp only [Bool.false_eq_true, if_false] at hint ⊢
      rw [if_neg (by omega)]
      omega
  | true =>
      rw [hm] at hint
      simp only [if_true] at hint ⊢
      rw [if_pos (by omega)]
      omega

theorem decodeZigzag_toInt (hw : 1 < w) (u : BitVec w) :
    (decodeZigzag u).toInt =
      if u.toNat % 2 = 0 then (u.toNat / 2 : Int) else -(u.toNat / 2 : Int) - 1 := by
  have hu := u.isLt
  obtain ⟨k, rfl⟩ : ∃ k, w = k + 1 := ⟨w - 1, by omega⟩
  have hpow : 2 ^ (k + 1) = 2 ^ k * 2 := Nat.pow_succ ..
  rw [decodeZigzag_eq (by omega)]
  split
  · rw [BitVec.toInt_eq_toNat_cond, BitVec.toNat_ofNat, Nat.mod_eq_of_lt (by omega),
      if_pos (by omega)]
    rfl
  · rw [BitVec.toInt_eq_toNat_cond, BitVec.toNat_not, BitVec.toNat_ofNat,
      Nat.mod_eq_of_lt (by omega), if_neg (by omega)]
    omega

end Zigzag

/-- The byte that the loop stores for the seven lowest bits, with the top bit set. -/
theorem group_byte {w : Nat} (hw : 8 ≤ w) (v : BitVec w) :
    UInt8.ofBitVec ((v &&& 0x7f#w ||| 0x80#w).setWidth 8) = UInt8.ofNat (v.toNat % 128 + 128) := by
  have hpow : 2 ^ 8 ≤ 2 ^ w := Nat.pow_le_pow_right (by decide) hw
  have hlow : (0x7f#w).toNat = 2 ^ 7 - 1 := by
    rw [BitVec.toNat_ofNat]
    exact Nat.mod_eq_of_lt (by omega)
  have htop : (0x80#w).toNat = 2 ^ 7 * 1 := by
    rw [BitVec.toNat_ofNat]
    exact Nat.mod_eq_of_lt (by omega)
  apply UInt8.toNat_inj.mp
  rw [UInt8.toNat_ofBitVec, BitVec.toNat_setWidth, BitVec.toNat_or, BitVec.toNat_and, hlow, htop,
    Nat.and_two_pow_sub_one_eq_mod, Nat.or_comm,
    ← Nat.two_pow_add_eq_or_of_lt (Nat.mod_lt _ (by decide)), ofNat_toNat_of_lt (by omega)]
  omega

theorem low_byte {w : Nat} (v : BitVec w) (h : v.toNat < 256) :
    UInt8.ofBitVec (v.setWidth 8) = UInt8.ofNat v.toNat := by
  apply UInt8.toNat_inj.mp
  rw [UInt8.toNat_ofBitVec, BitVec.toNat_setWidth, ofNat_toNat_of_lt h]
  omega

/-- With room for them, the loop stores the groups of the value. -/
theorem varintLoop_eq {w : Nat} (hw : 8 ≤ w) : ∀ (room : Nat) (v : BitVec w),
    (toGroups v.toNat).length ≤ room → varintLoop room v = .ok (toGroups v.toNat) := by
  intro room
  induction room with
  | zero =>
      intro v h
      have hpos := toGroups_length_pos v.toNat
      omega
  | succ room ih =>
      intro v h
      have hpow : 2 ^ 8 ≤ 2 ^ w := Nat.pow_le_pow_right (by decide) hw
      have htop : (0x80#w).toNat = 128 := by
        rw [BitVec.toNat_ofNat]
        exact Nat.mod_eq_of_lt (by omega)
      rw [varintLoop]
      by_cases hv : v.toNat < 128
      · rw [if_neg (by rw [BitVec.le_def, htop]; omega), toGroups_of_lt hv, low_byte v (by omega)]
        rfl
      · have hshift : (v >>> 7).toNat = v.toNat / 128 := by
          rw [BitVec.toNat_ushiftRight, Nat.shiftRight_eq_div_pow]
        rw [toGroups_of_le (by omega), List.length_cons] at h
        rw [if_pos (by rw [BitVec.le_def, htop]; omega), toGroups_of_le (by omega), group_byte hw,
          ih (v >>> 7) (by rw [hshift]; omega), hshift]
        rfl

/-- `tmp` has room for the groups of any value. -/
theorem varintLoop_total {w : Nat} (room : Nat) (hw : 8 ≤ w) (hroom : w ≤ 7 * (room + 1)) (v : BitVec w) :
    varintLoop (room + 1) v = .ok (toGroups v.toNat) ∧ (toGroups v.toNat).length ≤ room + 1 := by
  have hlen : (toGroups v.toNat).length ≤ room + 1 := by
    rw [toGroups_length_le_iff]
    calc v.toNat < 2 ^ w := v.isLt
      _ ≤ 2 ^ (7 * (room + 1)) := Nat.pow_le_pow_right (by decide) hroom
      _ = 128 ^ (room + 1) := Nat.pow_mul 2 7 (room + 1)
  exact ⟨varintLoop_eq hw _ v hlen, hlen⟩

/-- A value of one of the types that are written with variable length. -/
inductive VarInt where
  | int32 (v : Int32)
  | uint32 (v : UInt32)
  | int64 (v : Int64)
  | uint64 (v : UInt64)
  deriving DecidableEq

namespace VarInt

/-- The most bytes a value of the type may take. -/
def limit : VarInt → Nat
  | .int32 _ | .uint32 _ => 5
  | .int64 _ | .uint64 _ => 10

section Members

variable {σ : Type} (r : Raw σ)

/-- The member that writes it. -/
def write : VarInt → EStateM Failure σ Unit
  | .int32 v => r.writeInt32 v
  | .uint32 v => r.writeUint32 v
  | .int64 v => r.writeInt64 v
  | .uint64 v => r.writeUint64 v

/-- The reader of the type of the value. -/
def read : VarInt → EStateM Failure σ VarInt
  | .int32 _ => do pure (.int32 (← r.readInt32))
  | .uint32 _ => do pure (.uint32 (← r.readUint32))
  | .int64 _ => do pure (.int64 (← r.readInt64))
  | .uint64 _ => do pure (.uint64 (← r.readUint64))

end Members

/-- The writer emits few enough bytes, and the reader takes them, and no other, and returns the
value. -/
def RoundTrips (v : VarInt) (rest : List UInt8) : Prop :=
  ∃ bytes : List UInt8, bytes.length ≤ v.limit ∧
    (∀ s : ByteStream, v.write ByteStream.raw s = .ok () { s with written := s.written ++ bytes }) ∧
    ∀ s : ByteStream, s.unread = bytes ++ rest →
      v.read ByteStream.raw s = .ok v { s with unread := rest }

/-- An `int64_t` lies in the range of `int32_t`. -/
def FitsReader : VarInt → Prop
  | .int64 v => -2 ^ 31 ≤ v.toInt ∧ v.toInt < 2 ^ 31
  | _ => True

/-- The number that the groups spell. -/
def code : VarInt → Nat
  | .int32 v => (encodeZigzag32 v).toNat
  | .uint32 v => v.toNat
  | .int64 v => (encodeZigzag64 v).toNat
  | .uint64 v => v.toNat

theorem writeVarint_stream {w room : Nat} (hw : 8 ≤ w) (hroom : w ≤ 7 * (room + 1)) (v : BitVec w)
    (s : ByteStream) : ByteStream.raw.writeVarint (room + 1) v s =
      .ok () { s with written := s.written ++ toGroups v.toNat } := by
  rw [Raw.writeVarint, (varintLoop_total room hw hroom v).1]
  rfl

/-- Every writer emits the groups of the code, within the limit of the type. -/
theorem write_stream (v : VarInt) : (toGroups v.code).length ≤ v.limit ∧ ∀ s : ByteStream,
    v.write ByteStream.raw s = .ok () { s with written := s.written ++ toGroups v.code } := by
  cases v with
  | int32 v =>
      exact ⟨(varintLoop_total 4 (by decide) (by decide) (encodeZigzag32 v).toBitVec).2,
        writeVarint_stream (by decide) (by decide) _⟩
  | uint32 v =>
      exact ⟨(varintLoop_total 4 (by decide) (by decide) v.toBitVec).2,
        writeVarint_stream (by decide) (by decide) _⟩
  | int64 v =>
      exact ⟨(varintLoop_total 9 (by decide) (by decide) (encodeZigzag64 v).toBitVec).2,
        writeVarint_stream (by decide) (by decide) _⟩
  | uint64 v =>
      exact ⟨(varintLoop_total 9 (by decide) (by decide) v.toBitVec).2,
        writeVarint_stream (by decide) (by decide) _⟩

/-- The readers of the byte stream take the groups of a number that is short enough for them. -/
theorem readVarint_stream (w : Nat) {n : Nat} (hn : (toGroups n).length ≤ (w + 6) / 7)
    {rest : List UInt8} {s : ByteStream} (hs : s.unread = toGroups n ++ rest) :
    ByteStream.raw.readVarint w s = .ok (BitVec.ofNat w n) { s with unread := rest } := by
  obtain ⟨t, hread, rfl, -⟩ := (ByteStream.raw_delivers s).readVarint_ok w (u := s.unread) rfl
    (by rw [hs]; exact ofGroups_toGroups n _ rest hn)
  exact hread

theorem readUint32_stream {n : Nat} (hn : n < 2 ^ 32) {rest : List UInt8} {s : ByteStream}
    (hs : s.unread = toGroups n ++ rest) :
    ByteStream.raw.readUint32 s = .ok (UInt32.ofNat n) { s with unread := rest } := by
  have hlen : (toGroups n).length ≤ 4 + 1 := by
    rw [toGroups_length_le_iff]
    omega
  rw [Raw.readUint32, bind_of_ok (readVarint_stream 32 hlen hs)]
  rfl

theorem readUint64_stream {n : Nat} (hn : n < 2 ^ 64) {rest : List UInt8} {s : ByteStream}
    (hs : s.unread = toGroups n ++ rest) :
    ByteStream.raw.readUint64 s = .ok (UInt64.ofNat n) { s with unread := rest } := by
  have hlen : (toGroups n).length ≤ 9 + 1 := by
    rw [toGroups_length_le_iff]
    omega
  rw [Raw.readUint64, bind_of_ok (readVarint_stream 64 hlen hs)]
  rfl

/-- `readInt64` returns numbers of 32 bits only. -/
theorem readInt64_range {s t : ByteStream} {v : Int64} (h : ByteStream.raw.readInt64 s = .ok v t) :
    -2 ^ 31 ≤ v.toInt ∧ v.toInt < 2 ^ 31 := by
  rw [Raw.readInt64] at h
  cases hread : ByteStream.raw.readUint32 s with
  | error e t' =>
      rw [bind_of_error hread] at h
      cases h
  | ok x t' =>
      rw [bind_of_ok hread] at h
      cases h
      have hx := x.toNat_lt
      have hwide : x.toUInt64.toBitVec.toNat = x.toNat := UInt32.toNat_toUInt64 x
      have hint : (decodeZigzag64 x.toUInt64).toInt = (decodeZigzag x.toUInt64.toBitVec).toInt := rfl
      rw [hint, decodeZigzag_toInt (by decide), hwide]
      split <;> omega

/-- Variable-length integers come back exactly when they are not written with 64 bits and read with
32. -/
theorem roundTrips_iff (v : VarInt) (rest : List UInt8) : v.RoundTrips rest ↔ v.FitsReader := by
  obtain ⟨hlen, hwrite⟩ := v.write_stream
  constructor
  · rintro ⟨bytes, -, -, hread⟩
    cases v with
    | int64 v =>
        have hback := hread ⟨[], bytes ++ rest, .big⟩ rfl
        rw [read] at hback
        cases hv : ByteStream.raw.readInt64 ⟨[], bytes ++ rest, .big⟩ with
        | error e t =>
            rw [bind_of_error hv] at hback
            cases hback
        | ok v' t =>
            rw [bind_of_ok hv] at hback
            cases hback
            exact readInt64_range hv
    | int32 v => trivial
    | uint32 v => trivial
    | uint64 v => trivial
  · intro hfits
    refine ⟨toGroups v.code, hlen, hwrite, fun s hs => ?_⟩
    cases v with
    | uint32 v =>
        rw [read, bind_of_ok (readUint32_stream v.toNat_lt hs)]
        rw [UInt32.ofNat_toNat]
        rfl
    | uint64 v =>
        rw [read, bind_of_ok (readUint64_stream v.toNat_lt hs)]
        rw [UInt64.ofNat_toNat]
        rfl
    | int32 v =>
        have hback : decodeZigzag32 (UInt32.ofNat (encodeZigzag32 v).toNat) = v := by
          rw [UInt32.ofNat_toNat, decodeZigzag32, encodeZigzag32,
            decodeZigzag_encodeZigzag (by decide)]
          rfl
        have hread : ByteStream.raw.readInt32 s = .ok v { s with unread := rest } := by
          rw [Raw.readInt32, bind_of_ok (readUint32_stream (encodeZigzag32 v).toNat_lt hs), hback]
          rfl
        rw [read, bind_of_ok hread]
        rfl
    | int64 v =>
        have hsmall : (encodeZigzag64 v).toNat < 2 ^ 32 := by
          obtain ⟨hlow, hhigh⟩ := hfits
          have hcode := encodeZigzag_toInt (by decide) v.toBitVec
          have hnat : (encodeZigzag64 v).toNat = (encodeZigzag v.toBitVec).toNat := rfl
          have hint : v.toBitVec.toInt = v.toInt := rfl
          rw [hint] at hcode
          split at hcode <;> omega
        have hwide : (UInt32.ofNat (encodeZigzag64 v).toNat).toUInt64 = encodeZigzag64 v := by
          apply UInt64.toNat_inj.mp
          rw [UInt32.toNat_toUInt64, UInt32.toNat_ofNat']
          exact Nat.mod_eq_of_lt hsmall
        have hback : decodeZigzag64 (encodeZigzag64 v) = v := by
          rw [decodeZigzag64, encodeZigzag64, decodeZigzag_encodeZigzag (by decide)]
          rfl
        have hread : ByteStream.raw.readInt64 s = .ok v { s with unread := rest } := by
          rw [Raw.readInt64, bind_of_ok (readUint32_stream hsmall hs), hwide, hback]
          rfl
        rw [read, bind_of_ok hread]
        rfl

/-- 2 ^ 31 takes five bytes, and comes back as 0. -/
theorem int64_not_roundTrips : ¬ (VarInt.int64 2147483648).RoundTrips [] := by
  rintro ⟨bytes, -, hwrite, hread⟩
  have hbytes : bytes = [128, 128, 128, 128, 16] := by
    have hemitted := hwrite ⟨[], [], .big⟩
    have hgroups : VarInt.write ByteStream.raw (.int64 2147483648) ⟨[], [], .big⟩ =
      .ok () ⟨[128, 128, 128, 128, 16], [], .big⟩ := by rfl
    rw [hgroups] at hemitted
    injection hemitted with _ hstream
    exact (congrArg ByteStream.written hstream).symm
  subst hbytes
  have hback := hread ⟨[], [128, 128, 128, 128, 16], .big⟩ rfl
  have hzero : VarInt.read ByteStream.raw (.int64 2147483648) ⟨[], [128, 128, 128, 128, 16], .big⟩ =
    .ok (.int64 0) ⟨[], [], .big⟩ := by rfl
  rw [hzero] at hback
  injection hback with hvalue
  exact absurd hvalue (by decide)

end VarInt

end Saturn
