import Saturn.Address.Defs
import Saturn.Misc.PrefixMask

/-!
# Subnets of IPv4 addresses

`broadcastAddress`, `networdAddress` and `subnetMask` of `IPv4Address`, and for which addresses and
lengths they give what they are for.
-/

namespace Saturn

section CreateMask

variable {w : Nat} {bits : UInt32}

/-- Where the shift stays within an `int`, `CreateMask` gives the bits behind the leading ones. -/
theorem createMask_eq (hle : bits.toNat ≤ w) (hcount : w - bits.toNat ≤ 30) :
    createMask w bits = .ok (~~~prefixMask w bits.toNat) := by
  have hmod : (w + 2 ^ 64 - bits.toNat) % 2 ^ 64 = w - bits.toNat := by omega
  have hlt : 2 * 2 ^ (w - bits.toNat) < 2 ^ 32 := by
    rw [← Nat.pow_succ']
    exact Nat.pow_lt_pow_right (by decide) (by omega)
  have hshift : (1#32 <<< (w - bits.toNat)).toNat = 2 ^ (w - bits.toNat) := by
    rw [BitVec.toNat_shiftLeft, Nat.shiftLeft_eq]
    simp only [BitVec.toNat_ofNat]
    omega
  have hint : (1#32 <<< (w - bits.toNat)).toInt = (2 ^ (w - bits.toNat) : Nat) := by
    rw [BitVec.toInt_eq_toNat_of_lt (by rw [hshift]; exact hlt), hshift]
  have hpos : 0 < 2 ^ (w - bits.toNat) := Nat.two_pow_pos _
  have hcast : ((2 ^ (w - bits.toNat) : Nat) : Int) - 1 = (2 ^ (w - bits.toNat) - 1 : Nat) := by omega
  rw [createMask, hmod, hint]
  simp only [hcast]
  rw [if_neg (by omega), if_neg (by omega), not_prefixMask, BitVec.ofInt_natCast]

/-- A prefix longer than the type makes the count wrap around. -/
theorem createMask_of_gt (hw : w ≤ 32) (hgt : w < bits.toNat) :
    createMask w bits = .error .shiftCount := by
  have hbits := bits.toNat_lt
  rw [createMask]
  simp only
  rw [if_pos (by omega)]

theorem createMask_zero : createMask 32 0 = .error .shiftCount := rfl

theorem createMask_one : createMask 32 1 = .error .signedOverflow := rfl

/-- The three ways a prefix length can go. -/
theorem createMask_cases (p : UInt32) :
    p < 2 ∧ p ≤ 32 ∧ (∃ e, createMask 32 p = .error e) ∨
      2 ≤ p ∧ p ≤ 32 ∧ createMask 32 p = .ok (~~~prefixMask 32 p.toNat) ∨
      2 ≤ p ∧ 32 < p ∧ createMask 32 p = .error .shiftCount := by
  simp only [UInt32.lt_iff_toNat_lt, UInt32.le_iff_toNat_le, UInt32.reduceToNat]
  rcases Nat.lt_or_ge p.toNat 2 with hlt | hge
  · refine Or.inl ⟨hlt, by omega, ?_⟩
    rcases Nat.eq_zero_or_pos p.toNat with h | h
    · have hp : p = 0 := UInt32.toNat_inj.mp h
      exact ⟨_, hp ▸ createMask_zero⟩
    · have hp : p = 1 := UInt32.toNat_inj.mp (Nat.le_antisymm (Nat.le_of_lt_succ hlt) h)
      exact ⟨_, hp ▸ createMask_one⟩
  · rcases Nat.lt_or_ge 32 p.toNat with hgt | hle
    · exact Or.inr (Or.inr ⟨hge, hgt, createMask_of_gt (by decide) hgt⟩)
    · exact Or.inr (Or.inl ⟨hge, hle, createMask_eq hle (by omega)⟩)

end CreateMask

namespace IPv4Address

/-- `IPv4Address::broadcastAddress`; `none` stands for `nullptr`. -/
def broadcastAddress (m_addr : SockaddrIn) (prefixLen : UInt32) :
    Except Undefined (Option SockaddrIn) :=
  if 32 < prefixLen then .ok none
  else (createMask 32 prefixLen).map fun mask =>
    some { m_addr with addr := m_addr.addr ||| bswap mask }

/-- `IPv4Address::networdAddress` -/
def networdAddress (m_addr : SockaddrIn) (prefixLen : UInt32) :
    Except Undefined (Option SockaddrIn) :=
  if 32 < prefixLen then .ok none
  else (createMask 32 prefixLen).map fun mask =>
    some { m_addr with addr := m_addr.addr &&& bswap mask }

/-- `IPv4Address::subnetMask` -/
def subnetMask (prefixLen : UInt32) : Except Undefined (Option SockaddrIn) :=
  (createMask 32 prefixLen).map fun mask =>
    some { SockaddrIn.zero with family := afInet, addr := ~~~bswap mask }

/-- The address as a number, its first byte the highest. -/
def value (a : SockaddrIn) : BitVec 32 := bswap a.addr

/-- The same with another address. -/
def withValue (a : SockaddrIn) (v : BitVec 32) : SockaddrIn := { a with addr := bswap v }

/-- What a function is for that refuses lengths from 33 on. -/
def upTo32 (prefixLen : UInt32) (a : SockaddrIn) : Except Undefined (Option SockaddrIn) :=
  .ok (if 32 < prefixLen then none else some a)

section Exactly

variable (a : SockaddrIn) (p : UInt32)

theorem or_bswap (m : BitVec 32) : a.addr ||| bswap m = bswap (value a ||| m) := by
  rw [bswap_or (by decide), value, bswap_bswap (by decide)]

theorem and_bswap (m : BitVec 32) : a.addr &&& bswap m = bswap (value a &&& m) := by
  rw [bswap_and (by decide), value, bswap_bswap (by decide)]

theorem bswap_injective {u v : BitVec 32} (h : bswap u = bswap v) : u = v := by
  rw [← bswap_bswap (by decide) u, h, bswap_bswap (by decide)]

theorem value_eq_zero_iff : value a = 0 ↔ a.addr = 0 := by
  have hzero : bswap (0 : BitVec 32) = 0 := by decide
  refine ⟨fun h => bswap_injective (h.trans hzero.symm), fun h => ?_⟩
  rw [value, h, hzero]

theorem withValue_inj {u v : BitVec 32} : withValue a u = withValue a v ↔ u = v := by
  refine ⟨fun h => ?_, fun h => by rw [h]⟩
  exact bswap_injective (congrArg SockaddrIn.addr h)

theorem broadcastAddress_iff :
    broadcastAddress a p = upTo32 p (withValue a (value a ||| ~~~prefixMask 32 p.toNat)) ↔
      2 ≤ p := by
  rw [broadcastAddress, upTo32]
  rcases createMask_cases p with ⟨hlt, hle, e, herror⟩ | ⟨hge, hle, hok⟩ | ⟨hge, hgt, -⟩
  · rw [herror, if_neg (UInt32.not_lt.mpr hle), if_neg (UInt32.not_lt.mpr hle)]
    exact iff_of_false (by simp [Except.map]) (UInt32.not_le.mpr hlt)
  · rw [hok, if_neg (UInt32.not_lt.mpr hle), if_neg (UInt32.not_lt.mpr hle), Except.map, or_bswap]
    exact iff_of_true rfl hge
  · rw [if_pos hgt, if_pos hgt]
    exact iff_of_true rfl hge

/-- The address is masked with the bits of the host, where those of the network belong. -/
theorem networdAddress_iff :
    networdAddress a p = upTo32 p (withValue a (value a &&& prefixMask 32 p.toNat)) ↔
      32 < p ∨ 2 ≤ p ∧ a.addr = 0 := by
  rw [networdAddress, upTo32]
  rcases createMask_cases p with ⟨hlt, hle, e, herror⟩ | ⟨hge, hle, hok⟩ | ⟨hge, hgt, -⟩
  · have hnot : ¬(32 < p ∨ 2 ≤ p ∧ a.addr = 0) := by
      rintro (hgt | ⟨hge, -⟩)
      · exact UInt32.not_lt.mpr hle hgt
      · exact UInt32.not_le.mpr hlt hge
    rw [herror, if_neg (UInt32.not_lt.mpr hle), if_neg (UInt32.not_lt.mpr hle)]
    exact iff_of_false (by simp [Except.map]) hnot
  · rw [hok, if_neg (UInt32.not_lt.mpr hle), if_neg (UInt32.not_lt.mpr hle), Except.map, and_bswap,
      Except.ok.injEq, Option.some.injEq]
    change withValue a _ = withValue a _ ↔ _
    rw [withValue_inj, and_eq_and_not_iff, value_eq_zero_iff,
      or_iff_right (UInt32.not_lt.mpr hle), and_iff_right hge]
  · rw [if_pos hgt, if_pos hgt]
    exact iff_of_true rfl (Or.inl hgt)

theorem subnetMask_iff :
    subnetMask p =
        upTo32 p (withValue { SockaddrIn.zero with family := afInet } (prefixMask 32 p.toNat)) ↔
      2 ≤ p ∧ p ≤ 32 := by
  rw [subnetMask, upTo32]
  rcases createMask_cases p with ⟨hlt, -, e, herror⟩ | ⟨hge, hle, hok⟩ | ⟨-, hgt, herror⟩
  · rw [herror]
    exact iff_of_false (by simp [Except.map]) fun h => UInt32.not_le.mpr hlt h.1
  · rw [hok, if_neg (UInt32.not_lt.mpr hle), Except.map, ← bswap_not (by decide), BitVec.not_not]
    exact iff_of_true rfl ⟨hge, hle⟩
  · rw [herror]
    exact iff_of_false (by simp [Except.map]) fun h => UInt32.not_lt.mpr h.2 hgt

end Exactly

/-- Where the three functions give what they are for. -/
theorem subnets_iff (a : SockaddrIn) (p : UInt32) :
    (broadcastAddress a p = upTo32 p (withValue a (value a ||| ~~~prefixMask 32 p.toNat)) ↔ 2 ≤ p) ∧
      (networdAddress a p = upTo32 p (withValue a (value a &&& prefixMask 32 p.toNat)) ↔
        32 < p ∨ 2 ≤ p ∧ a.addr = 0) ∧
      (subnetMask p =
          upTo32 p (withValue { SockaddrIn.zero with family := afInet } (prefixMask 32 p.toNat)) ↔
        2 ≤ p ∧ p ≤ 32) :=
  ⟨broadcastAddress_iff a p, networdAddress_iff a p, subnetMask_iff p⟩

/-- `10.1.2.3`, as it lies in memory. -/
def tenAddress : SockaddrIn where
  family := afInet
  port := 0x5000
  addr := 0x0302010a

/-- The network of `10.1.2.3/8` comes out as `0.1.2.3`; the default route shifts by the width. -/
theorem subnets_wrong :
    networdAddress tenAddress 8 ≠ upTo32 8 (withValue tenAddress (value tenAddress &&& prefixMask 32 8)) ∧
      broadcastAddress tenAddress 0 = .error .shiftCount ∧ subnetMask 1 = .error .signedOverflow ∧
      subnetMask 33 = .error .shiftCount := by
  refine ⟨?_, rfl, rfl, rfl⟩
  decide

end IPv4Address

end Saturn
