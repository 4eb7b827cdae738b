import Saturn.Address.Subnet

/-!
# Subnets of IPv6 addresses

The same three functions of `IPv6Address`. They split the length into whole bytes and the bits of one
byte more, and do not check that there are so many bytes.
-/

namespace Saturn

namespace IPv6Address

/-- `addr.s6_addr[i]` -/
def readByte (bytes : Vector UInt8 16) (i : Nat) : Except Undefined UInt8 :=
  if h : i < 16 then .ok bytes[i] else .error .outOfBounds

/-- `addr.s6_addr[i] = b` -/
def writeByte (bytes : Vector UInt8 16) (i : Nat) (b : UInt8) : Except Undefined (Vector UInt8 16) :=
  if h : i < 16 then .ok (bytes.set i b) else .error .outOfBounds

/-- `s6_addr[i] = b` for each `i` of a loop. -/
def fillBytes (b : UInt8) : List Nat → Vector UInt8 16 → Except Undefined (Vector UInt8 16)
  | [], bytes => .ok bytes
  | i :: is, bytes => (writeByte bytes i b).bind (fillBytes b is)

/-- `CreateMask<uint8_t>(prefix_len % 8)` -/
def byteMask (prefixLen : UInt32) : Except Undefined UInt8 :=
  (createMask 8 (prefixLen % 8)).map UInt8.ofBitVec

/-- One byte changed by the mask, and those behind it overwritten. -/
def maskBytes (op : UInt8 → UInt8 → UInt8) (fill : UInt8) (m_addr : SockaddrIn6)
    (prefixLen : UInt32) : Except Undefined (Option SockaddrIn6) :=
  let first := prefixLen.toNat / 8 + 1
  (readByte m_addr.addr (prefixLen.toNat / 8)).bind fun b =>
    (byteMask prefixLen).bind fun mask =>
      (writeByte m_addr.addr (prefixLen.toNat / 8) (op b mask)).bind fun bytes =>
        (fillBytes fill (List.range' first (16 - first)) bytes).map fun bytes =>
          some { m_addr with addr := bytes }

/-- `IPv6Address::broadcastAddress` -/
def broadcastAddress (m_addr : SockaddrIn6) (prefixLen : UInt32) :
    Except Undefined (Option SockaddrIn6) :=
  maskBytes (· ||| ·) 0xff m_addr prefixLen

/-- `IPv6Address::networdAddress` -/
def networdAddress (m_addr : SockaddrIn6) (prefixLen : UInt32) :
    Except Undefined (Option SockaddrIn6) :=
  maskBytes (· &&& ·) 0x00 m_addr prefixLen

/-- `IPv6Address::subnetMask` -/
def subnetMask (prefixLen : UInt32) : Except Undefined (Option SockaddrIn6) :=
  (byteMask prefixLen).bind fun mask =>
    (writeByte SockaddrIn6.zero.addr (prefixLen.toNat / 8) (~~~mask)).bind fun bytes =>
      (fillBytes 0xff (List.range (prefixLen.toNat / 8)) bytes).map fun bytes =>
        some { SockaddrIn6.zero with family := afInet6, addr := bytes }

/-- The address as a number, its first byte the highest. -/
def value (bytes : Vector UInt8 16) : BitVec 128 := loadLe 128 bytes.toList.reverse

/-- What a function is for that refuses lengths from 129 on: `a` with another address. -/
def Gives (result : Except Undefined (Option SockaddrIn6)) (prefixLen : UInt32) (a : SockaddrIn6)
    (v : BitVec 128) : Prop :=
  if 128 < prefixLen then result = .ok none
  else ∃ bytes, result = .ok (some { a with addr := bytes }) ∧ value bytes = v

section Bytes

theorem fillBytes_ok (b : UInt8) (is : List Nat) (h : ∀ i ∈ is, i < 16)
    (bytes : Vector UInt8 16) :
    ∃ bytes', fillBytes b is bytes = .ok bytes' ∧
      ∀ (j : Nat) (hj : j < 16), bytes'[j] = if j ∈ is then b else bytes[j] := by
  induction is generalizing bytes with
  | nil => exact ⟨bytes, rfl, fun j hj => by simp⟩
  | cons i is ih =>
      have hi : i < 16 := h i List.mem_cons_self
      obtain ⟨bytes', hfill, hbytes'⟩ := ih (fun k hk => h k (List.mem_cons_of_mem _ hk))
        (bytes.set i b)
      refine ⟨bytes', ?_, fun j hj => ?_⟩
      · rw [fillBytes, writeByte, dif_pos hi]
        exact hfill
      · rw [hbytes' j hj, Vector.getElem_set]
        by_cases hij : i = j
        · simp [hij]
        · simp [hij, Ne.symm hij]

theorem getLsbD_value (bytes : Vector UInt8 16) {i : Nat} (hi : i < 128) :
    (value bytes).getLsbD i = (bytes[15 - i / 8]).toNat.testBit (i % 8) := by
  have hlen : i / 8 < bytes.toList.length := by
    rw [Vector.length_toList]
    omega
  have hget : bytes.toList[16 - 1 - i / 8]? = some bytes[15 - i / 8] := by simp
  rw [value, getLsbD_loadLe hi, List.getD_eq_getElem?_getD, List.getElem?_reverse hlen,
    Vector.length_toList, hget, Option.getD_some]

/-- The bits behind the leading ones of the byte that a length ends in. -/
def hostBits (prefixLen : UInt32) : UInt8 :=
  UInt8.ofBitVec (~~~prefixMask 8 (prefixLen.toNat % 8))

theorem byteMask_eq (p : UInt32) : byteMask p = .ok (hostBits p) := by
  have hmod : (p % 8).toNat = p.toNat % 8 := UInt32.toNat_mod p 8
  rw [byteMask, createMask_eq (by rw [hmod]; omega) (by omega), hmod]
  rfl

theorem testBit_hostBits (p : UInt32) {k : Nat} (hk : k < 8) :
    (hostBits p).toNat.testBit k = decide (k < 8 - p.toNat % 8) := by
  change (~~~prefixMask 8 (p.toNat % 8)).getLsbD k = _
  rw [BitVec.getLsbD_not, getLsbD_prefixMask hk, decide_eq_true hk, Bool.true_and]
  simp only [← decide_not, Nat.not_le]

theorem testBit_ff {k : Nat} (hk : k < 8) : (0xff : UInt8).toNat.testBit k = true :=
  (Nat.testBit_two_pow_sub_one 8 k).trans (decide_eq_true hk)

theorem testBit_not (b : UInt8) {k : Nat} (hk : k < 8) :
    (~~~b).toNat.testBit k = !b.toNat.testBit k := by
  change (~~~b.toBitVec).getLsbD k = _
  rw [BitVec.getLsbD_not, decide_eq_true hk, Bool.true_and]
  rfl

end Bytes

section Loops

variable {op : UInt8 → UInt8 → UInt8} {fill : UInt8} {a : SockaddrIn6} {p : UInt32}

/-- The byte that a length from 128 on ends in is none of the sixteen. -/
theorem maskBytes_outside (h : 16 ≤ p.toNat / 8) : maskBytes op fill a p = .error .outOfBounds := by
  rw [maskBytes, readByte, dif_neg (by omega)]
  rfl

theorem subnetMask_outside (h : 16 ≤ p.toNat / 8) : subnetMask p = .error .outOfBounds := by
  have hnot : ¬p.toNat / 8 < 16 := by omega
  simp only [subnetMask, byteMask_eq, Except.bind, writeByte, dif_neg hnot]

variable (op fill a) in
theorem maskBytes_eq (h : p.toNat / 8 < 16) :
    ∃ bytes, maskBytes op fill a p = .ok (some { a with addr := bytes }) ∧
      (∀ (j : Nat) (hj : j < 16), j < p.toNat / 8 → bytes[j] = a.addr[j]) ∧
      bytes[p.toNat / 8] = op a.addr[p.toNat / 8] (hostBits p) ∧
      ∀ (j : Nat) (hj : j < 16), p.toNat / 8 < j → bytes[j] = fill := by
  obtain ⟨bytes, hfill, hbytes⟩ := fillBytes_ok fill
    (List.range' (p.toNat / 8 + 1) (16 - (p.toNat / 8 + 1)))
    (fun i hi => by have := List.mem_range'_1.mp hi; omega)
    (a.addr.set (p.toNat / 8) (op a.addr[p.toNat / 8] (hostBits p)))
  refine ⟨bytes, ?_, fun j hj hlt => ?_, ?_, fun j hj hgt => ?_⟩
  · simp only [maskBytes, readByte, byteMask_eq, Except.bind, writeByte, dif_pos h, hfill, Except.map]
  · rw [hbytes j hj, if_neg, Vector.getElem_set_ne _ _ (Nat.ne_of_gt hlt)]
    exact fun hmem => by have := List.mem_range'_1.mp hmem; omega
  · rw [hbytes _ h, if_neg, Vector.getElem_set_self]
    exact fun hmem => by have := List.mem_range'_1.mp hmem; omega
  · rw [hbytes j hj, if_pos]
    exact List.mem_range'_1.mpr ⟨hgt, by omega⟩

theorem subnetMask_eq (h : p.toNat / 8 < 16) :
    ∃ bytes, subnetMask p = .ok (some { SockaddrIn6.zero with family := afInet6, addr := bytes }) ∧
      (∀ (j : Nat) (hj : j < 16), j < p.toNat / 8 → bytes[j] = 0xff) ∧
      bytes[p.toNat / 8] = ~~~hostBits p ∧
      ∀ (j : Nat) (hj : j < 16), p.toNat / 8 < j → bytes[j] = 0 := by
  obtain ⟨bytes, hfill, hbytes⟩ := fillBytes_ok 0xff (List.range (p.toNat / 8))
    (fun i hi => by have := List.mem_range.mp hi; omega)
    (SockaddrIn6.zero.addr.set (p.toNat / 8) (~~~hostBits p))
  refine ⟨bytes, ?_, fun j hj hlt => ?_, ?_, fun j hj hgt => ?_⟩
  · simp only [subnetMask, byteMask_eq, Except.bind, writeByte, dif_pos h, hfill, Except.map]
  · rw [hbytes j hj, if_pos (List.mem_range.mpr hlt)]
  · rw [hbytes _ h, if_neg, Vector.getElem_set_self]
    exact fun hmem => Nat.lt_irrefl _ (List.mem_range.mp hmem)
  · rw [hbytes j hj, if_neg, Vector.getElem_set_ne _ _ (Nat.ne_of_lt hgt)]
    · simp [SockaddrIn6.zero]
    · exact fun hmem => Nat.lt_asymm hgt (List.mem_range.mp hmem)

end Loops

section Bits

variable {p : UInt32}

/-- Two numbers agree if they agree byte by byte, and the mask splits at the byte that the length
ends in. -/
theorem value_eq_iff (bytes : Vector UInt8 16) (v : BitVec 128) :
    value bytes = v ↔ ∀ (j : Nat) (hj : j < 16), ∀ k < 8,
      bytes[j].toNat.testBit k = v.getLsbD (8 * (15 - j) + k) := by
  constructor
  · rintro rfl j hj k hk
    rw [getLsbD_value bytes (by omega)]
    simp only [show 15 - (8 * (15 - j) + k) / 8 = j by omega, show (8 * (15 - j) + k) % 8 = k by omega]
  · intro h
    refine BitVec.eq_of_getLsbD_eq fun i hi => ?_
    rw [getLsbD_value bytes hi, h (15 - i / 8) (by omega) (i % 8) (by omega)]
    congr 1
    omega

theorem testBit_mask {j k : Nat} (hj : j < 16) (hk : k < 8) :
    (prefixMask 128 p.toNat).getLsbD (8 * (15 - j) + k) =
      if j < p.toNat / 8 then true
      else if j = p.toNat / 8 then decide (8 - p.toNat % 8 ≤ k) else false := by
  rw [getLsbD_prefixMask (by omega)]
  split
  · exact decide_eq_true (by omega)
  · split
    · rw [decide_eq_decide]
      omega
    · exact decide_eq_false (by omega)

theorem endsInside_iff : p.toNat / 8 < 16 ↔ p ≤ 127 := by
  rw [UInt32.le_iff_toNat_le]
  simp only [UInt32.reduceToNat]
  omega

/-- A result within the sixteen bytes is right exactly if its address is. -/
theorem gives_iff {result : Except Undefined (Option SockaddrIn6)} {a : SockaddrIn6}
    {bytes : Vector UInt8 16} {v : BitVec 128} (hp : p.toNat / 8 < 16)
    (h : result = .ok (some { a with addr := bytes })) : Gives result p a v ↔ value bytes = v := by
  have hnot : ¬128 < p := by
    rw [UInt32.lt_iff_toNat_lt]
    simp only [UInt32.reduceToNat]
    omega
  rw [Gives, if_neg hnot]
  constructor
  · rintro ⟨bytes', heq, hv⟩
    rw [h, Except.ok.injEq, Option.some.injEq, SockaddrIn6.mk.injEq] at heq
    rw [heq.2.2.2.1, hv]
  · exact fun hv => ⟨bytes, h, hv⟩

theorem not_gives {result : Except Undefined (Option SockaddrIn6)} {a : SockaddrIn6} {v : BitVec 128}
    {e : Undefined} (h : result = .error e) : ¬Gives result p a v := by
  rw [Gives, h]
  split
  · exact fun heq => by cases heq
  · rintro ⟨bytes, heq, -⟩
    cases heq

end Bits

section Exactly

variable (a : SockaddrIn6) (p : UInt32)

theorem testBit_value (bytes : Vector UInt8 16) {j k : Nat} (hj : j < 16) (hk : k < 8) :
    (value bytes).getLsbD (8 * (15 - j) + k) = bytes[j].toNat.testBit k :=
  ((value_eq_iff bytes _).mp rfl j hj k hk).symm

theorem broadcastAddress_iff :
    Gives (broadcastAddress a p) p a (value a.addr ||| ~~~prefixMask 128 p.toNat) ↔
      p.toNat / 8 < 16 := by
  rcases Nat.lt_or_ge (p.toNat / 8) 16 with hp | hp
  · obtain ⟨bytes, hok, hbefore, hmid, hafter⟩ := maskBytes_eq (· ||| ·) 0xff a hp
    rw [broadcastAddress, gives_iff hp hok, value_eq_iff]
    refine iff_of_true (fun j hj k hk => ?_) hp
    rw [BitVec.getLsbD_or, BitVec.getLsbD_not, testBit_value a.addr hj hk, testBit_mask hj hk,
      decide_eq_true (show 8 * (15 - j) + k < 128 by omega), Bool.true_and]
    rcases Nat.lt_trichotomy j (p.toNat / 8) with hlt | rfl | hgt
    · rw [if_pos hlt, hbefore j hj hlt, Bool.not_true, Bool.or_false]
    · rw [if_neg (Nat.lt_irrefl _), if_pos rfl, hmid, UInt8.toNat_or, Nat.testBit_or,
        testBit_hostBits p hk]
      simp only [← decide_not, Nat.not_le]
    · rw [if_neg (Nat.lt_asymm hgt), if_neg (Nat.ne_of_gt hgt), hafter j hj hgt, testBit_ff hk,
        Bool.not_false, Bool.or_true]
  · exact iff_of_false (not_gives (maskBytes_outside hp)) (by omega)

/-- A byte is zero if its bits on one side of a place are those on the other. -/
theorem eq_zero_of_testBit {b : UInt8} {n : Nat}
    (h : ∀ k < 8, (b.toNat.testBit k && decide (k < n)) = (b.toNat.testBit k && decide (n ≤ k))) :
    b = 0 := by
  refine UInt8.toNat_inj.mp (Nat.eq_of_testBit_eq fun k => ?_)
  rw [UInt8.toNat_zero, Nat.zero_testBit]
  rcases Nat.lt_or_ge k 8 with hk | hk
  · have hbit := h k hk
    cases hb : b.toNat.testBit k with
    | false => rfl
    | true =>
        rw [hb, Bool.true_and, Bool.true_and, decide_eq_decide] at hbit
        omega
  · exact Nat.testBit_lt_two_pow (Nat.lt_of_lt_of_le b.toNat_lt (Nat.pow_le_pow_right (by decide) hk))

/-- The byte that the length ends in is masked with the bits of the host. -/
theorem networdAddress_iff :
    Gives (networdAddress a p) p a (value a.addr &&& prefixMask 128 p.toNat) ↔
      a.addr[p.toNat / 8]? = some 0 := by
  rcases Nat.lt_or_ge (p.toNat / 8) 16 with hp | hp
  · obtain ⟨bytes, hok, hbefore, hmid, hafter⟩ := maskBytes_eq (· &&& ·) 0x00 a hp
    rw [networdAddress, gives_iff hp hok, value_eq_iff, Vector.getElem?_eq_getElem hp, Option.some.injEq]
    constructor
    · intro h
      refine eq_zero_of_testBit (n := 8 - p.toNat % 8) fun k hk => ?_
      have hbit := h _ hp k hk
      rwa [hmid, UInt8.toNat_and, Nat.testBit_and, testBit_hostBits p hk, BitVec.getLsbD_and,
        testBit_value a.addr hp hk, testBit_mask hp hk, if_neg (Nat.lt_irrefl _), if_pos rfl] at hbit
    · intro hzero j hj k hk
      rw [BitVec.getLsbD_and, testBit_value a.addr hj hk, testBit_mask hj hk]
      rcases Nat.lt_trichotomy j (p.toNat / 8) with hlt | rfl | hgt
      · rw [if_pos hlt, hbefore j hj hlt, Bool.and_true]
      · rw [if_neg (Nat.lt_irrefl _), if_pos rfl, hmid, hzero, UInt8.toNat_and, UInt8.toNat_zero,
          Nat.zero_and, Nat.zero_testBit, Bool.false_and]
      · rw [if_neg (Nat.lt_asymm hgt), if_neg (Nat.ne_of_gt hgt), hafter j hj hgt, UInt8.toNat_zero,
          Nat.zero_testBit, Bool.and_false]
  · refine iff_of_false (not_gives (maskBytes_outside hp)) ?_
    rw [Vector.getElem?_eq_none hp]
    exact fun h => by cases h

theorem subnetMask_iff :
    Gives (subnetMask p) p { SockaddrIn6.zero with family := afInet6 } (prefixMask 128 p.toNat) ↔
      p.toNat / 8 < 16 := by
  rcases Nat.lt_or_ge (p.toNat / 8) 16 with hp | hp
  · obtain ⟨bytes, hok, hbefore, hmid, hafter⟩ := subnetMask_eq hp
    rw [gives_iff hp hok, value_eq_iff]
    refine iff_of_true (fun j hj k hk => ?_) hp
    rw [testBit_mask hj hk]
    rcases Nat.lt_trichotomy j (p.toNat / 8) with hlt | rfl | hgt
    · rw [if_pos hlt, hbefore j hj hlt, testBit_ff hk]
    · rw [if_neg (Nat.lt_irrefl _), if_pos rfl, hmid, testBit_not _ hk, testBit_hostBits p hk]
      simp only [← decide_not, Nat.not_lt]
    · rw [if_neg (Nat.lt_asymm hgt), if_neg (Nat.ne_of_gt hgt), hafter j hj hgt]
      exact Nat.zero_testBit k
  · exact iff_of_false (not_gives (subnetMask_outside hp)) (by omega)

end Exactly

/-- Where the three functions give what they are for. -/
theorem subnets6_iff (a : SockaddrIn6) (p : UInt32) :
    (Gives (broadcastAddress a p) p a (value a.addr ||| ~~~prefixMask 128 p.toNat) ↔ p ≤ 127) ∧
      (Gives (networdAddress a p) p a (value a.addr &&& prefixMask 128 p.toNat) ↔
        a.addr[p.toNat / 8]? = some 0) ∧
      (Gives (subnetMask p) p { SockaddrIn6.zero with family := afInet6 }
          (prefixMask 128 p.toNat) ↔ p ≤ 127) := by
  rw [← endsInside_iff]
  exact ⟨broadcastAddress_iff a p, networdAddress_iff a p, subnetMask_iff p⟩

/-- `101:101:101:101:101:101:101:101`, with a scope behind it. -/
def onesAddress : SockaddrIn6 :=
  { SockaddrIn6.zero with family := afInet6, addr := Vector.replicate 16 1, scopeId := 2 }

/-- The network of length 8 loses its one byte, and the whole address as its own network is read
behind its end. -/
theorem subnets6_wrong :
    ¬Gives (networdAddress onesAddress 8) 8 onesAddress (value onesAddress.addr &&& prefixMask 128 8) ∧
      broadcastAddress onesAddress 128 = .error .outOfBounds ∧
      networdAddress onesAddress 128 = .error .outOfBounds ∧
      subnetMask 128 = .error .outOfBounds ∧ subnetMask 129 = .error .outOfBounds := by
  refine ⟨fun h => ?_, maskBytes_outside (by decide), maskBytes_outside (by decide),
    subnetMask_outside (by decide), subnetMask_outside (by decide)⟩
  exact absurd ((networdAddress_iff onesAddress 8).mp h) (by decide)

end IPv6Address

end Saturn
