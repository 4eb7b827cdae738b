import Saturn.ByteArray.Typed
import Saturn.Misc.Base128

/-!
# Where `read` delivers bytes in order

`Delivers` says that `read` takes the unread bytes from the front and throws, without taking any,
when there are too few. What the typed readers return is then a function of the unread bytes.
-/

namespace Saturn

section Streams

variable {ε σ α β : Type} {x : EStateM ε σ α} {f : α → EStateM ε σ β} {s t : σ}

theorem bind_of_ok {a : α} (h : x s = .ok a t) : (x >>= f) s = f a t := by
  simp only [bind, EStateM.bind, h]

theorem bind_congr_at {y : EStateM ε σ α} (h : x s = y s) : (x >>= f) s = (y >>= f) s := by
  simp only [bind, EStateM.bind, h]

theorem map_of_ok {a : α} (g : α → β) (h : x s = .ok a t) :
    (x >>= fun a => pure (g a)) s = .ok (g a) t := by
  rw [bind_of_ok h]
  rfl

theorem bind_map_at (g : α → β) {γ : Type} (f : β → EStateM ε σ γ) :
    ((x >>= fun a => pure (g a)) >>= f) s = (x >>= fun a => f (g a)) s := by
  cases h : x s with
  | ok a t => rw [bind_of_ok (map_of_ok g h), bind_of_ok h]
  | error e t =>
      simp only [bind, EStateM.bind, h]

theorem bind_of_error {e : ε} (h : x s = .error e t) : (x >>= f) s = .error e t := by
  simp only [bind, EStateM.bind, h]

end Streams

/-- `read` delivers the unread bytes in order; `I s u` says that `u` are those of the state `s`. -/
structure Raw.Delivers {σ : Type} (r : Raw σ) (I : σ → List UInt8 → Prop) : Prop where
  short : ∀ {s u n}, I s u → u.length < n → r.read n s = .error (.raw .outOfRange) s
  take : ∀ {s u n}, I s u → 0 < n → n ≤ u.length →
    ∃ t, r.read n s = .ok (u.take n) t ∧ I t (u.drop n) ∧ r.endian t = r.endian s

theorem ByteStream.raw_delivers (s₀ : ByteStream) :
    ByteStream.raw.Delivers fun s u => s = { s₀ with unread := u } where
  short := by
    rintro s u n rfl h
    simp only [ByteStream.raw, if_pos h]
  take := by
    rintro s u n rfl - h
    exact ⟨_, by simp only [ByteStream.raw, if_neg (Nat.not_lt.mpr h)], rfl, rfl⟩

/-- One more group, at bit `i`. -/
theorem ofNat_or_shift {w i a x : Nat} (ha : a < 2 ^ i) :
    BitVec.ofNat w a ||| BitVec.ofNat w x <<< i = BitVec.ofNat w (a + 2 ^ i * x) := by
  have hshift : BitVec.ofNat w x <<< i = BitVec.ofNat w (2 ^ i * x) := by
    apply BitVec.eq_of_toNat_eq
    rw [BitVec.toNat_shiftLeft, BitVec.toNat_ofNat, BitVec.toNat_ofNat, Nat.shiftLeft_eq,
      Nat.mod_mul_mod, Nat.mul_comm]
  rw [hshift, ← BitVec.ofNat_or, Nat.or_comm, ← Nat.two_pow_add_eq_or_of_lt ha, Nat.add_comm]

theorem loadLe_singleton (b : UInt8) : loadLe 8 [b] = b.toBitVec := by
  rw [loadLe, ofLeBytes, ofLeBytes, Nat.mul_zero, Nat.add_zero]
  exact BitVec.ofNat_toNat ..

theorem setWidth_byte (w : Nat) (b : UInt8) : b.toBitVec.setWidth w = BitVec.ofNat w b.toNat := by
  apply BitVec.eq_of_toNat_eq
  rw [BitVec.toNat_setWidth, BitVec.toNat_ofNat]
  rfl

theorem and_low_byte (b : UInt8) : (b &&& 0x7f).toNat = b.toNat % 128 := by
  rw [UInt8.toNat_and]
  exact Nat.and_two_pow_sub_one_eq_mod b.toNat 7

/-- The bytes of a number as they stand in memory order `e`, or back again. -/
def inOrder : Endian → List UInt8 → List UInt8
  | .little, bs => bs
  | .big, bs => bs.reverse

@[simp] theorem inOrder_length (e : Endian) (bs : List UInt8) :
    (inOrder e bs).length = bs.length := by
  cases e with
  | little => rfl
  | big => exact List.length_reverse

@[simp] theorem inOrder_inOrder (e : Endian) (bs : List UInt8) : inOrder e (inOrder e bs) = bs := by
  cases e with
  | little => rfl
  | big => exact List.reverse_reverse bs

namespace Raw

variable {σ : Type} {r : Raw σ} {I : σ → List UInt8 → Prop} {s : σ} {u : List UInt8}

theorem Delivers.readFuint8 (h : r.Delivers I) {b : UInt8} {bs : List UInt8} (hs : I s (b :: bs)) :
    ∃ t, r.readFuint8 s = .ok b t ∧ I t bs ∧ r.endian t = r.endian s := by
  obtain ⟨t, hread, ht, hendian⟩ := h.take (n := 1) hs (by decide) (by simp)
  refine ⟨t, ?_, ht, hendian⟩
  rw [Raw.readFuint8, bind_of_ok hread]
  simp only [List.take_succ_cons, List.take_zero, loadLe_singleton]
  rfl

/-- What `writeFixed` writes. -/
theorem writeFixed_eq {w : Nat} (hw : 8 ∣ w) (v : BitVec w) (s : σ) :
    r.writeFixed v s = r.write (inOrder (r.endian s) (storeLe v)) s := by
  change (if r.endian s ≠ .little then r.write (storeLe (bswap v)) else r.write (storeLe v)) s = _
  cases r.endian s with
  | little => rw [if_neg (by decide), inOrder]
  | big => rw [if_pos (by decide), storeLe_bswap hw, inOrder]

theorem readFixed_of_read {w : Nat} (hw : 8 ∣ w) {bs : List UInt8} {t : σ}
    (hread : r.read (w / 8) s = .ok bs t) (hlen : bs.length = w / 8) :
    r.readFixed w s = .ok (loadLe w (inOrder (r.endian t) bs)) t := by
  rw [Raw.readFixed, bind_of_ok hread]
  change (if r.endian t = .little then EStateM.pure (loadLe w bs)
    else EStateM.pure (bswap (loadLe w bs))) t = _
  cases r.endian t with
  | little => rfl
  | big =>
      rw [if_neg (by decide), bswap_loadLe hw hlen]
      rfl

/-- `readFixed` returns the number that the next bytes spell in the order selected. -/
theorem Delivers.readFixed_ok (h : r.Delivers I) {w : Nat} (hw : 8 ∣ w) (hpos : 0 < w / 8)
    (hs : I s u) (hlen : w / 8 ≤ u.length) :
    ∃ t, r.readFixed w s = .ok (loadLe w (inOrder (r.endian s) (u.take (w / 8)))) t ∧
      I t (u.drop (w / 8)) ∧ r.endian t = r.endian s := by
  obtain ⟨t, hread, ht, hendian⟩ := h.take hs hpos hlen
  have htake : (u.take (w / 8)).length = w / 8 := by
    rw [List.length_take, Nat.min_eq_left hlen]
  exact ⟨t, hendian ▸ readFixed_of_read hw hread htake, ht, hendian⟩

theorem Delivers.readFixed_short (h : r.Delivers I) {w : Nat} (hs : I s u)
    (hlen : u.length < w / 8) : r.readFixed w s = .error (.raw .outOfRange) s := by
  rw [Raw.readFixed]
  exact bind_of_error (h.short hs hlen)

/-- The loop takes the groups it finds and adds their number at bit `i`. -/
theorem Delivers.varintTurns_ok (h : r.Delivers I) (w : Nat) : ∀ (turns i a n : Nat) (s : σ)
    (u rest : List UInt8), I s u → a < 2 ^ i → ofGroups turns u = some (n, rest) →
    ∃ t, r.varintTurns w turns i (BitVec.ofNat w a) s = .ok (BitVec.ofNat w (a + 2 ^ i * n)) t ∧
      I t rest ∧ r.endian t = r.endian s := by
  intro turns
  induction turns with
  | zero =>
      intro i a n s u rest hs _ hu
      cases hu
      exact ⟨s, rfl, hs, rfl⟩
  | succ turns ih =>
      intro i a n s u rest hs ha hu
      cases u with
      | nil => cases hu
      | cons b bs =>
          obtain ⟨t, hread, ht, hendian⟩ := h.readFuint8 hs
          rw [Raw.varintTurns, bind_of_ok hread]
          rw [ofGroups] at hu
          by_cases hb : b.toNat < 128
          · have hlt : b < 0x80 := UInt8.lt_iff_toNat_lt.mpr hb
            rw [if_pos hb] at hu
            cases hu
            rw [if_pos hlt, setWidth_byte, ofNat_or_shift ha]
            exact ⟨t, rfl, ht, hendian⟩
          · have hge : ¬ b < 0x80 := fun hlt => hb (UInt8.lt_iff_toNat_lt.mp hlt)
            rw [if_neg hb] at hu
            obtain ⟨⟨m, rest'⟩, hrest, heq⟩ := Option.map_eq_some_iff.mp hu
            cases heq
            have hbyte := b.toNat_lt
            have hlow : b.toNat % 128 = b.toNat - 128 := by omega
            have hsum : a + 2 ^ i * (b.toNat - 128) < 2 ^ (i + 7) := by
              have hmul : 2 ^ i * (b.toNat - 128) ≤ 2 ^ i * 127 := Nat.mul_le_mul_left _ (by omega)
              rw [Nat.pow_add]
              omega
            obtain ⟨t', hloop, ht', hendian'⟩ := ih (i + 7) _ m t bs rest' ht hsum hrest
            rw [if_neg hge, setWidth_byte, and_low_byte, hlow, ofNat_or_shift ha, hloop]
            have hnext : a + 2 ^ i * (b.toNat - 128) + 2 ^ (i + 7) * m =
                a + 2 ^ i * (b.toNat - 128 + 128 * m) := by
              rw [Nat.pow_add, Nat.mul_add, Nat.add_assoc, Nat.mul_assoc]
            rw [hnext]
            exact ⟨t', rfl, ht', hendian'.trans hendian⟩

/-- On bytes that all go on, and are too few, the loop takes them all and throws. -/
theorem Delivers.varintTurns_short (h : r.Delivers I) (w : Nat) : ∀ (turns i : Nat)
    (result : BitVec w) (s : σ) (u : List UInt8), I s u → ofGroups turns u = none →
    ∃ t, r.varintTurns w turns i result s = .error (.raw .outOfRange) t ∧ I t [] := by
  intro turns
  induction turns with
  | zero => intro i result s u _ hu; cases hu
  | succ turns ih =>
      intro i result s u hs hu
      cases u with
      | nil =>
          refine ⟨s, ?_, hs⟩
          rw [Raw.varintTurns, Raw.readFuint8]
          exact bind_of_error (bind_of_error (h.short hs (by simp)))
      | cons b bs =>
          obtain ⟨t, hread, ht, -⟩ := h.readFuint8 hs
          rw [Raw.varintTurns, bind_of_ok hread]
          rw [ofGroups] at hu
          split at hu
          · cases hu
          · rename_i hb
            have hge : ¬ b < 0x80 := fun hlt => hb (UInt8.lt_iff_toNat_lt.mp hlt)
            rw [if_neg hge]
            exact ih _ _ t bs ht (Option.map_eq_none_iff.mp hu)

theorem Delivers.readVarint_ok (h : r.Delivers I) (w : Nat) {n : Nat} {rest : List UInt8}
    (hs : I s u) (hu : ofGroups ((w + 6) / 7) u = some (n, rest)) :
    ∃ t, r.readVarint w s = .ok (BitVec.ofNat w n) t ∧ I t rest ∧ r.endian t = r.endian s := by
  have hloop := h.varintTurns_ok w _ 0 0 n s u rest hs (by simp) hu
  rw [Nat.pow_zero, Nat.zero_add, Nat.one_mul] at hloop
  exact hloop

/-- A last group that a read delivers by itself. -/
theorem readVarint_of_read {w : Nat} (hw : 0 < (w + 6) / 7) {b : UInt8} {t : σ}
    (hread : r.read 1 s = .ok [b] t) (hb : b.toNat < 128) :
    r.readVarint w s = .ok (BitVec.ofNat w b.toNat) t := by
  obtain ⟨turns, hturns⟩ : ∃ turns, (w + 6) / 7 = turns + 1 := ⟨(w + 6) / 7 - 1, by omega⟩
  have hbyte : r.readFuint8 s = .ok b t := by
    rw [Raw.readFuint8, bind_of_ok hread, loadLe_singleton]
    rfl
  rw [Raw.readVarint, hturns, Raw.varintTurns, bind_of_ok hbyte,
    if_pos (UInt8.lt_iff_toNat_lt.mpr hb), setWidth_byte, ofNat_or_shift Nat.one_pos, Nat.pow_zero,
    Nat.one_mul, Nat.zero_add]
  rfl

/-- A group that goes on, with a read behind it that fails. -/
theorem readVarint_of_failing {w : Nat} (hw : 1 < (w + 6) / 7) {b : UInt8} {t t' : σ}
    {e : Failure} (hread : r.read 1 s = .ok [b] t) (hb : 128 ≤ b.toNat)
    (hfail : r.read 1 t = .error e t') : r.readVarint w s = .error e t' := by
  obtain ⟨turns, hturns⟩ : ∃ turns, (w + 6) / 7 = turns + 2 := ⟨(w + 6) / 7 - 2, by omega⟩
  have hbyte : r.readFuint8 s = .ok b t := by
    rw [Raw.readFuint8, bind_of_ok hread, loadLe_singleton]
    rfl
  have hge : ¬ b < 0x80 := fun hlt => Nat.not_lt.mpr hb (UInt8.lt_iff_toNat_lt.mp hlt)
  rw [Raw.readVarint, hturns, Raw.varintTurns, bind_of_ok hbyte, if_neg hge, Raw.varintTurns,
    Raw.readFuint8]
  exact bind_of_error (bind_of_error hfail)

theorem readVarint_of_error {w : Nat} (hw : 0 < (w + 6) / 7) {e : Failure} {t : σ}
    (hfail : r.read 1 s = .error e t) : r.readVarint w s = .error e t := by
  obtain ⟨turns, hturns⟩ : ∃ turns, (w + 6) / 7 = turns + 1 := ⟨(w + 6) / 7 - 1, by omega⟩
  rw [Raw.readVarint, hturns, Raw.varintTurns, Raw.readFuint8]
  exact bind_of_error (bind_of_error hfail)

theorem Delivers.readVarint_nil (h : r.Delivers I) {w : Nat} (hw : 0 < (w + 6) / 7) (hs : I s []) :
    r.readVarint w s = .error (.raw .outOfRange) s :=
  readVarint_of_error hw (h.short hs (by simp))

theorem Delivers.readVarint_short (h : r.Delivers I) (w : Nat) (hs : I s u)
    (hu : ofGroups ((w + 6) / 7) u = none) :
    ∃ t, r.readVarint w s = .error (.raw .outOfRange) t ∧ I t [] :=
  h.varintTurns_short w _ 0 0#w s u hs hu

end Raw

end Saturn
