import Saturn.ByteArray.Cursor
import Saturn.ByteArray.Varint

/-!
# Strings behind their length

A string is written as its length and its bytes, each by one `write`, and read by a read of the
length and one of the bytes. Both reads overflow their destination unless they end on the border of
a node, and the read of an empty string needs a node behind its length.
-/

namespace Saturn

/-- The four ways to write the length. -/
inductive StringKind where
  | f16
  | f32
  | f64
  | vint
  deriving DecidableEq

namespace StringKind

section Members

variable {σ : Type} (r : Raw σ)

/-- The member that writes a string. -/
def write (value : List UInt8) : StringKind → EStateM Failure σ Unit
  | .f16 => r.writeStringF16 value
  | .f32 => r.writeStringF32 value
  | .f64 => r.writeStringF64 value
  | .vint => r.writeStringVint value

/-- The member that reads one. -/
def read : StringKind → EStateM Failure σ (List UInt8)
  | .f16 => r.readStringF16
  | .f32 => r.readStringF32
  | .f64 => r.readStringF64
  | .vint => r.readStringVint

end Members

/-- The lengths that can be written. -/
def Represents (len : Nat) : StringKind → Prop
  | .f16 => len < 2 ^ 16
  | .f32 => len < 2 ^ 32
  | .f64 | .vint => len < 2 ^ 64

/-- The bytes in front of the string. -/
def header (e : Endian) (len : Nat) : StringKind → List UInt8
  | .f16 => inOrder e (leBytes 2 len)
  | .f32 => inOrder e (leBytes 4 len)
  | .f64 => inOrder e (leBytes 8 len)
  | .vint => toGroups (len % 2 ^ 64)

theorem header_length_pos (e : Endian) (len : Nat) (kind : StringKind) :
    0 < (kind.header e len).length := by
  cases kind with
  | vint => exact toGroups_length_pos _
  | f16 => rw [header, inOrder_length, leBytes_length]; decide
  | f32 => rw [header, inOrder_length, leBytes_length]; decide
  | f64 => rw [header, inOrder_length, leBytes_length]; decide

variable {σ : Type}

/-- A length is written as one block of bytes, and so is the string. -/
theorem write_eq (r : Raw σ) (kind : StringKind) (value : List UInt8) (s : σ) :
    kind.write r value s =
      (r.write (kind.header (r.endian s) value.length) >>= fun _ => r.write value) s := by
  have hstore : ∀ {w k : Nat} (v : BitVec w), w = 8 * k → v.toNat = value.length % 2 ^ w →
      storeLe v = leBytes k value.length := by
    intro w k v hw hv
    subst hw
    rw [storeLe, hv, Nat.mul_div_cancel_left _ (by decide), Nat.pow_mul]
    exact leBytes_mod k value.length
  cases kind with
  | f16 =>
      apply bind_congr_at
      rw [Raw.writeFuint16, Raw.writeFixed_eq (by decide), hstore (k := 2) _ rfl rfl, header]
  | f32 =>
      apply bind_congr_at
      rw [Raw.writeFuint32, Raw.writeFixed_eq (by decide), hstore (k := 4) _ rfl rfl, header]
  | f64 =>
      apply bind_congr_at
      rw [Raw.writeFuint64, Raw.writeFixed_eq (by decide), hstore (k := 8) _ rfl rfl, header]
  | vint =>
      have hloop := (varintLoop_total 9 (by decide) (by decide)
        (UInt64.ofNat value.length).toBitVec).1
      have hlen : (UInt64.ofNat value.length).toBitVec.toNat = value.length % 2 ^ 64 :=
        UInt64.toNat_ofNat'
      apply bind_congr_at
      rw [Raw.writeUint64, Raw.writeVarint, hloop, hlen, header]

/-- The read of the length. -/
def readLength (r : Raw σ) : StringKind → EStateM Failure σ Nat
  | .f16 => do pure (← r.readFuint16).toNat
  | .f32 => do pure (← r.readFuint32).toNat
  | .f64 => do pure (← r.readFuint64).toNat
  | .vint => do pure (← r.readUint64).toNat

theorem read_eq (r : Raw σ) (kind : StringKind) (s : σ) :
    kind.read r s = (kind.readLength r >>= r.readBody) s := by
  cases kind with
  | f16 => exact (bind_map_at _ _).symm
  | f32 => exact (bind_map_at _ _).symm
  | f64 => exact (bind_map_at _ _).symm
  | vint => exact (bind_map_at _ _).symm

/-- Every read of the length ends on a border. -/
def HeaderOnBorders (len position b : Nat) : StringKind → Prop
  | .f16 => (position + 2) % b = 0
  | .f32 => (position + 4) % b = 0
  | .f64 => (position + 8) % b = 0
  | .vint => b = 1 ∨ (len < 128 ∧ (position + 1) % b = 0)

/-- How many bytes the length of the empty string takes. -/
def emptySize : StringKind → Nat
  | .f16 => 2
  | .f32 => 4
  | .f64 => 8
  | .vint => 1

theorem header_length_zero (e : Endian) (kind : StringKind) :
    (kind.header e 0).length = kind.emptySize := by
  cases kind with
  | vint => rw [header, Nat.zero_mod, toGroups_of_lt (by decide)]; rfl
  | f16 => rw [header, inOrder_length, leBytes_length]; rfl
  | f32 => rw [header, inOrder_length, leBytes_length]; rfl
  | f64 => rw [header, inOrder_length, leBytes_length]; rfl

/-- The body begins on a border then. -/
theorem HeaderOnBorders.border {len position b : Nat} {kind : StringKind}
    (h : kind.HeaderOnBorders len position b) (e : Endian) :
    (position + (kind.header e len).length) % b = 0 := by
  cases kind with
  | f16 => rw [header, inOrder_length, leBytes_length]; exact h
  | f32 => rw [header, inOrder_length, leBytes_length]; exact h
  | f64 => rw [header, inOrder_length, leBytes_length]; exact h
  | vint =>
      rcases h with rfl | ⟨hlen, hborder⟩
      · exact Nat.mod_one _
      · have hmod : len % 2 ^ 64 = len := Nat.mod_eq_of_lt (by omega)
        rw [header, hmod, toGroups_of_lt hlen]
        exact hborder

end StringKind

namespace ByteArray

variable {c : Caller} {junk : Nat → UInt8} {slack memory len : Nat} {value tail rest : List UInt8}

/-- Where a string stands unread, the read of its bytes returns them if it ends on a border, and
finds a node where there are none. -/
theorem readBody_ok (slack : Nat) (h : Inv c.object) (hunread : c.object.unread junk = value ++ tail)
    (hmemory : value.length ≤ memory)
    (hborder : (c.object.position + value.length) % c.object.baseSize = 0)
    (hnode : value = [] → c.object.position < c.object.capacity) :
    ∃ c', (raw slack memory junk).readBody value.length c = .ok value c' ∧
      c'.object.position = c.object.position + value.length := by
  have hread : (value ++ tail).length = c.object.getReadSize := by
    rw [← hunread, h.reached.unread_length]
  rw [List.length_append] at hread
  have hresize : (raw slack memory junk).resize value.length c =
      .ok () ⟨c.object, (value.length, c.object.getReadSize) :: c.resized⟩ := by
    simp only [raw, if_neg (Nat.not_lt.mpr hmemory)]
  have hbody := bind_of_ok (f := fun _ => (raw slack memory junk).read value.length) hresize
  by_cases hempty : value = []
  · subst hempty
    obtain ⟨c', hok, hposition, -⟩ := (raw_read_zero junk slack memory
      (c := ⟨c.object, ((0 : Nat), c.object.getReadSize) :: c.resized⟩) h).1 (hnode rfl)
    exact ⟨c', hbody.trans hok, hposition⟩
  · obtain ⟨c', hok, hadv⟩ := raw_read_border junk slack memory
      (c := ⟨c.object, (value.length, c.object.getReadSize) :: c.resized⟩) h
      (List.length_pos_of_ne_nil hempty) (by dsimp only; omega) hborder
    refine ⟨c', hbody.trans ?_, hadv.position⟩
    rw [hok, hunread, List.take_left' rfl]

/-- Into a string of just the right size, nothing else is read. -/
theorem readBody_not_ok (h : Inv c.object) (hunread : c.object.unread junk = value ++ tail)
    (hmemory : value.length ≤ memory)
    (hno : value ≠ [] ∧ (c.object.position + value.length) % c.object.baseSize ≠ 0 ∨
      value = [] ∧ c.object.position = c.object.capacity) :
    ∃ e c', (raw 0 memory junk).readBody value.length c = .error e c' := by
  have hread : (value ++ tail).length = c.object.getReadSize := by
    rw [← hunread, h.reached.unread_length]
  rw [List.length_append] at hread
  have hresize : (raw 0 memory junk).resize value.length c =
      .ok () ⟨c.object, (value.length, c.object.getReadSize) :: c.resized⟩ := by
    simp only [raw, if_neg (Nat.not_lt.mpr hmemory)]
  have hbody := bind_of_ok (f := fun _ => (raw 0 memory junk).read value.length) hresize
  rcases hno with ⟨hempty, hinside⟩ | ⟨rfl, hend⟩
  · have hfail := raw_read_overflows memory junk
      (c := ⟨c.object, (value.length, c.object.getReadSize) :: c.resized⟩) h
      (List.length_pos_of_ne_nil hempty) (by dsimp only; omega) hinside
    exact ⟨_, _, hbody.trans hfail⟩
  · have hfail := (raw_read_zero junk 0 memory
      (c := ⟨c.object, ((0 : Nat), c.object.getReadSize) :: c.resized⟩) h).2 hend
    exact ⟨_, _, hbody.trans hfail⟩

/-- The read of a length of fixed width. -/
theorem readLength_fixed (slack memory : Nat) {w k : Nat} (hw : w = 8 * k) (hk : 0 < k)
    (hlen : len < 2 ^ w) {α : Type} {wrap : BitVec w → α} {toNat : α → Nat}
    (hwrap : ∀ v, toNat (wrap v) = v.toNat) (h : Inv c.object)
    (hunread : c.object.unread junk = inOrder c.object.endian (leBytes k len) ++ rest)
    (hborder : (c.object.position + k) % c.object.baseSize = 0) :
    ∃ c', (((raw slack memory junk).readFixed w >>= fun v => pure (wrap v)) >>=
        fun a => pure (toNat a)) c = .ok len c' ∧
      Advanced junk (inOrder c.object.endian (leBytes k len)).length c c' := by
  have hdvd : 8 ∣ w := ⟨k, hw⟩
  have hdiv : w / 8 = k := by omega
  have hread : (inOrder c.object.endian (leBytes k len) ++ rest).length = c.object.getReadSize := by
    rw [← hunread, h.reached.unread_length]
  have hheader : (inOrder c.object.endian (leBytes k len)).length = k := by
    rw [inOrder_length, leBytes_length]
  rw [List.length_append, hheader] at hread
  obtain ⟨c', hok, hadv⟩ := raw_read_border junk slack memory h hk (by omega) hborder
  rw [hunread, List.take_left' hheader] at hok
  have hok' : (raw slack memory junk).read (w / 8) c =
      .ok (inOrder c.object.endian (leBytes k len)) c' := by
    rw [hdiv]
    exact hok
  have hvalue : (loadLe w (inOrder c'.object.endian
      (inOrder c.object.endian (leBytes k len)))).toNat = len := by
    have hpow : 2 ^ w = 256 ^ k := by rw [hw, Nat.pow_mul]
    rw [hadv.endian, inOrder_inOrder, loadLe_toNat hdvd (by rw [leBytes_length, hdiv]),
      ofLeBytes_leBytes, ← hpow, Nat.mod_eq_of_lt hlen]
  have hfixed := Raw.readFixed_of_read hdvd hok' (by rw [hheader, hdiv])
  refine ⟨c', ?_, by rw [hheader]; exact hadv⟩
  rw [map_of_ok toNat (map_of_ok wrap hfixed), hwrap]
  exact congrArg (fun n => EStateM.Result.ok n c') hvalue

theorem readFixed_overflows (memory : Nat) {w k : Nat} (hw : w = 8 * k) (hk : 0 < k)
    (h : Inv c.object) (hle : k ≤ c.object.getReadSize)
    (hinside : (c.object.position + k) % c.object.baseSize ≠ 0) :
    (raw 0 memory junk).readFixed w c = .error (.raw .outOfBounds) c := by
  have hdiv : w / 8 = k := by omega
  have hfail := raw_read_overflows memory junk h hk hle hinside
  rw [← hdiv] at hfail
  rw [Raw.readFixed]
  exact bind_of_error hfail

variable (junk) in
/-- Where the length stands unread, on borders, the read of it returns it. -/
theorem readLength_ok (slack memory : Nat) {kind : StringKind} (hrep : kind.Represents len)
    (h : Inv c.object) (hunread : c.object.unread junk = kind.header c.object.endian len ++ rest)
    (hborders : kind.HeaderOnBorders len c.object.position c.object.baseSize) :
    ∃ c', kind.readLength (raw slack memory junk) c = .ok len c' ∧
      Advanced junk (kind.header c.object.endian len).length c c' := by
  cases kind with
  | f16 =>
      exact readLength_fixed slack memory (k := 2) rfl (by decide) hrep (fun _ => rfl) h hunread
        hborders
  | f32 =>
      exact readLength_fixed slack memory (k := 4) rfl (by decide) hrep (fun _ => rfl) h hunread
        hborders
  | f64 =>
      exact readLength_fixed slack memory (k := 8) rfl (by decide) hrep (fun _ => rfl) h hunread
        hborders
  | vint =>
      have hlen : len % 2 ^ 64 = len := Nat.mod_eq_of_lt hrep
      have hgroups : (toGroups len).length ≤ 9 + 1 := by
        rw [toGroups_length_le_iff]
        have hlt : len < 2 ^ 64 := hrep
        omega
      have hnat : (UInt64.ofBitVec (BitVec.ofNat 64 len)).toNat = len :=
        (BitVec.toNat_ofNat len 64).trans hlen
      rw [StringKind.header, hlen] at hunread ⊢
      rcases hborders with hbase | ⟨hsmall, hborder⟩
      · -- in nodes of one byte every read ends on a border
        have hdel : (raw slack memory junk).Delivers (Streams junk c) :=
          raw_delivers memory junk c (by omega)
        have hstart : Streams junk c c (toGroups len ++ rest) := hunread ▸ .refl junk h.reached
        obtain ⟨c', hok, hc, hendian⟩ := hdel.readVarint_ok 64 hstart
          (ofGroups_toGroups len _ rest hgroups)
        have hposition := hc.position
        rw [hunread, List.length_append] at hposition
        refine ⟨c', ?_, hc.inv h, ?_, by omega, hc.baseSize, hc.capacity, hendian, hc.resized⟩
        · exact (map_of_ok _ (map_of_ok _ hok)).trans
            (congrArg (fun n => EStateM.Result.ok n c') hnat)
        · rw [hc.unread, hunread, List.drop_left' rfl]
      · have hbyte : (UInt8.ofNat len).toNat = len := ofNat_toNat_of_lt (by omega)
        rw [toGroups_of_lt hsmall] at hunread ⊢
        have hread : ([UInt8.ofNat len] ++ rest).length = c.object.getReadSize := by
          rw [← hunread, h.reached.unread_length]
        rw [List.length_append, List.length_singleton] at hread
        obtain ⟨c', hok, hadv⟩ := raw_read_border junk slack memory h Nat.one_pos
          (by omega) hborder
        rw [hunread] at hok
        have hvarint := Raw.readVarint_of_read (w := 64) (by decide) hok (by omega)
        rw [hbyte] at hvarint
        refine ⟨c', ?_, hadv⟩
        exact (map_of_ok _ (map_of_ok _ hvarint)).trans
          (congrArg (fun n => EStateM.Result.ok n c') hnat)

/-- Into a variable of just the right size, nothing else is read. -/
theorem readLength_not_ok (memory : Nat) {kind : StringKind} (hrep : kind.Represents len)
    (h : Inv c.object) (hunread : c.object.unread junk = kind.header c.object.endian len ++ rest)
    (hno : ¬ kind.HeaderOnBorders len c.object.position c.object.baseSize) :
    ∃ e c', kind.readLength (raw 0 memory junk) c = .error e c' := by
  have hread : (kind.header c.object.endian len ++ rest).length = c.object.getReadSize := by
    rw [← hunread, h.reached.unread_length]
  rw [List.length_append] at hread
  have hfixed : ∀ {w k : Nat}, w = 8 * k → 0 < k →
      (kind.header c.object.endian len).length = k →
      (c.object.position + k) % c.object.baseSize ≠ 0 →
      (raw 0 memory junk).readFixed w c = .error (.raw .outOfBounds) c := by
    intro w k hw hk hlen hinside
    exact readFixed_overflows memory hw hk h (by omega) hinside
  cases kind with
  | f16 =>
      have hfail := hfixed (w := 16) (k := 2) rfl (by decide)
        (by rw [StringKind.header, inOrder_length, leBytes_length]) hno
      exact ⟨_, _, bind_of_error (bind_of_error hfail)⟩
  | f32 =>
      have hfail := hfixed (w := 32) (k := 4) rfl (by decide)
        (by rw [StringKind.header, inOrder_length, leBytes_length]) hno
      exact ⟨_, _, bind_of_error (bind_of_error hfail)⟩
  | f64 =>
      have hfail := hfixed (w := 64) (k := 8) rfl (by decide)
        (by rw [StringKind.header, inOrder_length, leBytes_length]) hno
      exact ⟨_, _, bind_of_error (bind_of_error hfail)⟩
  | vint =>
      have hlen : len % 2 ^ 64 = len := Nat.mod_eq_of_lt hrep
      rw [StringKind.HeaderOnBorders] at hno
      push Not at hno
      obtain ⟨hbase, hno⟩ := hno
      rw [StringKind.header, hlen] at hunread hread
      by_cases hborder : (c.object.position + 1) % c.object.baseSize = 0
      · -- the first group ends on a border, and the second one in the next node
        have hlarge : 128 ≤ len := by
          by_contra hsmall
          exact hno (by omega) hborder
        have hbyte : (UInt8.ofNat (len % 128 + 128)).toNat = len % 128 + 128 :=
          ofNat_toNat_of_lt (by omega)
        have hpos := toGroups_length_pos (len / 128)
        rw [toGroups_of_le hlarge] at hunread hread
        rw [List.length_cons] at hread
        obtain ⟨c', hok, hadv⟩ := raw_read_border junk 0 memory h Nat.one_pos (by omega)
          hborder
        rw [hunread] at hok
        have hpos' := h.base_pos
        have hleft : 1 ≤ c'.object.getReadSize := by
          have hrest := congrArg List.length hadv.unread
          rw [hadv.inv.reached.unread_length, hunread, List.length_drop, List.length_append,
            List.length_cons] at hrest
          omega
        have hinside : (c'.object.position + 1) % c'.object.baseSize ≠ 0 := by
          rw [hadv.position, hadv.baseSize, Nat.add_mod, hborder, Nat.zero_add, Nat.mod_mod,
            Nat.mod_eq_of_lt (by omega)]
          decide
        have hfail := raw_read_overflows memory junk hadv.inv Nat.one_pos hleft hinside
        have hvarint := Raw.readVarint_of_failing (w := 64) (by decide) hok (by omega) hfail
        exact ⟨_, _, bind_of_error (bind_of_error hvarint)⟩
      · have hpos := toGroups_length_pos len
        have hfail := raw_read_overflows memory junk h Nat.one_pos (by omega) hborder
        have hvarint := Raw.readVarint_of_error (w := 64) (by decide) hfail
        exact ⟨_, _, bind_of_error (bind_of_error hvarint)⟩

end ByteArray

end Saturn
