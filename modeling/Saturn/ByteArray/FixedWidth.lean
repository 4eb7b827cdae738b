import Saturn.ByteArray.Delivers

/-!
# Fixed-width records

A sequence of fixed-width writes with the byte order switched between them: what each emits is the
number in the order selected at that moment, and the same sequence of reads takes it apart again.
-/

namespace Saturn

/-- A value of one of the fixed-width types; `float` and `double` are their bit patterns. -/
inductive Field where
  | int8 (v : Int8)
  | uint8 (v : UInt8)
  | int16 (v : Int16)
  | uint16 (v : UInt16)
  | int32 (v : Int32)
  | uint32 (v : UInt32)
  | int64 (v : Int64)
  | uint64 (v : UInt64)
  | float (bits : UInt32)
  | double (bits : UInt64)
  deriving DecidableEq

/-- A step of a sequence: a call of `setIsLittleEndian`, or a value. -/
inductive Item where
  | order (isLittle : Bool)
  | field (f : Field)
  deriving DecidableEq

namespace Field

/-- `sizeof` the type. -/
def width : Field → Nat
  | .int8 _ | .uint8 _ => 1
  | .int16 _ | .uint16 _ => 2
  | .int32 _ | .uint32 _ | .float _ => 4
  | .int64 _ | .uint64 _ | .double _ => 8

/-- The number that is meant. -/
def value : Field → Int
  | .int8 v => v.toInt
  | .uint8 v => v.toNat
  | .int16 v => v.toInt
  | .uint16 v => v.toNat
  | .int32 v => v.toInt
  | .uint32 v => v.toNat
  | .int64 v => v.toInt
  | .uint64 v => v.toNat
  | .float bits => bits.toNat
  | .double bits => bits.toNat

/-- The two's-complement representation of the value in the byte order `e`. -/
def representation (e : Endian) (f : Field) : List UInt8 :=
  inOrder e (leBytes f.width (f.value % 256 ^ f.width).toNat)

section Members

variable {σ : Type} (r : Raw σ)

/-- The member that writes it. -/
def write : Field → EStateM Failure σ Unit
  | .int8 v => r.writeFint8 v
  | .uint8 v => r.writeFuint8 v
  | .int16 v => r.writeFint16 v
  | .uint16 v => r.writeFuint16 v
  | .int32 v => r.writeFint32 v
  | .uint32 v => r.writeFuint32 v
  | .int64 v => r.writeFint64 v
  | .uint64 v => r.writeFuint64 v
  | .float bits => r.writeFloat bits
  | .double bits => r.writeDouble bits

/-- The reader of the type of the value. -/
def read : Field → EStateM Failure σ Field
  | .int8 _ => do pure (.int8 (← r.readFint8))
  | .uint8 _ => do pure (.uint8 (← r.readFuint8))
  | .int16 _ => do pure (.int16 (← r.readFint16))
  | .uint16 _ => do pure (.uint16 (← r.readFuint16))
  | .int32 _ => do pure (.int32 (← r.readFint32))
  | .uint32 _ => do pure (.uint32 (← r.readFuint32))
  | .int64 _ => do pure (.int64 (← r.readFint64))
  | .uint64 _ => do pure (.uint64 (← r.readFuint64))
  | .float _ => do pure (.float (← r.readFloat))
  | .double _ => do pure (.double (← r.readDouble))

end Members

end Field

section Sequences

variable {σ : Type} (r : Raw σ)

/-- The calls that write the items. -/
def writeItems : List Item → EStateM Failure σ Unit
  | [] => pure ()
  | .order isLittle :: items => do
      r.setIsLittleEndian isLittle
      writeItems items
  | .field f :: items => do
      f.write r
      writeItems items

/-- The calls that read them, of the same types and with the same switches, and what they return. -/
def readItems : List Item → EStateM Failure σ (List Field)
  | [] => pure []
  | .order isLittle :: items => do
      r.setIsLittleEndian isLittle
      readItems items
  | .field f :: items => do
      let f' ← f.read r
      let fs ← readItems items
      pure (f' :: fs)

end Sequences

/-- The numbers among the items. -/
def Item.fields : List Item → List Field
  | [] => []
  | .order _ :: items => fields items
  | .field f :: items => f :: fields items

/-- The order that `setIsLittleEndian` sets. -/
def Endian.ofLittle (isLittle : Bool) : Endian := if isLittle then .little else .big

/-- The order that is selected behind the items. -/
def Item.lastOrder : Endian → List Item → Endian
  | e, [] => e
  | _, .order isLittle :: items => lastOrder (.ofLittle isLittle) items
  | e, .field _ :: items => lastOrder e items

/-- The values one behind the other, each in the order selected at that moment. -/
def Item.emitted : Endian → List Item → List UInt8
  | _, [] => []
  | _, .order isLittle :: items => emitted (.ofLittle isLittle) items
  | e, .field f :: items => f.representation e ++ emitted e items

/-- A machine integer is stored as the two's complement of the number it stands for. -/
theorem storeLe_eq_leBytes {w k : Nat} (hw : w = 8 * k) (v : BitVec w) {x : Int}
    (hx : x = v.toInt ∨ x = v.toNat) : storeLe v = leBytes k (x % 256 ^ k).toNat := by
  subst hw
  have hv := v.isLt
  have hpow : (256 ^ k : Int) = ((2 ^ (8 * k) : Nat) : Int) := by
    have hnat : 2 ^ (8 * k) = 256 ^ k := Nat.pow_mul 2 8 k
    rw [hnat, Int.natCast_pow]
    rfl
  have hnat : (x % 256 ^ k).toNat = v.toNat := by
    rw [hpow]
    rcases hx with rfl | rfl
    · rw [BitVec.toInt_eq_toNat_bmod, Int.bmod_emod, ← Int.natCast_emod, Int.toNat_natCast,
        Nat.mod_eq_of_lt hv]
    · rw [← Int.natCast_emod, Int.toNat_natCast, Nat.mod_eq_of_lt hv]
  rw [storeLe, hnat, Nat.mul_div_cancel_left _ (by decide)]

theorem leBytes_one (n : Nat) (e : Endian) : inOrder e (leBytes 1 n) = leBytes 1 n := by
  cases e <;> rfl

namespace Field

variable {σ : Type}

/-- Every writer writes the representation of its value in the order selected. -/
theorem write_eq (r : Raw σ) (f : Field) (s : σ) :
    f.write r s = r.write (f.representation (r.endian s)) s := by
  cases f with
  | int8 v =>
      rw [write, Raw.writeFint8, representation, width, leBytes_one,
        storeLe_eq_leBytes (k := 1) rfl v.toBitVec (Or.inl rfl)]
      rfl
  | uint8 v =>
      rw [write, Raw.writeFuint8, representation, width, leBytes_one,
        storeLe_eq_leBytes (k := 1) rfl v.toBitVec (Or.inr rfl)]
      rfl
  | int16 v =>
      rw [write, Raw.writeFint16, Raw.writeFixed_eq (by decide),
        storeLe_eq_leBytes (k := 2) rfl v.toBitVec (Or.inl rfl)]
      rfl
  | uint16 v =>
      rw [write, Raw.writeFuint16, Raw.writeFixed_eq (by decide),
        storeLe_eq_leBytes (k := 2) rfl v.toBitVec (Or.inr rfl)]
      rfl
  | int32 v =>
      rw [write, Raw.writeFint32, Raw.writeFixed_eq (by decide),
        storeLe_eq_leBytes (k := 4) rfl v.toBitVec (Or.inl rfl)]
      rfl
  | uint32 v =>
      rw [write, Raw.writeFuint32, Raw.writeFixed_eq (by decide),
        storeLe_eq_leBytes (k := 4) rfl v.toBitVec (Or.inr rfl)]
      rfl
  | int64 v =>
      rw [write, Raw.writeFint64, Raw.writeFixed_eq (by decide),
        storeLe_eq_leBytes (k := 8) rfl v.toBitVec (Or.inl rfl)]
      rfl
  | uint64 v =>
      rw [write, Raw.writeFuint64, Raw.writeFixed_eq (by decide),
        storeLe_eq_leBytes (k := 8) rfl v.toBitVec (Or.inr rfl)]
      rfl
  | float bits =>
      rw [write, Raw.writeFloat, Raw.writeFuint32, Raw.writeFixed_eq (by decide),
        storeLe_eq_leBytes (k := 4) rfl bits.toBitVec (Or.inr rfl)]
      rfl
  | double bits =>
      rw [write, Raw.writeDouble, Raw.writeFuint64, Raw.writeFixed_eq (by decide),
        storeLe_eq_leBytes (k := 8) rfl bits.toBitVec (Or.inr rfl)]
      rfl

variable {r : Raw σ} {I : σ → List UInt8 → Prop} {s : σ} {rest : List UInt8}

/-- `readFixed` takes back the representation of a number of its width. -/
theorem readFixed_of_representation (h : r.Delivers I) {w k : Nat} (hw : w = 8 * k) (hk : 0 < k)
    (v : BitVec w) {x : Int} (hx : x = v.toInt ∨ x = v.toNat)
    (hs : I s (inOrder (r.endian s) (leBytes k (x % 256 ^ k).toNat) ++ rest)) :
    ∃ t, r.readFixed w s = .ok v t ∧ I t rest ∧ r.endian t = r.endian s := by
  have hdvd : 8 ∣ w := ⟨k, hw⟩
  rw [← storeLe_eq_leBytes hw v hx] at hs
  have hlen : (inOrder (r.endian s) (storeLe v)).length = w / 8 := by
    rw [inOrder_length, storeLe_length]
  obtain ⟨t, hread, ht, hendian⟩ := h.readFixed_ok hdvd (by omega) hs
    (by rw [List.length_append, hlen]; exact Nat.le_add_right _ _)
  rw [List.take_left' hlen, inOrder_inOrder, loadLe_storeLe hdvd] at hread
  rw [List.drop_left' hlen] at ht
  exact ⟨t, hread, ht, hendian⟩

/-- A byte has the same representation in both orders. -/
theorem readByte_of_representation (h : r.Delivers I) (v : BitVec 8) {x : Int}
    (hx : x = v.toInt ∨ x = v.toNat)
    (hs : I s (inOrder (r.endian s) (leBytes 1 (x % 256 ^ 1).toNat) ++ rest)) :
    ∃ t, r.read 1 s = .ok (storeLe v) t ∧ I t rest ∧ r.endian t = r.endian s := by
  rw [leBytes_one, ← storeLe_eq_leBytes (k := 1) rfl v hx] at hs
  have hlen : (storeLe v).length = 1 := storeLe_length v
  obtain ⟨t, hread, ht, hendian⟩ := h.take (n := 1) hs (by decide)
    (by rw [List.length_append, hlen]; exact Nat.le_add_right _ _)
  rw [List.take_left' hlen] at hread
  rw [List.drop_left' hlen] at ht
  exact ⟨t, hread, ht, hendian⟩

/-- Every reader takes back the representation of a value of its type. -/
theorem read_of_representation (h : r.Delivers I) (f : Field)
    (hs : I s (f.representation (r.endian s) ++ rest)) :
    ∃ t, f.read r s = .ok f t ∧ I t rest ∧ r.endian t = r.endian s := by
  cases f with
  | int8 v =>
      obtain ⟨t, hread, ht⟩ := readByte_of_representation h v.toBitVec (Or.inl rfl) hs
      refine ⟨t, ?_, ht⟩
      rw [read, Raw.readFint8, bind_of_ok (map_of_ok _ hread), loadLe_storeLe (by decide)]
      rfl
  | uint8 v =>
      obtain ⟨t, hread, ht⟩ := readByte_of_representation h v.toBitVec (Or.inr rfl) hs
      refine ⟨t, ?_, ht⟩
      rw [read, Raw.readFuint8, bind_of_ok (map_of_ok _ hread), loadLe_storeLe (by decide)]
      rfl
  | int16 v =>
      obtain ⟨t, hread, ht⟩ := readFixed_of_representation h (k := 2) rfl (by decide) v.toBitVec
        (Or.inl rfl) hs
      exact ⟨t, map_of_ok _ (map_of_ok _ hread), ht⟩
  | uint16 v =>
      obtain ⟨t, hread, ht⟩ := readFixed_of_representation h (k := 2) rfl (by decide) v.toBitVec
        (Or.inr rfl) hs
      exact ⟨t, map_of_ok _ (map_of_ok _ hread), ht⟩
  | int32 v =>
      obtain ⟨t, hread, ht⟩ := readFixed_of_representation h (k := 4) rfl (by decide) v.toBitVec
        (Or.inl rfl) hs
      exact ⟨t, map_of_ok _ (map_of_ok _ hread), ht⟩
  | uint32 v =>
      obtain ⟨t, hread, ht⟩ := readFixed_of_representation h (k := 4) rfl (by decide) v.toBitVec
        (Or.inr rfl) hs
      exact ⟨t, map_of_ok _ (map_of_ok _ hread), ht⟩
  | int64 v =>
      obtain ⟨t, hread, ht⟩ := readFixed_of_representation h (k := 8) rfl (by decide) v.toBitVec
        (Or.inl rfl) hs
      exact ⟨t, map_of_ok _ (map_of_ok _ hread), ht⟩
  | uint64 v =>
      obtain ⟨t, hread, ht⟩ := readFixed_of_representation h (k := 8) rfl (by decide) v.toBitVec
        (Or.inr rfl) hs
      exact ⟨t, map_of_ok _ (map_of_ok _ hread), ht⟩
  | float bits =>
      obtain ⟨t, hread, ht⟩ := readFixed_of_representation h (k := 4) rfl (by decide) bits.toBitVec
        (Or.inr rfl) hs
      exact ⟨t, map_of_ok _ (map_of_ok _ hread), ht⟩
  | double bits =>
      obtain ⟨t, hread, ht⟩ := readFixed_of_representation h (k := 8) rfl (by decide) bits.toBitVec
        (Or.inr rfl) hs
      exact ⟨t, map_of_ok _ (map_of_ok _ hread), ht⟩

end Field

theorem writeItems_stream : ∀ (items : List Item) (s : ByteStream),
    writeItems ByteStream.raw items s = .ok ()
      { s with written := s.written ++ Item.emitted s.endian items,
               endian := Item.lastOrder s.endian items } := by
  intro items
  induction items with
  | nil =>
      intro s
      simp only [writeItems, Item.emitted, Item.lastOrder, List.append_nil]
      rfl
  | cons item items ih =>
      intro s
      cases item with
      | order isLittle => exact ih { s with endian := .ofLittle isLittle }
      | field f =>
          have hwrite : f.write ByteStream.raw s = .ok ()
              { s with written := s.written ++ f.representation s.endian } := f.write_eq _ s
          rw [writeItems, bind_of_ok hwrite, ih]
          simp only [Item.emitted, Item.lastOrder, List.append_assoc]

theorem readItems_stream : ∀ (items : List Item) (rest : List UInt8) (s : ByteStream),
    s.unread = Item.emitted s.endian items ++ rest →
    readItems ByteStream.raw items s = .ok (Item.fields items)
      { s with unread := rest, endian := Item.lastOrder s.endian items } := by
  intro items
  induction items with
  | nil =>
      intro rest s hs
      obtain ⟨written, unread, e⟩ := s
      cases hs
      rfl
  | cons item items ih =>
      intro rest s hs
      cases item with
      | order isLittle => exact ih rest { s with endian := .ofLittle isLittle } hs
      | field f =>
          rw [Item.emitted, List.append_assoc] at hs
          have hstream : s = { s with
              unread := f.representation s.endian ++ (Item.emitted s.endian items ++ rest) } := by
            rw [← hs]
          obtain ⟨t, hread, rfl, -⟩ := f.read_of_representation (ByteStream.raw_delivers s) hstream
          rw [readItems, bind_of_ok hread, bind_of_ok (ih rest _ rfl)]
          rfl

/-- Any sequence of fixed-width values and switches of the order emits each value in the order
selected at that moment, and the same sequence of reads and switches takes back those values and
those bytes. -/
theorem items_round_trip (items : List Item) (e : Endian) (written rest : List UInt8) :
    writeItems ByteStream.raw items ⟨written, [], e⟩ =
        .ok () ⟨written ++ Item.emitted e items, [], Item.lastOrder e items⟩ ∧
      readItems ByteStream.raw items ⟨[], Item.emitted e items ++ rest, e⟩ =
        .ok (Item.fields items) ⟨[], rest, Item.lastOrder e items⟩ :=
  ⟨writeItems_stream items ⟨written, [], e⟩, readItems_stream items rest ⟨[], _, e⟩ rfl⟩

end Saturn
