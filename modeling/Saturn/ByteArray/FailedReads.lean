import Saturn.ByteArray.Cursor

/-!
# What a failed read leaves behind

A read of fixed width throws before it takes a byte. The readers of variable-length integers have
taken all that was left when they throw, and the string readers the length, and a buffer of that
length has been allocated by then.
-/

namespace Saturn

/-- The typed reads. -/
inductive TypedRead where
  | fint8
  | fuint8
  | fint16
  | fuint16
  | fint32
  | fuint32
  | fint64
  | fuint64
  | float
  | double
  | int32
  | uint32
  | int64
  | uint64
  | stringF16
  | stringF32
  | stringF64
  | stringVint
  deriving DecidableEq

/-- If the call throws, it leaves the object as it was, and no string is resized to more than there
is left to read. -/
structure Safe {α : Type} (x : EStateM Failure Caller α) (ba : ByteArray) : Prop where
  unchanged : ∀ e c', x ⟨ba, []⟩ = .error e c' → e.Throws → c'.object = ba
  bounded : ∀ c', (∃ a, x ⟨ba, []⟩ = .ok a c') ∨ (∃ e, x ⟨ba, []⟩ = .error e c') →
    ∀ p ∈ c'.resized, p.1 ≤ p.2

/-- The call is safe; what the last `memcpy` of a read copies beyond the bytes asked for is taken to
do no harm. -/
def TypedRead.FailsSafely (memory : Nat) (junk : Nat → UInt8) (ba : ByteArray) : TypedRead → Prop :=
  let r := ByteArray.raw ba.baseSize memory junk
  fun
  | .fint8 => Safe r.readFint8 ba
  | .fuint8 => Safe r.readFuint8 ba
  | .fint16 => Safe r.readFint16 ba
  | .fuint16 => Safe r.readFuint16 ba
  | .fint32 => Safe r.readFint32 ba
  | .fuint32 => Safe r.readFuint32 ba
  | .fint64 => Safe r.readFint64 ba
  | .fuint64 => Safe r.readFuint64 ba
  | .float => Safe r.readFloat ba
  | .double => Safe r.readDouble ba
  | .int32 => Safe r.readInt32 ba
  | .uint32 => Safe r.readUint32 ba
  | .int64 => Safe r.readInt64 ba
  | .uint64 => Safe r.readUint64 ba
  | .stringF16 => Safe r.readStringF16 ba
  | .stringF32 => Safe r.readStringF32 ba
  | .stringF64 => Safe r.readStringF64 ba
  | .stringVint => Safe r.readStringVint ba

/-- There is nothing to read, or the groups at the start of the bytes come to an end. -/
def GroupsEnd (turns : Nat) (u : List UInt8) : Prop := u = [] ∨ ofGroups turns u ≠ none

/-- A string of that length is there, and memory for it. -/
def BodyFits (memory len left : Nat) : Prop := len ≤ left ∧ len ≤ memory

/-- There are fewer than the `k` bytes of the length, or the string that they announce is there. -/
def StringFits (memory : Nat) (e : Endian) (k : Nat) (u : List UInt8) : Prop :=
  u.length < k ∨ BodyFits memory (ofLeBytes (inOrder e (u.take k))) (u.length - k)

/-- The bytes that are left do not break off inside a record. -/
def TypedRead.Whole (memory : Nat) (e : Endian) (u : List UInt8) : TypedRead → Prop
  | .int32 | .uint32 | .int64 => GroupsEnd 5 u
  | .uint64 => GroupsEnd 10 u
  | .stringF16 => StringFits memory e 2 u
  | .stringF32 => StringFits memory e 4 u
  | .stringF64 => StringFits memory e 8 u
  | .stringVint => u = [] ∨
      ∃ r, ofGroups 10 u = some r ∧ BodyFits memory (r.1 % 2 ^ 64) r.2.length
  | _ => True

section Safe

variable {α β : Type} {x : EStateM Failure Caller α} {ba : ByteArray} {a : α} {c' : Caller}

theorem safe_of_ok (h : x ⟨ba, []⟩ = .ok a c') :
    Safe x ba ↔ ∀ p ∈ c'.resized, p.1 ≤ p.2 := by
  constructor
  · intro hsafe
    exact hsafe.bounded c' (Or.inl ⟨a, h⟩)
  · intro hbounded
    refine ⟨fun e c'' heq => ?_, fun c'' hc'' => ?_⟩
    · rw [h] at heq
      cases heq
    · rcases hc'' with ⟨a', heq⟩ | ⟨e, heq⟩
      · rw [h] at heq
        cases heq
        exact hbounded
      · rw [h] at heq
        cases heq

theorem safe_of_error {e : Failure} (h : x ⟨ba, []⟩ = .error e c') :
    Safe x ba ↔ (e.Throws → c'.object = ba) ∧ ∀ p ∈ c'.resized, p.1 ≤ p.2 := by
  constructor
  · intro hsafe
    exact ⟨hsafe.unchanged e c' h, hsafe.bounded c' (Or.inr ⟨e, h⟩)⟩
  · rintro ⟨hunchanged, hbounded⟩
    refine ⟨fun e' c'' heq => ?_, fun c'' hc'' => ?_⟩
    · rw [h] at heq
      cases heq
      exact hunchanged
    · rcases hc'' with ⟨a', heq⟩ | ⟨e', heq⟩
      · rw [h] at heq
        cases heq
      · rw [h] at heq
        cases heq
        exact hbounded

/-- What is done to the value that a call returns makes no difference. -/
theorem safe_map (g : α → β) : Safe (x >>= fun a => pure (g a)) ba ↔ Safe x ba := by
  cases h : x ⟨ba, []⟩ with
  | ok a c' => rw [safe_of_ok (map_of_ok g h), safe_of_ok h]
  | error e c' => rw [safe_of_error (bind_of_error h), safe_of_error h]

end Safe

namespace ByteArray

variable {ba : ByteArray} {memory : Nat} {junk : Nat → UInt8}

/-- Fixed-width reads are safe. -/
theorem Reached.safe_readFixed (h : Reached ba) (memory : Nat) (junk : Nat → UInt8) {w : Nat}
    (hw : 8 ∣ w) (hpos : 0 < w / 8) : Safe ((raw ba.baseSize memory junk).readFixed w) ba := by
  have hdel := raw_delivers memory junk ⟨ba, []⟩ (Nat.le_succ ba.baseSize)
  have hstart : Streams junk ⟨ba, []⟩ ⟨ba, []⟩ (ba.unread junk) := .refl junk h
  by_cases hlen : w / 8 ≤ (ba.unread junk).length
  · obtain ⟨c', hread, hc, -⟩ := hdel.readFixed_ok hw hpos hstart hlen
    rw [safe_of_ok hread, hc.resized]
    exact fun p hp => absurd hp List.not_mem_nil
  · have hread := hdel.readFixed_short (w := w) hstart (by omega)
    rw [safe_of_error hread]
    exact ⟨fun _ => rfl, fun p hp => absurd hp List.not_mem_nil⟩

theorem Reached.safe_read (h : Reached ba) (memory : Nat) (junk : Nat → UInt8) {n : Nat}
    (hn : 0 < n) : Safe ((raw ba.baseSize memory junk).read n) ba := by
  have hdel := raw_delivers memory junk ⟨ba, []⟩ (Nat.le_succ ba.baseSize)
  have hstart : Streams junk ⟨ba, []⟩ ⟨ba, []⟩ (ba.unread junk) := .refl junk h
  by_cases hlen : n ≤ (ba.unread junk).length
  · obtain ⟨c', hread, hc, -⟩ := hdel.take hstart hn hlen
    rw [safe_of_ok hread, hc.resized]
    exact fun p hp => absurd hp List.not_mem_nil
  · rw [safe_of_error (hdel.short hstart (by omega))]
    exact ⟨fun _ => rfl, fun p hp => absurd hp List.not_mem_nil⟩

/-- A variable-length read is safe unless the bytes break off inside the number. -/
theorem Reached.safe_readVarint_iff (h : Reached ba) (memory : Nat) (junk : Nat → UInt8) {w : Nat}
    (hw : 0 < (w + 6) / 7) :
    Safe ((raw ba.baseSize memory junk).readVarint w) ba ↔
      GroupsEnd ((w + 6) / 7) (ba.unread junk) := by
  have hdel := raw_delivers memory junk ⟨ba, []⟩ (Nat.le_succ ba.baseSize)
  have hstart : Streams junk ⟨ba, []⟩ ⟨ba, []⟩ (ba.unread junk) := .refl junk h
  rw [GroupsEnd]
  cases hgroups : ofGroups ((w + 6) / 7) (ba.unread junk) with
  | some r =>
      obtain ⟨c', hread, hc, -⟩ := hdel.readVarint_ok w hstart hgroups
      rw [safe_of_ok hread, hc.resized]
      exact iff_of_true (fun p hp => absurd hp List.not_mem_nil) (Or.inr nofun)
  | none =>
      by_cases hempty : ba.unread junk = []
      · rw [safe_of_error (hdel.readVarint_nil hw (hempty ▸ hstart))]
        exact iff_of_true ⟨fun _ => rfl, fun p hp => absurd hp List.not_mem_nil⟩ (Or.inl hempty)
      · obtain ⟨c', hread, hc⟩ := hdel.readVarint_short w hstart hgroups
        have hleft := hc.unread
        rw [safe_of_error hread]
        refine iff_of_false (fun hsafe => ?_) (fun hor => hor.elim hempty fun hno => hno rfl)
        rw [hsafe.1 rfl] at hleft
        exact hempty hleft

theorem Reached.raw_read_zero_cases {c : Caller} (h : Reached c.object) (junk : Nat → UInt8)
    (slack memory : Nat) :
    (∃ c', (raw slack memory junk).read 0 c = .ok [] c' ∧ c'.resized = c.resized) ∨
      (raw slack memory junk).read 0 c = .error (.raw .nullDeref) c := by
  rcases h.inv_or with hinv | ⟨hcur, -, -⟩
  · obtain ⟨hinside, hend⟩ := raw_read_zero junk slack memory hinv
    by_cases hlt : c.object.position < c.object.capacity
    · obtain ⟨c', hread, -, hlog⟩ := hinside hlt
      exact Or.inl ⟨c', hread, hlog⟩
    · have hpos := hinv.position_le
      have hsize := hinv.size_le
      exact Or.inr (hend (by omega))
  · right
    simp only [raw, read, hcur]
    rw [if_neg (Nat.not_lt_zero _)]

/-- Behind its length, a string is safe to read exactly if it is there, with memory for it: the
length has been taken from the object by then. -/
theorem Reached.safe_string_iff {α : Type} {x : EStateM Failure Caller α} (len : α → Nat) {a : α}
    {c : Caller} {rest : List UInt8} (hx : x ⟨ba, []⟩ = .ok a c)
    (hc : Streams junk ⟨ba, []⟩ c rest)
    (hrest : rest.length < (ba.unread junk).length) :
    Safe (x >>= fun a => (raw ba.baseSize memory junk).readBody (len a)) ba ↔
      BodyFits memory (len a) rest.length := by
  have hreached := hc.reached
  have hunread := hc.unread
  have hmoved : c.object ≠ ba := by
    intro heq
    rw [heq] at hunread
    rw [hunread] at hrest
    exact Nat.lt_irrefl _ hrest
  have hleft : c.object.getReadSize = rest.length := by
    rw [← hunread, hreached.unread_length]
  have hcall : (x >>= fun a => (raw ba.baseSize memory junk).readBody (len a)) ⟨ba, []⟩ =
      (raw ba.baseSize memory junk).readBody (len a) c := bind_of_ok hx
  have hresize : (raw ba.baseSize memory junk).resize (len a) c =
      if memory < len a then .error .noMemory ⟨c.object, [(len a, rest.length)]⟩
      else .ok () ⟨c.object, [(len a, rest.length)]⟩ := by
    simp only [raw, hc.resized, hleft]
  rw [BodyFits]
  by_cases hmemory : memory < len a
  · rw [if_pos hmemory] at hresize
    rw [safe_of_error (hcall.trans (bind_of_error hresize))]
    exact iff_of_false (fun h => hmoved (h.1 trivial)) (by omega)
  rw [if_neg hmemory] at hresize
  have hbody := bind_of_ok (f := fun _ => (raw ba.baseSize memory junk).read (len a)) hresize
  have hdel := raw_delivers memory junk ⟨c.object, [(len a, rest.length)]⟩
    (Nat.le_succ_of_le (Nat.le_of_eq hc.baseSize))
  have hstart : Streams junk ⟨c.object, [(len a, rest.length)]⟩ ⟨c.object, [(len a, rest.length)]⟩
      rest := hunread ▸ .refl junk hreached
  by_cases hle : rest.length < len a
  · rw [safe_of_error (hcall.trans (hbody.trans (hdel.short hstart hle)))]
    exact iff_of_false (fun h => hmoved (h.1 rfl)) (by omega)
  have hlogged : ∀ p ∈ [(len a, rest.length)], p.1 ≤ p.2 := by
    intro p hp
    obtain rfl := List.mem_singleton.mp hp
    exact Nat.not_lt.mp hle
  by_cases hzero : len a = 0
  · have hnone : (raw ba.baseSize memory junk).read (len a) ⟨c.object, [(len a, rest.length)]⟩ =
        (raw ba.baseSize memory junk).read 0 ⟨c.object, [(len a, rest.length)]⟩ :=
      congrArg (fun n => (raw ba.baseSize memory junk).read n ⟨c.object, [(len a, rest.length)]⟩)
        hzero
    rcases hreached.raw_read_zero_cases (c := ⟨c.object, [(len a, rest.length)]⟩) junk
      ba.baseSize memory with ⟨c', hread, hlog'⟩ | hread
    · rw [safe_of_ok (hcall.trans (hbody.trans (hnone.trans hread))), hlog']
      exact iff_of_true hlogged (by omega)
    · rw [safe_of_error (hcall.trans (hbody.trans (hnone.trans hread)))]
      exact iff_of_true ⟨fun hthrows => (by cases hthrows), hlogged⟩ (by omega)
  · obtain ⟨c', hread, hc', -⟩ :=
      hdel.take hstart (Nat.pos_of_ne_zero hzero) (Nat.not_lt.mp hle)
    rw [safe_of_ok (hcall.trans (hbody.trans hread)), hc'.resized]
    exact iff_of_true hlogged (by omega)

/-- The string readers with a length of fixed width. -/
theorem Reached.safe_stringFixed_iff (h : Reached ba) (memory : Nat) (junk : Nat → UInt8) {w : Nat}
    (hw : 8 ∣ w) (hpos : 0 < w / 8) {α : Type} {wrap : BitVec w → α} (len : α → Nat)
    (hlen : ∀ v, len (wrap v) = v.toNat) :
    Safe (((raw ba.baseSize memory junk).readFixed w >>= fun v => pure (wrap v)) >>=
        fun a => (raw ba.baseSize memory junk).readBody (len a)) ba ↔
      StringFits memory ba.endian (w / 8) (ba.unread junk) := by
  have hdel := raw_delivers memory junk ⟨ba, []⟩ (Nat.le_succ ba.baseSize)
  have hstart : Streams junk ⟨ba, []⟩ ⟨ba, []⟩ (ba.unread junk) := .refl junk h
  rw [StringFits]
  by_cases hshort : (ba.unread junk).length < w / 8
  · have hread := hdel.readFixed_short (w := w) hstart hshort
    rw [safe_of_error (bind_of_error (bind_of_error hread))]
    exact iff_of_true ⟨fun _ => rfl, fun p hp => absurd hp List.not_mem_nil⟩ (Or.inl hshort)
  · have hle := Nat.not_lt.mp hshort
    have htake : (inOrder ba.endian ((ba.unread junk).take (w / 8))).length = w / 8 := by
      rw [inOrder_length, List.length_take, Nat.min_eq_left hle]
    obtain ⟨c, hread, hc, -⟩ := hdel.readFixed_ok hw hpos hstart hle
    rw [Reached.safe_string_iff len (map_of_ok wrap hread) hc
      (by rw [List.length_drop]; omega), hlen, List.length_drop]
    change BodyFits memory (loadLe w (inOrder ba.endian _)).toNat _ ↔ _
    rw [loadLe_toNat hw htake]
    exact ⟨Or.inr, fun hor => hor.resolve_left hshort⟩

theorem Reached.safe_stringVint_iff (h : Reached ba) (memory : Nat) (junk : Nat → UInt8) :
    Safe (raw ba.baseSize memory junk).readStringVint ba ↔
      TypedRead.Whole memory ba.endian (ba.unread junk) .stringVint := by
  have hdel := raw_delivers memory junk ⟨ba, []⟩ (Nat.le_succ ba.baseSize)
  have hstart : Streams junk ⟨ba, []⟩ ⟨ba, []⟩ (ba.unread junk) := .refl junk h
  rw [TypedRead.Whole, Raw.readStringVint, Raw.readUint64]
  cases hgroups : ofGroups ((64 + 6) / 7) (ba.unread junk) with
  | some r =>
      obtain ⟨c, hread, hc, -⟩ := hdel.readVarint_ok 64 hstart hgroups
      have hshorter : r.2.length < (ba.unread junk).length := ofGroups_shorter hgroups
      have hlength : (UInt64.ofBitVec (BitVec.ofNat 64 r.1)).toNat = r.1 % 2 ^ 64 :=
        BitVec.toNat_ofNat r.1 64
      rw [Reached.safe_string_iff UInt64.toNat (map_of_ok (fun v => UInt64.ofBitVec v) hread) hc
        hshorter, hlength]
      constructor
      · exact fun hfits => Or.inr ⟨r, rfl, hfits⟩
      · rintro (hempty | ⟨r', heq, hfits⟩)
        · rw [hempty] at hshorter
          exact absurd hshorter (Nat.not_lt_zero _)
        · cases heq
          exact hfits
  | none =>
      by_cases hempty : ba.unread junk = []
      · have hread := hdel.readVarint_nil (w := 64) (s := ⟨ba, []⟩) (by decide)
          (hempty ▸ hstart)
        rw [safe_of_error (bind_of_error (bind_of_error hread))]
        exact iff_of_true ⟨fun _ => rfl, fun p hp => absurd hp List.not_mem_nil⟩ (Or.inl hempty)
      · obtain ⟨c, hread, hc⟩ := hdel.readVarint_short 64 hstart hgroups
        have hleft := hc.unread
        rw [safe_of_error (bind_of_error (bind_of_error hread))]
        refine iff_of_false (fun hsafe => ?_) ?_
        · rw [hsafe.1 rfl] at hleft
          exact hempty hleft
        · rintro (hno | ⟨r, heq, -⟩)
          · exact hempty hno
          · cases heq

/-- A typed read is safe exactly if the bytes that are left do not break off inside its record. -/
theorem Reached.failsSafely_iff (h : Reached ba) (memory : Nat) (junk : Nat → UInt8)
    (op : TypedRead) :
    op.FailsSafely memory junk ba ↔ op.Whole memory ba.endian (ba.unread junk) := by
  have hfixed : ∀ {w : Nat}, 8 ∣ w → 0 < w / 8 → Safe ((raw ba.baseSize memory junk).readFixed w) ba :=
    h.safe_readFixed memory junk
  have hbyte := h.safe_read memory junk Nat.one_pos
  have hvarint : ∀ {w : Nat}, 0 < (w + 6) / 7 → (Safe ((raw ba.baseSize memory junk).readVarint w) ba ↔
      GroupsEnd ((w + 6) / 7) (ba.unread junk)) := h.safe_readVarint_iff memory junk
  cases op with
  | fint8 => exact iff_of_true ((safe_map _).mpr hbyte) trivial
  | fuint8 => exact iff_of_true ((safe_map _).mpr hbyte) trivial
  | fint16 => exact iff_of_true ((safe_map _).mpr (hfixed (by decide) (by decide))) trivial
  | fuint16 => exact iff_of_true ((safe_map _).mpr (hfixed (by decide) (by decide))) trivial
  | fint32 => exact iff_of_true ((safe_map _).mpr (hfixed (by decide) (by decide))) trivial
  | fuint32 => exact iff_of_true ((safe_map _).mpr (hfixed (by decide) (by decide))) trivial
  | fint64 => exact iff_of_true ((safe_map _).mpr (hfixed (by decide) (by decide))) trivial
  | fuint64 => exact iff_of_true ((safe_map _).mpr (hfixed (by decide) (by decide))) trivial
  | float => exact iff_of_true ((safe_map _).mpr (hfixed (by decide) (by decide))) trivial
  | double => exact iff_of_true ((safe_map _).mpr (hfixed (by decide) (by decide))) trivial
  | uint32 => exact (safe_map _).trans (hvarint (w := 32) (by decide))
  | uint64 => exact (safe_map _).trans (hvarint (w := 64) (by decide))
  | int32 => exact (safe_map _).trans ((safe_map _).trans (hvarint (w := 32) (by decide)))
  | int64 =>
      exact (safe_map _).trans ((safe_map _).trans (hvarint (w := 32) (by decide)))
  | stringF16 =>
      exact h.safe_stringFixed_iff memory junk (w := 16) (by decide) (by decide) UInt16.toNat
        fun _ => rfl
  | stringF32 =>
      exact h.safe_stringFixed_iff memory junk (w := 32) (by decide) (by decide) UInt32.toNat
        fun _ => rfl
  | stringF64 =>
      exact h.safe_stringFixed_iff memory junk (w := 64) (by decide) (by decide) UInt64.toNat
        fun _ => rfl
  | stringVint => exact h.safe_stringVint_iff memory junk

/-- In every state that calls reach, in either byte order and whatever bytes that were never written
to hold. -/
theorem failsSafely_iff_whole {b : Nat} (hb : 0 < b) {calls : List Call}
    (hrun : run callStep (new b) calls = some ba) (e : Endian) (memory : Nat)
    (junk : Nat → UInt8) (op : TypedRead) :
    op.FailsSafely memory junk { ba with endian := e } ↔ op.Whole memory e (ba.unread junk) :=
  ((reached_of_run hb hrun).setEndian e).failsSafely_iff memory junk op

/-- A string of two bytes behind its length, and one byte more. -/
theorem failsSafely_wholeString :
    ∃ ba, run callStep (new 4) [.write [0, 2, 7, 8, 9] 1, .setPosition 0] = some ba ∧
      TypedRead.FailsSafely 100 (fun _ => 0) { ba with endian := .big } .stringF16 := by
  refine ⟨_, rfl, ?_⟩
  rw [@failsSafely_iff_whole _ 4 (by decide) [.write [0, 2, 7, 8, 9] 1, .setPosition 0] rfl]
  have hfits : BodyFits 100 2 3 := ⟨by decide, by decide⟩
  exact Or.inr hfits

/-- A length of 2 ^ 32 - 1 with nothing behind it: a buffer of that length is allocated, and then the
position stays behind the length. -/
theorem not_failsSafely_hugeLength :
    ∃ ba, run callStep (new 4) [.write [255, 255, 255, 255] 0, .setPosition 0] = some ba ∧
      ¬ TypedRead.FailsSafely (2 ^ 40) (fun _ => 0) ba .stringF32 ∧
      ∃ c', (raw 4 (2 ^ 40) fun _ => 0).readStringF32 ⟨ba, []⟩ = .error (.raw .outOfRange) c' ∧
        c'.object.position = 4 ∧ c'.resized = [(4294967295, 0)] := by
  refine ⟨_, rfl, ?_, _, rfl, rfl, rfl⟩
  intro hsafe
  have hobject := hsafe.unchanged (.raw .outOfRange) _ rfl rfl
  exact absurd (congrArg position hobject) (by decide)

end ByteArray

end Saturn
