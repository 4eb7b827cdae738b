import Saturn.ByteArray.Delivers
import Saturn.ByteArray.Refine
import Saturn.ByteArray.Views

/-!
# The object as a byte stream

`ByteArray.unread` are the bytes behind the position. Where what `read` copies beyond the bytes asked
for does no harm, the object delivers them in order; a destination of just the right size takes them
where they end on the border of a node.
-/

namespace Saturn

namespace Cell

variable (junk : Nat → UInt8)

@[simp] theorem values_length (p : Nat) (cs : List Cell) : (values junk p cs).length = cs.length := by
  induction cs generalizing p with
  | nil => rfl
  | cons c cs ih => rw [values, List.length_cons, ih, List.length_cons]

theorem values_append (p : Nat) (cs ds : List Cell) :
    values junk p (cs ++ ds) = values junk p cs ++ values junk (p + cs.length) ds := by
  induction cs generalizing p with
  | nil => rfl
  | cons c cs ih =>
      have hnext : p + 1 + cs.length = p + (cs.length + 1) := by omega
      rw [List.cons_append, values, ih, values, List.cons_append, List.length_cons, hnext]

theorem values_take (p n : Nat) (cs : List Cell) :
    values junk p (cs.take n) = (values junk p cs).take n := by
  induction cs generalizing p n with
  | nil => rw [List.take_nil, values, List.take_nil]
  | cons c cs ih =>
      cases n with
      | zero => rfl
      | succ n => rw [List.take_succ_cons, values, values, List.take_succ_cons, ih]

theorem values_drop (p n : Nat) (cs : List Cell) :
    values junk (p + n) (cs.drop n) = (values junk p cs).drop n := by
  induction cs generalizing p n with
  | nil => rw [List.drop_nil, values, values, List.drop_nil]
  | cons c cs ih =>
      cases n with
      | zero => rfl
      | succ n =>
          have hnext : p + (n + 1) = p + 1 + n := by omega
          rw [List.drop_succ_cons, values, List.drop_succ_cons, hnext, ih]

theorem values_map_some (p : Nat) (bs : List UInt8) : values junk p (bs.map some) = bs := by
  induction bs generalizing p with
  | nil => rfl
  | cons b bs ih => rw [List.map_cons, values, ih, Option.getD_some]

end Cell

namespace ByteArray

/-- The values of the bytes behind the position. -/
def unread (junk : Nat → UInt8) (ba : ByteArray) : List UInt8 :=
  Cell.values junk ba.position (ba.contents.drop ba.position)

variable {ba : ByteArray} {junk : Nat → UInt8} {slack memory n : Nat} {c : Caller}

theorem Reached.unread_length (h : Reached ba) : (ba.unread junk).length = ba.getReadSize := by
  rw [unread, Cell.values_length, List.length_drop, h.contents_length, getReadSize]

theorem read_frame {bytes : List Cell} {ba' : ByteArray} (h : ba.read n = .ok (bytes, ba')) :
    ba'.baseSize = ba.baseSize ∧ ba'.capacity = ba.capacity ∧ ba'.size = ba.size ∧
      ba'.endian = ba.endian := by
  rw [read] at h
  split at h
  · cases h
  · split at h
    · cases h
    · obtain ⟨r, -, heq⟩ := except_bind_eq_ok.mp h
      cases heq
      exact ⟨rfl, rfl, rfl, rfl⟩

theorem le_stride {b : Nat} (npos : Nat) (hb : 0 < b) (hn : 0 < n) : n ≤ stride b npos n := by
  have hceil := ceil_mul_le b (npos + n) hb
  rw [stride, if_neg (by omega)]
  omega

theorem stride_le {b : Nat} (npos : Nat) (hb : 0 < b) (hn : 0 < n) : stride b npos n ≤ n + (b - 1) := by
  have hmul := Nat.div_mul_le_self (npos + n + b - 1) b
  rw [stride, if_neg (by omega)]
  omega

/-- What is left of the object behind a read of `n` bytes. -/
structure Advanced (junk : Nat → UInt8) (n : Nat) (c c' : Caller) : Prop where
  inv : Inv c'.object
  unread : c'.object.unread junk = (c.object.unread junk).drop n
  position : c'.object.position = c.object.position + n
  baseSize : c'.object.baseSize = c.object.baseSize
  capacity : c'.object.capacity = c.object.capacity
  endian : c'.object.endian = c.object.endian
  resized : c'.resized = c.resized

variable (junk) in
/-- A read that copies beyond the bytes asked for no more than there is room for. -/
theorem raw_read_ok (memory : Nat) (h : Inv c.object) (hn : 0 < n) (hle : n ≤ c.object.getReadSize)
    (hroom : stride c.object.baseSize (c.object.position % c.object.baseSize) n ≤ n + slack) :
    ∃ c', (raw slack memory junk).read n c = .ok ((c.object.unread junk).take n) c' ∧
      Advanced junk n c c' := by
  have hpos := h.position_le
  have hsize := h.size_le
  have hread := hle
  rw [getReadSize] at hread
  obtain ⟨ba', hok, hinv, hposition, hcontents⟩ := read_spec h hle (by omega)
  obtain ⟨hbase, hcapacity, -, hendian⟩ := read_frame hok
  have hmore := le_stride (c.object.position % c.object.baseSize) h.base_pos hn
  generalize hbytes : (c.object.cells.drop c.object.position).take
    (stride c.object.baseSize (c.object.position % c.object.baseSize) n) = bytes at hok
  have hlen : ¬ n + slack < bytes.length := by
    rw [← hbytes, List.length_take]
    omega
  have hvalues : Cell.values junk c.object.position (bytes.take n) =
      (c.object.unread junk).take n := by
    rw [← hbytes, List.take_take, Nat.min_eq_left hmore, ← contents_slice (by omega),
      Cell.values_take, unread]
  refine ⟨{ c with object := ba' }, ?_, hinv, ?_, hposition, hbase, hcapacity, hendian, rfl⟩
  · simp only [raw, hok, if_neg hlen, hvalues]
  · dsimp only
    rw [unread, unread, hcontents, hposition, ← Cell.values_drop, List.drop_drop]

theorem raw_read_throws (memory : Nat) (hlt : c.object.getReadSize < n) :
    (raw slack memory junk).read n c = .error (.raw .outOfRange) c := by
  simp only [raw, read_throws hlt]

/-- `c` is where `c₀` gets to when the unread bytes are `u` again. -/
structure Streams (junk : Nat → UInt8) (c₀ c : Caller) (u : List UInt8) : Prop where
  reached : Reached c.object
  inv : Inv c₀.object → Inv c.object
  unread : c.object.unread junk = u
  position : c.object.position + u.length =
    c₀.object.position + (c₀.object.unread junk).length
  baseSize : c.object.baseSize = c₀.object.baseSize
  capacity : c.object.capacity = c₀.object.capacity
  resized : c.resized = c₀.resized

theorem Streams.refl (junk : Nat → UInt8) (h : Reached c.object) :
    Streams junk c c (c.object.unread junk) := ⟨h, id, rfl, rfl, rfl, rfl, rfl⟩

/-- Where what lies behind the destination may be overwritten, the object delivers its unread
bytes. -/
theorem raw_delivers (memory : Nat) (junk : Nat → UInt8) (c₀ : Caller)
    (hslack : c₀.object.baseSize ≤ slack + 1) :
    (raw slack memory junk).Delivers (Streams junk c₀) where
  short := by
    intro c u n hc hlt
    rw [← hc.unread, hc.reached.unread_length] at hlt
    exact raw_read_throws memory hlt
  take := by
    intro c u n hc hn hle
    have hlen : u.length = c.object.getReadSize := by
      rw [← hc.unread, hc.reached.unread_length]
    have hread := hle
    rw [hlen, getReadSize] at hread
    have hinv := hc.reached.inv_of_lt (by omega)
    have hstride := stride_le (c.object.position % c.object.baseSize) hinv.base_pos hn
    have hbase := hc.baseSize
    obtain ⟨c', hok, hadv⟩ := raw_read_ok junk memory hinv hn (by omega)
      (by omega : stride _ _ n ≤ n + slack)
    have hposition := hc.position
    rw [hc.unread] at hok
    refine ⟨c', hok, ⟨hadv.inv.reached, fun _ => hadv.inv, ?_, ?_, hadv.baseSize.trans hbase,
      hadv.capacity.trans hc.capacity, hadv.resized.trans hc.resized⟩, hadv.endian⟩
    · rw [hadv.unread, hc.unread]
    · rw [hadv.position, List.length_drop]
      omega

variable (junk) in
/-- A destination of just the right size takes the bytes that end on a border. -/
theorem raw_read_border (slack memory : Nat) (h : Inv c.object) (hn : 0 < n)
    (hle : n ≤ c.object.getReadSize) (hborder : (c.object.position + n) % c.object.baseSize = 0) :
    ∃ c', (raw slack memory junk).read n c = .ok ((c.object.unread junk).take n) c' ∧
      Advanced junk n c c' := by
  apply raw_read_ok junk memory h hn hle
  rw [(stride_eq_iff h.base_pos).mpr (Or.inr hborder)]
  exact Nat.le_add_right n slack

/-- And it overflows where they do not. -/
theorem raw_read_overflows (memory : Nat) (junk : Nat → UInt8) (h : Inv c.object) (hn : 0 < n)
    (hle : n ≤ c.object.getReadSize) (hinside : (c.object.position + n) % c.object.baseSize ≠ 0) :
    (raw 0 memory junk).read n c = .error (.raw .outOfBounds) c := by
  have hpos := h.position_le
  have hsize := h.size_le
  have hread := hle
  rw [getReadSize] at hread
  obtain ⟨ba', hok, -⟩ := read_spec h hle (by omega)
  have hmore := le_stride (c.object.position % c.object.baseSize) h.base_pos hn
  have hne : stride c.object.baseSize (c.object.position % c.object.baseSize) n ≠ n := fun heq =>
    ((stride_eq_iff h.base_pos).mp heq).elim (by omega) hinside
  have hend : c.object.position + n ≠ c.object.capacity := by
    intro heq
    rw [heq, h.capacity_eq, Nat.mul_mod_left] at hinside
    exact hinside rfl
  have hlen : n + 0 < ((c.object.cells.drop c.object.position).take
      (stride c.object.baseSize (c.object.position % c.object.baseSize) n)).length := by
    rw [List.length_take, List.length_drop, h.cells_length]
    omega
  simp only [raw, hok, if_pos hlen]

variable (junk) in
/-- A read of no bytes needs a node to look at. -/
theorem raw_read_zero (slack memory : Nat) (h : Inv c.object) :
    (c.object.position < c.object.capacity →
      ∃ c', (raw slack memory junk).read 0 c = .ok [] c' ∧
        c'.object.position = c.object.position ∧ c'.resized = c.resized) ∧
    (c.object.position = c.object.capacity →
      (raw slack memory junk).read 0 c = .error (.raw .nullDeref) c) := by
  constructor
  · intro hlt
    obtain ⟨ba', hok, -, hposition, -⟩ := read_spec h (Nat.zero_le _) hlt
    rw [stride, if_pos rfl, List.take_zero] at hok
    refine ⟨{ c with object := ba' }, ?_, hposition, rfl⟩
    simp only [raw, hok, List.take_nil, Cell.values, List.length_nil]
    rw [if_neg (by omega)]
  · intro hend
    simp only [raw, read_at_capacity h (Nat.zero_le _) hend]

/-- The byte order may be switched in any state. -/
theorem Reached.setEndian (h : Reached ba) (e : Endian) : Reached { ba with endian := e } := by
  have hinv := h.repaired
  exact ⟨⟨hinv.base_pos, hinv.uniform, hinv.nodes_pos, hinv.capacity_eq, hinv.position_le,
    hinv.size_le, rfl⟩, h.cur_eq⟩

end ByteArray

end Saturn
