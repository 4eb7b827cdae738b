import Saturn.ByteArray.Scatter
import Saturn.ByteArray.Strings

/-!
# Writing a string and reading it back

`roundTrips_iff_onBorders` says when a string written in a state that calls reach is read back from
the place it was written to. A length that does not fit is written all the same, and a record that
does not end on the border of a node, or an empty one at the end of the last node, is read wrongly.
-/

namespace Saturn

namespace ByteArray

variable {ba ba' : ByteArray} {buf : List UInt8} {slack memory : Nat} {junk : Nat → UInt8}

theorem addCapacity_endian (ba : ByteArray) (n : Nat) : (ba.addCapacity n).endian = ba.endian := by
  rw [addCapacity]
  split
  · rfl
  · dsimp only
    split
    · rfl
    · rfl

theorem write_endian (h : ba.write buf = .ok ba') : ba'.endian = ba.endian := by
  rw [write] at h
  split at h
  · cases h
    rfl
  · rw [writeBytes] at h
    split at h
    · cases h
    · obtain ⟨r, -, heq⟩ := except_bind_eq_ok.mp h
      cases heq
      exact addCapacity_endian ba buf.length

theorem setPosition_endian {v : Nat} (h : ba.setPosition v = .ok ba') : ba'.endian = ba.endian := by
  rw [setPosition] at h
  split at h
  · cases h
  · obtain ⟨hops, -, heq⟩ := except_bind_eq_ok.mp h
    cases heq
    rfl

/-- Room up to a border ends at that border. -/
theorem Inv.addCapacity_to_border (h : Inv ba) {n : Nat}
    (hborder : (ba.position + n) % ba.baseSize = 0) :
    (ba.addCapacity n).capacity = max ba.capacity (ba.position + n) := by
  have hb := h.base_pos
  have hpos := Nat.le_trans h.position_le h.size_le
  rw [addCapacity_capacity, getCapacity]
  split
  · omega
  · obtain ⟨k, hk⟩ := Nat.dvd_of_mod_eq_zero hborder
    have hsub : n - (ba.capacity - ba.position) = (k - ba.nodes.length) * ba.baseSize := by
      have hcap := h.capacity_eq
      rw [Nat.sub_mul, Nat.mul_comm k]
      omega
    have hceil : ((k - ba.nodes.length) * ba.baseSize + ba.baseSize - 1) / ba.baseSize =
        k - ba.nodes.length := by
      rw [Nat.add_sub_assoc hb, Nat.mul_comm, Nat.mul_add_div hb, Nat.div_eq_of_lt (by omega),
        Nat.add_zero]
    rw [hsub, hceil, ← hsub]
    omega

/-- The object after a write that does not fail. -/
theorem raw_write_ok (slack memory : Nat) (junk : Nat → UInt8) {c : Caller} (h : Inv c.object)
    (buf : List UInt8) :
    ∃ ba', c.object.write buf = .ok ba' ∧ Inv ba' ∧ ba'.baseSize = c.object.baseSize ∧
      ba'.endian = c.object.endian ∧ ba'.position = c.object.position + buf.length ∧
      ba'.contents = overlay c.object.contents c.object.position (buf.map some) ∧
      (raw slack memory junk).write buf c = .ok () { c with object := ba' } := by
  obtain ⟨ba', hok, hinv, hbase, hposition, hcontents⟩ := write_spec h buf
  refine ⟨ba', hok, hinv, hbase, write_endian hok, hposition, hcontents, ?_⟩
  simp only [raw, hok]

/-- A null `m_cur` in front of the end of the nodes is dereferenced by the next write. -/
theorem raw_write_null (slack memory : Nat) (junk : Nat → UInt8) {c : Caller}
    (hcur : c.object.cur = none) (hlt : c.object.position < c.object.capacity)
    (hbuf : 0 < buf.length) :
    (raw slack memory junk).write buf c = .error (.raw .nullDeref) c := by
  have hwrite : c.object.write buf = .error .nullDeref := by
    rw [write, if_neg (by omega), writeBytes, addCapacity_cur_none hcur hlt]
  simp only [raw, hwrite]

/-- The object with a string written to it and its position back at the start of the record. -/
structure Recorded (kind : StringKind) (ba : ByteArray) (value : List UInt8) (junk : Nat → UInt8)
    (ba₂ : ByteArray) : Prop where
  inv : Inv ba₂
  position : ba₂.position = ba.position
  baseSize : ba₂.baseSize = ba.baseSize
  endian : ba₂.endian = ba.endian
  unread : ∃ tail, ba₂.unread junk = kind.header ba.endian value.length ++ (value ++ tail)
  capacity : value = [] → (ba.position + (kind.header ba.endian 0).length) % ba.baseSize = 0 →
    ba₂.capacity = max ba.capacity (ba.position + (kind.header ba.endian 0).length)

/-- A state that satisfies the invariant records every string, whatever its length. -/
theorem write_recorded (slack memory : Nat) (junk : Nat → UInt8) (h : Inv ba) (kind : StringKind)
    (value : List UInt8) :
    ∃ c ba₂, kind.write (raw slack memory junk) value ⟨ba, []⟩ = .ok () c ∧
      c.object.position = ba.position + (kind.header ba.endian value.length).length + value.length ∧
      c.object.setPosition ba.position = .ok ba₂ ∧ Recorded kind ba value junk ba₂ := by
  obtain ⟨ba₀, hok₀, hinv₀, hbase₀, hendian₀, hposition₀, hcontents₀, hraw₀⟩ :=
    raw_write_ok slack memory junk (c := ⟨ba, []⟩) h (kind.header ba.endian value.length)
  obtain ⟨ba₁, hok₁, hinv₁, hbase₁, hendian₁, hposition₁, hcontents₁, hraw₁⟩ :=
    raw_write_ok slack memory junk (c := ⟨ba₀, []⟩) hinv₀ value
  dsimp only at hok₀ hbase₀ hendian₀ hposition₀ hcontents₀ hraw₀
  dsimp only at hok₁ hbase₁ hendian₁ hposition₁ hcontents₁ hraw₁
  generalize hheader : kind.header ba.endian value.length = header at *
  have hpos := h.position_le
  have hpos₁ := hinv₁.position_le
  have hsize₁ := hinv₁.size_le
  have hwrite : kind.write (raw slack memory junk) value ⟨ba, []⟩ = .ok () ⟨ba₁, []⟩ := by
    rw [StringKind.write_eq]
    change ((raw slack memory junk).write (kind.header ba.endian value.length) >>=
      fun _ => (raw slack memory junk).write value) ⟨ba, []⟩ = .ok () ⟨ba₁, []⟩
    rw [hheader]
    exact (bind_of_ok hraw₀).trans hraw₁
  obtain ⟨ba₂, hset, hinv₂, hposition₂, hcontents₂⟩ :=
    setPosition_spec hinv₁ (v := ba.position) (by omega)
  obtain ⟨-, hbase₂, hcapacity₂⟩ := setPosition_frame hset
  refine ⟨⟨ba₁, []⟩, ba₂, hwrite, by dsimp only; omega, hset, hinv₂, hposition₂,
    hbase₂.trans (hbase₁.trans hbase₀),
    (setPosition_endian hset).trans (hendian₁.trans hendian₀), ?_, ?_⟩
  · have hcontents : ba₂.contents = overlay ba.contents ba.position
        ((header ++ value).map some) := by
      have hoverlay : overlay (overlay ba.contents ba.position (header.map some))
          (ba.position + (header.map some).length) (value.map some) =
          overlay ba.contents ba.position (header.map some ++ value.map some) :=
        overlay_overlay (by rw [h.contents_length]; exact hpos)
      rw [List.length_map] at hoverlay
      rw [hcontents₂, Nat.max_eq_left (by omega), List.map_append, ← hoverlay, ← hcontents₀,
        ← hposition₀, ← hcontents₁, contents]
    refine ⟨Cell.values junk (ba.position + (header ++ value).length)
      (ba.contents.drop (ba.position + (header ++ value).length)), ?_⟩
    have htake : (ba.contents.take ba.position).length = ba.position := by
      rw [List.length_take, h.contents_length]
      omega
    rw [ByteArray.unread, hcontents, hposition₂, overlay, List.append_assoc,
      List.drop_left' htake, Cell.values_append, Cell.values_map_some, List.append_assoc,
      List.length_map, hheader]
  · rintro rfl hborder
    have hcapacity := write_capacity hok₀
    have hkeep : ba₁ = ba₀ := by
      rw [write, if_pos List.length_nil] at hok₁
      cases hok₁
      rfl
    rw [List.length_nil] at hheader
    rw [hheader] at hborder ⊢
    rw [hcapacity₂, hkeep, hcapacity, h.addCapacity_to_border hborder]

/-- A string of a length that can be written comes back, and the position is behind the record
again; a longer one is refused. -/
def RoundTrips (kind : StringKind) (ba : ByteArray) (value : List UInt8) : Prop :=
  ∀ (slack memory : Nat) (junk : Nat → UInt8), value.length ≤ memory →
    (kind.Represents value.length → ∃ c ba₂ c',
      kind.write (raw slack memory junk) value ⟨ba, []⟩ = .ok () c ∧
      c.object.setPosition ba.position = .ok ba₂ ∧
      kind.read (raw slack memory junk) { c with object := ba₂ } = .ok value c' ∧
      c'.object.position = c.object.position) ∧
    (¬ kind.Represents value.length → ∃ e c,
      kind.write (raw slack memory junk) value ⟨ba, []⟩ = .error e c ∧ e.Throws)

/-- The length can be written, every read ends on a border, there is a node behind the length of
the empty string, and `m_cur` is null at the end of the nodes only. -/
structure OnBorders (kind : StringKind) (ba : ByteArray) (value : List UInt8) : Prop where
  represents : kind.Represents value.length
  header : kind.HeaderOnBorders value.length ba.position ba.baseSize
  body : value.length % ba.baseSize = 0
  node : value = [] → ba.position + kind.emptySize < ba.capacity
  cur : ba.cur = none → ba.position = ba.capacity

/-- Where the reads of the length end on borders, the read of the body is what is left of the
round trip. -/
theorem write_then_length (slack memory : Nat) (junk : Nat → UInt8) (h : Inv ba) {kind : StringKind}
    {value : List UInt8} (hrep : kind.Represents value.length)
    (hheader : kind.HeaderOnBorders value.length ba.position ba.baseSize) :
    ∃ c ba₂ c', kind.write (raw slack memory junk) value ⟨ba, []⟩ = .ok () c ∧
      c.object.setPosition ba.position = .ok ba₂ ∧
      kind.read (raw slack memory junk) { c with object := ba₂ } =
        (raw slack memory junk).readBody value.length c' ∧
      Inv c'.object ∧ c'.object.position + value.length = c.object.position ∧
      (∃ tail, c'.object.unread junk = value ++ tail) ∧
      ((c'.object.position + value.length) % c'.object.baseSize = 0 ↔
        value.length % ba.baseSize = 0) ∧
      (value = [] → (c'.object.position < c'.object.capacity ↔
        ba.position + kind.emptySize < ba.capacity)) := by
  obtain ⟨c, ba₂, hwrite, hposition, hset, hrec⟩ := write_recorded slack memory junk h kind value
  obtain ⟨tail, hunread⟩ := hrec.unread
  have hborder := hheader.border ba.endian
  obtain ⟨c', hok, hadv⟩ := readLength_ok junk slack memory hrep (c := { c with object := ba₂ })
    hrec.inv (by rw [hrec.endian]; exact hunread)
    (by rw [hrec.position, hrec.baseSize]; exact hheader)
  have hposition' : c'.object.position =
      ba.position + (kind.header ba.endian value.length).length := by
    rw [hadv.position, hrec.endian, hrec.position]
  refine ⟨c, ba₂, c', hwrite, hset, ?_, hadv.inv, by omega, ⟨tail, ?_⟩, ?_, ?_⟩
  · rw [StringKind.read_eq]
    exact bind_of_ok hok
  · rw [hadv.unread, hrec.endian, hunread, List.drop_left' rfl]
  · rw [hposition', hadv.baseSize, hrec.baseSize, Nat.add_mod, hborder, Nat.zero_add, Nat.mod_mod]
  · rintro rfl
    have hempty := kind.header_length_zero ba.endian
    rw [hposition', hadv.capacity, hrec.capacity rfl hborder, List.length_nil]
    omega

/-- A length that does not fit is not refused. -/
theorem Inv.represents_of_roundTrips (h : Inv ba) {kind : StringKind} {value : List UInt8}
    (htrips : RoundTrips kind ba value) : kind.Represents value.length := by
  by_contra hrep
  obtain ⟨e, c, herror, -⟩ := (htrips 0 value.length (fun _ => 0) (Nat.le_refl _)).2 hrep
  obtain ⟨c', -, hok, -⟩ := write_recorded 0 value.length (fun _ => 0) h kind value
  rw [hok] at herror
  cases herror

theorem Inv.header_of_roundTrips (h : Inv ba) {kind : StringKind} {value : List UInt8}
    (htrips : RoundTrips kind ba value) :
    kind.HeaderOnBorders value.length ba.position ba.baseSize := by
  have hrep := h.represents_of_roundTrips htrips
  obtain ⟨c, ba₂, c', hwrite, hset, hread, -⟩ :=
    (htrips 0 value.length (fun _ => 0) (Nat.le_refl _)).1 hrep
  obtain ⟨c₁, ba₁, hwrite₁, -, hset₁, hrec⟩ :=
    write_recorded 0 value.length (fun _ => 0) h kind value
  rw [hwrite] at hwrite₁
  cases hwrite₁
  rw [hset] at hset₁
  cases hset₁
  obtain ⟨tail, hunread⟩ := hrec.unread
  rw [StringKind.read_eq] at hread
  by_contra hno
  rw [← hrec.position, ← hrec.baseSize] at hno
  obtain ⟨e, c₂, herror⟩ := readLength_not_ok value.length hrep (c := { c with object := ba₂ })
    hrec.inv (by rw [hrec.endian]; exact hunread) hno
  rw [bind_of_error herror] at hread
  cases hread

/-- In a state that satisfies the invariant, the reads decide. -/
theorem Inv.stringRoundTrips_iff (h : Inv ba) (kind : StringKind) (value : List UInt8) :
    RoundTrips kind ba value ↔ OnBorders kind ba value := by
  constructor
  · intro htrips
    have hrep := h.represents_of_roundTrips htrips
    have hheader := h.header_of_roundTrips htrips
    obtain ⟨c, ba₂, c₁, hwrite, hset, hread, -⟩ :=
      (htrips 0 value.length (fun _ => 0) (Nat.le_refl _)).1 hrep
    obtain ⟨c', ba₃, c₂, hwrite', hset', hbody, hinv, -, ⟨tail, hunread⟩, haligned, hnode⟩ :=
      write_then_length 0 value.length (fun _ => 0) h hrep hheader
    rw [hwrite] at hwrite'
    cases hwrite'
    rw [hset] at hset'
    cases hset'
    rw [hbody] at hread
    -- the read of the body does not fail, so it fails for neither reason
    have hok : ¬ (value ≠ [] ∧ (c₂.object.position + value.length) % c₂.object.baseSize ≠ 0 ∨
        value = [] ∧ c₂.object.position = c₂.object.capacity) := by
      intro hno
      obtain ⟨e, c₃, herror⟩ := readBody_not_ok hinv hunread (Nat.le_refl _) hno
      rw [hread] at herror
      cases herror
    push Not at hok
    refine ⟨hrep, hheader, ?_, fun hempty => ?_, fun hnull => ?_⟩
    · by_cases hempty : value = []
      · rw [hempty]
        exact Nat.zero_mod _
      · exact haligned.mp (hok.1 hempty)
    · have hpos := Nat.le_trans hinv.position_le hinv.size_le
      exact (hnode hempty).mp (Nat.lt_of_le_of_ne hpos (hok.2 hempty))
    · by_contra hne
      have hpos := Nat.le_trans h.position_le h.size_le
      rw [h.cur_of_lt (Nat.lt_of_le_of_ne hpos hne)] at hnull
      cases hnull
  · rintro ⟨hrep, hheader, hbody, hroom, -⟩ slack memory junk hmemory
    refine ⟨fun _ => ?_, fun hno => absurd hrep hno⟩
    obtain ⟨c, ba₂, c', hwrite, hset, hread, hinv, hposition, ⟨tail, hunread⟩, haligned, hnode⟩ :=
      write_then_length slack memory junk h hrep hheader
    obtain ⟨c₁, hok, hend⟩ := readBody_ok slack hinv hunread hmemory (haligned.mpr hbody)
      fun hempty => (hnode hempty).mpr (hroom hempty)
    exact ⟨c, ba₂, c₁, hwrite, hset, hread.trans hok, hend.trans hposition⟩

/-- In every state that calls reach, with either byte order, a string comes back exactly when its
length can be written and the reads end on borders. -/
theorem roundTrips_iff_onBorders {b : Nat} (hb : 0 < b) (calls : List Call)
    (hrun : run callStep (new b) calls = some ba) (e : Endian) (kind : StringKind)
    (value : List UInt8) :
    RoundTrips kind { ba with endian := e } value ↔ OnBorders kind ba value := by
  have hsame : OnBorders kind { ba with endian := e } value ↔ OnBorders kind ba value :=
    ⟨fun h => ⟨h.represents, h.header, h.body, h.node, h.cur⟩,
      fun h => ⟨h.represents, h.header, h.body, h.node, h.cur⟩⟩
  rcases ((reached_of_run hb hrun).setEndian e).inv_or with hinv | ⟨hcur, -, hlt⟩
  · exact (hinv.stringRoundTrips_iff kind value).trans hsame
  · have hnull : kind.write (raw 0 value.length fun _ => 0) value ⟨{ ba with endian := e }, []⟩ =
        .error (.raw .nullDeref) ⟨{ ba with endian := e }, []⟩ := by
      rw [StringKind.write_eq]
      exact bind_of_error (raw_write_null 0 value.length (fun _ => 0)
        (c := ⟨{ ba with endian := e }, []⟩) hcur hlt (kind.header_length_pos _ _))
    constructor
    · intro htrips
      obtain ⟨hback, hrefuse⟩ := htrips 0 value.length (fun _ => 0) (Nat.le_refl _)
      by_cases hrep : kind.Represents value.length
      · obtain ⟨c, -, -, hok, -⟩ := hback hrep
        rw [hnull] at hok
        cases hok
      · obtain ⟨_, _, herror, hthrows⟩ := hrefuse hrep
        rw [hnull] at herror
        cases herror
        cases hthrows
    · intro hborders
      have hend : ba.position = ba.capacity := hborders.cur hcur
      exact absurd hlt (by dsimp only; omega)

/-- Two bytes into a node of four, two bytes of length and four bytes with a NUL among them. -/
theorem roundTrips_onBorders :
    ∃ ba, run callStep (new 4) [.write [1, 2] 0] = some ba ∧
      RoundTrips .f16 { ba with endian := .little } [10, 0, 20, 30] :=
  ⟨_, rfl, (roundTrips_iff_onBorders (b := 4) (by decide) [.write [1, 2] 0] rfl .little .f16 _).mpr
    ⟨(by decide : 4 < 2 ^ 16), (by decide : (2 + 2) % 4 = 0), by decide, nofun, nofun⟩⟩

/-- The length of an empty string fills the only node, and the read of its body looks at a null
`m_cur`; a length of 65536 is written as 0. -/
theorem not_roundTrips :
    ¬ RoundTrips .f16 (new 2) [] ∧ ¬ RoundTrips .f16 (new 1) (List.replicate 65536 7) := by
  constructor
  · intro htrips
    obtain ⟨c, ba₂, c', hwrite, hset, hread, -⟩ :=
      (htrips 0 0 (fun _ => 0) (Nat.le_refl _)).1 (by decide : 0 < 2 ^ 16)
    cases hwrite
    cases hset
    cases hread
  · intro htrips
    have hrep : (List.replicate 65536 (7 : UInt8)).length < 2 ^ 16 :=
      (inv_new (by decide)).represents_of_roundTrips htrips
    rw [List.length_replicate] at hrep
    exact absurd hrep (by decide)

end ByteArray

end Saturn
