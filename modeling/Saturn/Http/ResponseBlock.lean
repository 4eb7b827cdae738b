import Saturn.Http.ClientParser
import Saturn.Http.HeaderMap
import Saturn.Http.MessageLength

/-!
# The header block of a response

The grammar of a status line and header fields, and the way of the response parser through such a
block: it follows the names that it knows letter by letter, and sets every field on the way.
-/

namespace Saturn

namespace Http

/-- A byte of a value or of a reason phrase. -/
def isContentChar (c : UInt8) : Bool := c == 9 || (32 ≤ c && c != 127)

/-- `name ":" blanks value CRLF` -/
structure FieldLine where
  name : Bytes
  blanks : Bytes
  value : Bytes
  deriving Repr, DecidableEq

/-- `"HTTP/1." minor SP status SP reason CRLF`, the fields and an empty line. -/
structure ResponseBlock where
  minor : UInt8
  status : Bytes
  reason : Bytes
  fields : List FieldLine
  deriving Repr, DecidableEq

/-- The bytes of a line. -/
def FieldLine.bytes (f : FieldLine) : Bytes := (f.name ++ [58]) ++ (f.blanks ++ (f.value ++ crlf))

/-- The status line. -/
def ResponseBlock.statusLine (b : ResponseBlock) : Bytes :=
  (ascii "HTTP/1." ++ [b.minor, 32]) ++ ((b.status ++ [32]) ++ (b.reason ++ crlf))

/-- The bytes of a block. -/
def ResponseBlock.bytes (b : ResponseBlock) : Bytes :=
  (b.statusLine ++ b.fields.flatMap FieldLine.bytes) ++ crlf

/-- The field has a name, in any case. -/
def FieldLine.Named (f : FieldLine) (name : String) : Prop := caseFold f.name = caseFold (ascii name)

instance (f : FieldLine) (name : String) : Decidable (f.Named name) :=
  inferInstanceAs (Decidable (_ = _))

/-- A token, and a value that starts with no blank; blanks at the end of the line belong to the
value. -/
structure FieldLine.WellFormed (f : FieldLine) : Prop where
  name_ne : f.name ≠ []
  token : f.name.all isTokenChar = true
  blanks : f.blanks.all isBlank = true
  content : f.value.all isContentChar = true
  first : ∀ c ∈ f.value.head?, isBlank c = false

instance (f : FieldLine) : Decidable f.WellFormed :=
  have : Decidable (∀ c ∈ f.value.head?, isBlank c = false) :=
    Option.decidableForallMem _
  decidable_of_iff (f.name ≠ [] ∧ f.name.all isTokenChar = true ∧ f.blanks.all isBlank = true ∧
    f.value.all isContentChar = true ∧ ∀ c ∈ f.value.head?, isBlank c = false)
    ⟨fun ⟨hne, htoken, hblanks, hcontent, hfirst⟩ => ⟨hne, htoken, hblanks, hcontent, hfirst⟩,
      fun h => ⟨h.name_ne, h.token, h.blanks, h.content, h.first⟩⟩

/-- The block is one of the grammar. -/
structure ResponseBlock.WellFormed (b : ResponseBlock) : Prop where
  minor : b.minor = 48 ∨ b.minor = 49
  status_ne : b.status ≠ []
  status : b.status.all isDigit = true
  reason : b.reason.all isContentChar = true
  fields : ∀ f ∈ b.fields, f.WellFormed

instance (b : ResponseBlock) : Decidable b.WellFormed :=
  decidable_of_iff ((b.minor = 48 ∨ b.minor = 49) ∧ b.status ≠ [] ∧ b.status.all isDigit = true ∧
    b.reason.all isContentChar = true ∧ ∀ f ∈ b.fields, f.WellFormed)
    ⟨fun ⟨hminor, hne, hstatus, hreason, hfields⟩ => ⟨hminor, hne, hstatus, hreason, hfields⟩,
      fun h => ⟨h.minor, h.status_ne, h.status, h.reason, h.fields⟩⟩

/-- No field says `Transfer-Encoding: chunked`. -/
def ResponseBlock.NotChunked (b : ResponseBlock) : Prop :=
  ∀ f ∈ b.fields, f.Named "transfer-encoding" → caseFold f.value ≠ caseFold (ascii "chunked")

instance (b : ResponseBlock) : Decidable b.NotChunked := inferInstanceAs (Decidable (∀ _ ∈ _, _))

/-- There is one `Content-Length` field, and its value is a decimal number. -/
def ResponseBlock.HasLength (b : ResponseBlock) (length : Nat) : Prop :=
  ∃ f, b.fields.filter (·.Named "content-length") = [f] ∧ decimal f.value = some length

/-- The last field is no empty `Connection` or `Transfer-Encoding`. -/
def ResponseBlock.LastSays (b : ResponseBlock) : Prop :=
  ∀ f ∈ b.fields.getLast?, f.Named "connection" ∨ f.Named "transfer-encoding" → f.value ≠ []

instance (b : ResponseBlock) : Decidable b.LastSays :=
  inferInstanceAs (Decidable (∀ _ ∈ b.fields.getLast?, _))

/-- What the parser makes of the fields. -/
def ResponseBlock.headers (b : ResponseBlock) : MapType :=
  MapType.setAll [] (b.fields.map fun f => (f.name, f.value))

namespace Client

/-! ## The states -/

/-- The states in which the beginning of a name that the parser follows has been read; the last ones
are those behind an empty field, where a name may also be the value of that field. -/
def nameStates : List (Nat × String) :=
  [(25, "c"), (26, "co"), (27, "con"), (28, "conn"), (29, "conne"), (30, "connec"), (31, "connect"),
   (32, "connecti"), (33, "connectio"), (34, "connection"),
   (101, "cont"), (102, "conte"), (103, "conten"), (104, "content"), (105, "content-"),
   (106, "content-l"), (107, "content-le"), (108, "content-len"), (109, "content-leng"),
   (110, "content-lengt"), (111, "content-length"),
   (44, "t"), (45, "tr"), (46, "tra"), (47, "tran"), (48, "trans"), (49, "transf"), (50, "transfe"),
   (51, "transfer"), (52, "transfer-"), (53, "transfer-e"), (54, "transfer-en"),
   (55, "transfer-enc"), (56, "transfer-enco"), (57, "transfer-encod"), (58, "transfer-encodi"),
   (59, "transfer-encodin"), (60, "transfer-encoding"),
   (90, "c"), (91, "cl"), (92, "clo"), (93, "clos"), (94, "close"),
   (73, "c"), (74, "ch"), (75, "chu"), (76, "chun"), (77, "chunk"), (78, "chunke"),
   (79, "chunked")]

/-- The states behind the colon of a known name. -/
def valueStates : List (Nat × String) :=
  [(35, "connection"), (61, "transfer-encoding"), (112, "content-length")]

/-- The states in a value other than the beginning of `chunked`. -/
def contentStates : List Nat := [23, 96, 97, 98, 99, 100, 119]

/-- The states in which the beginning of `chunked` has been read. -/
def chunkedStates : List (Nat × String) :=
  [(81, "c"), (82, "ch"), (83, "chu"), (84, "chun"), (85, "chunk"), (86, "chunke"), (87, "chunked")]

/-- Where the block may end; in the second state `Connection: close` has been read. -/
def AtEnd (cs : Nat) : Prop := cs = 20 ∨ cs = 43

/-- Where a field may begin: there, or behind an empty `Connection` or `Transfer-Encoding`. -/
def AtLine (cs : Nat) : Prop := AtEnd cs ∨ cs = 36 ∨ cs = 62

/-- In a name of which `w` has been read. -/
def InName (w : Bytes) (cs : Nat) : Prop :=
  cs = 21 ∨ ∃ e ∈ nameStates, e.1 = cs ∧ ascii e.2 = w.map toLower

/-- Behind the colon of `name`. -/
def AtValue (name : Bytes) (cs : Nat) : Prop :=
  cs = 22 ∨ ∃ e ∈ valueStates, e.1 = cs ∧ ascii e.2 = name.map toLower

/-- In the value of `name`, of which `w` has been read. -/
def InValue (name w : Bytes) (cs : Nat) : Prop :=
  cs ∈ contentStates ∨ name.map toLower = ascii "transfer-encoding" ∧
    ∃ e ∈ chunkedStates, e.1 = cs ∧ ascii e.2 = w.map toLower

/-- Behind a CR, where the LF leads to a state of `J`. -/
def BeforeLf (J : Nat → Prop) (cs : Nat) : Prop := ∃ cs', next cs 10 = some (.goto [] cs') ∧ J cs'

/-! ## The rows -/

section Rows

variable {c : UInt8} {cs : Nat} {ok : UInt8 → Bool} {good : CharClass × Transition → Bool}

/-- The class has none of the bytes. -/
def CharClass.outside (ok : UInt8 → Bool) : CharClass → Bool
  | .byte b => !ok b
  | .space => [9, 10, 11, 12, 13, 32].all fun b => !ok b
  | _ => false

theorem CharClass.has_of_outside {cl : CharClass} (h : cl.outside ok = true) (hc : ok c = true) :
    cl.has c = false := by
  by_contra hhas
  rw [Bool.not_eq_false] at hhas
  cases cl with
  | byte b =>
      have hno : (!ok b) = true := h
      rw [← eq_of_beq hhas, hc] at hno
      cases hno
  | space =>
      have hmem : c ∈ [9, 10, 11, 12, 13, 32] := forall_byte
        (P := fun c => isSpace c = true → c ∈ [9, 10, 11, 12, 13, 32]) (by decide +kernel) c hhas
      have hnot := List.all_eq_true.mp h c hmem
      rw [hc] at hnot
      cases hnot
  | _ => cases h

/-- The row of a state has an entry for each of the bytes, and the first one that has a byte is good. -/
def RowLeads (ok : UInt8 → Bool) (full : CharClass) (good : CharClass × Transition → Bool)
    (cs : Nat) : Prop :=
  ∃ row ∈ table.lookup cs, row.all (fun e => good e || e.1.outside ok) = true ∧
    row.any (fun e => e.1 == full) = true

instance (full : CharClass) : Decidable (RowLeads ok full good cs) :=
  inferInstanceAs (Decidable (∃ row ∈ table.lookup cs, _))

theorem RowLeads.next {full : CharClass} (h : RowLeads ok full good cs) (hc : ok c = true)
    (hhas : full.has c = true) : ∃ e, next cs c = some e.2 ∧ e.1.has c = true ∧ good e = true := by
  obtain ⟨row, hrow, hall, hany⟩ := h
  obtain ⟨e, he, hfull⟩ := List.any_eq_true.mp hany
  have hsome : (row.find? fun e => e.1.has c).isSome = true := by
    rw [List.find?_isSome]
    exact ⟨e, he, by rw [eq_of_beq hfull]; exact hhas⟩
  obtain ⟨d, hd⟩ := Option.isSome_iff_exists.mp hsome
  obtain ⟨hhas', hmem⟩ : d.1.has c = true ∧ d ∈ row :=
    ⟨List.find?_some (p := fun e : CharClass × Transition => e.1.has c) hd, List.mem_of_find?_eq_some hd⟩
  refine ⟨d, ?_, hhas', ?_⟩
  · rw [Client.next, Option.mem_def.mp hrow, Option.bind_some, hd, Option.map_some]
  · rcases Bool.or_eq_true_iff.mp (List.all_eq_true.mp hall d hmem) with hgood | hout
    · exact hgood
    · rw [CharClass.has_of_outside hout hc] at hhas'
      cases hhas'

/-- A letter as the rows have it. -/
def isRowLetter (l : Char) : Bool := l == '-' || (97 ≤ l.toNat && l.toNat ≤ 122)

theorem toLower_of_letter {l : Char} (hl : isRowLetter l = true)
    (h : (CharClass.letter l).has c = true) : toLower c = l.toNat.toUInt8 := by
  rw [CharClass.has, Bool.or_eq_true, Bool.and_eq_true, beq_iff_eq, beq_iff_eq] at h
  rw [isRowLetter, Bool.or_eq_true, Bool.and_eq_true, decide_eq_true_eq, decide_eq_true_eq,
    beq_iff_eq] at hl
  rcases h with hsame | ⟨halpha, hupper⟩
  · have hc : l.toNat.toUInt8 = c := by
      rw [← hsame]
      exact UInt8.ofNat_toNat
    rw [hc, toLower, if_neg]
    rw [UInt8.le_iff_toNat_le, UInt8.le_iff_toNat_le, hsame]
    rcases hl with rfl | ⟨hlow, -⟩
    · decide
    · exact fun hrange => absurd (hlow.trans hrange.2) (by decide)
  · rcases hl with rfl | ⟨hlow, hhigh⟩
    · exact absurd halpha (by decide)
    · have hrange : 65 ≤ c ∧ c ≤ 90 := by
        rw [UInt8.le_iff_toNat_le, UInt8.le_iff_toNat_le]
        exact ⟨by change 65 ≤ c.toNat; omega, by change c.toNat ≤ 90; omega⟩
      rw [toLower, if_pos hrange, ← hupper]
      exact UInt8.toNat_inj.mp (by rw [UInt8.toNat_add]; rfl)

/-- The entry goes on in a word with the next letter of one of the `states`, or else to `other`. -/
def follows (states : List (Nat × String)) (other : Nat) (actions : List (List Action))
    (word : String) : CharClass × Transition → Bool
  | (.letter l, .goto as cs) => actions.contains as && (isRowLetter l &&
      states.any fun e => e.1 == cs && ascii e.2 == ascii word ++ [l.toNat.toUInt8])
  | (_, .goto as cs) => actions.contains as && cs == other
  | _ => false

theorem follows_cases {states : List (Nat × String)} {other : Nat} {actions : List (List Action)}
    {word : String} {e : CharClass × Transition}
    (h : follows states other actions word e = true) (hhas : e.1.has c = true) :
    ∃ as cs', e.2 = .goto as cs' ∧ as ∈ actions ∧
      (cs' = other ∨ ∃ n ∈ states, n.1 = cs' ∧ ascii n.2 = ascii word ++ [toLower c]) := by
  obtain ⟨cl, t⟩ := e
  cases t with
  | done as cs' => cases cl <;> cases h
  | goto as cs' =>
      refine ⟨as, cs', rfl, ?_⟩
      cases cl with
      | letter l =>
          simp only [follows, Bool.and_eq_true, List.contains_iff_mem, List.any_eq_true,
            beq_iff_eq] at h
          obtain ⟨has, hl, n, hn, hcs, hword⟩ := h
          exact ⟨has, Or.inr ⟨n, hn, hcs, by rw [hword, toLower_of_letter hl hhas]⟩⟩
      | _ =>
          simp only [follows, Bool.and_eq_true, List.contains_iff_mem, beq_iff_eq] at h
          exact ⟨h.1, Or.inl h.2⟩

/-- The entry leads to one of the states. -/
def leadsTo (actions : List Action) (states : List Nat) (e : CharClass × Transition) : Bool :=
  match e.2 with
  | .goto as cs => as == actions && states.contains cs
  | .done _ _ => false

theorem leadsTo_cases {actions : List Action} {states : List Nat} {e : CharClass × Transition}
    (h : leadsTo actions states e = true) : ∃ cs' ∈ states, e.2 = .goto actions cs' := by
  obtain ⟨cl, t⟩ := e
  cases t with
  | done as cs' => cases h
  | goto as cs' =>
      rw [leadsTo, Bool.and_eq_true, List.contains_iff_mem, beq_iff_eq] at h
      exact ⟨cs', h.2, by rw [h.1]⟩

end Rows

section Table

variable {c : UInt8} {cs : Nat} {name w : Bytes}

theorem isToken_of_tokenChar (hc : isTokenChar c = true) : isToken c = true := by
  revert hc
  exact forall_byte (P := fun c => isTokenChar c = true → isToken c = true) (by decide +kernel) c

/-- One more byte of a name. -/
theorem InName.snoc (h : InName w cs) (hc : isToken c = true) :
    ∃ cs', next cs c = some (.goto [] cs') ∧ InName (w ++ [c]) cs' := by
  rcases h with rfl | ⟨e, he, rfl, hword⟩
  · have hrow : RowLeads isToken .token (leadsTo [] [21]) 21 := by decide
    obtain ⟨d, hnext, -, hgood⟩ := hrow.next hc hc
    obtain ⟨cs', hcs', ht⟩ := leadsTo_cases hgood
    exact ⟨cs', hnext.trans (congrArg some ht), Or.inl (List.mem_singleton.mp hcs')⟩
  · have hrows : ∀ e ∈ nameStates,
        RowLeads isToken .token (follows nameStates 21 [[]] e.2) e.1 := by decide
    obtain ⟨d, hnext, hhas, hgood⟩ := (hrows e he).next hc hc
    obtain ⟨as, cs', ht, has, hcs'⟩ := follows_cases hgood hhas
    obtain rfl := List.mem_singleton.mp has
    refine ⟨cs', hnext.trans (congrArg some ht), hcs'.imp id ?_⟩
    rintro ⟨n, hn, hstate, hword'⟩
    exact ⟨n, hn, hstate, by rw [hword', hword, List.map_append]; rfl⟩

/-- The first byte of a field. -/
theorem AtLine.first (h : AtLine cs) (hc : isToken c = true) :
    ∃ actions cs', next cs c = some (.goto actions cs') ∧ InName [c] cs' ∧
      actions ∈ [[.startField], [.writeConnectionClose, .startField], [.startValue, .startField]] := by
  have hrows : ∀ cs ∈ [20, 43, 36, 62], RowLeads isToken .token (follows nameStates 21
      [[.startField], [.writeConnectionClose, .startField], [.startValue, .startField]] "") cs := by
    decide
  have hmem : cs ∈ [20, 43, 36, 62] := by
    rcases h with (rfl | rfl) | rfl | rfl <;> decide
  obtain ⟨d, hnext, hhas, hgood⟩ := (hrows cs hmem).next hc hc
  obtain ⟨actions, cs', ht, hactions, hcs'⟩ := follows_cases hgood hhas
  exact ⟨actions, cs', hnext.trans (congrArg some ht), hcs', hactions⟩

/-- The colon behind a name. -/
theorem InName.colon (h : InName name cs) :
    ∃ cs', next cs 58 = some (.goto [.writeField] cs') ∧ AtValue name cs' := by
  have hcolon : ∀ e ∈ nameStates, next e.1 58 = some (.goto [.writeField] 22) ∨
      ∃ e' ∈ valueStates, next e.1 58 = some (.goto [.writeField] e'.1) ∧ e'.2 = e.2 := by
    decide
  rcases h with rfl | ⟨e, he, rfl, hword⟩
  · exact ⟨22, by decide, Or.inl rfl⟩
  · rcases hcolon e he with hnext | ⟨e', he', hnext, heq⟩
    · exact ⟨22, hnext, Or.inl rfl⟩
    · exact ⟨e'.1, hnext, Or.inr ⟨e', he', rfl, by rw [heq]; exact hword⟩⟩

/-- A blank in front of a value. -/
theorem AtValue.blank (h : AtValue name cs) (hc : isBlank c = true) :
    next cs c = some (.goto [.startValue] cs) := by
  have hmem : cs ∈ [22, 35, 61, 112] := by
    rcases h with rfl | ⟨e, he, rfl, -⟩
    · decide
    · revert e
      decide
  have hrows : ∀ cs ∈ [22, 35, 61, 112], next cs 32 = some (.goto [.startValue] cs) ∧
      next cs 9 = some (.goto [.startValue] cs) := by decide
  rw [isBlank, Bool.or_eq_true, beq_iff_eq, beq_iff_eq] at hc
  rcases hc with rfl | rfl
  · exact (hrows cs hmem).1
  · exact (hrows cs hmem).2

/-- The first byte of a value. -/
theorem AtValue.first (h : AtValue name cs) (hc : isContentChar c = true)
    (hblank : isBlank c = false) :
    ∃ cs', next cs c = some (.goto [.startValue] cs') ∧ InValue name [c] cs' := by
  have hok : (isContentChar c && !isBlank c) = true := by rw [hc, hblank]; rfl
  have hplain : ∀ cs ∈ [22, 35, 112], RowLeads (fun c => isContentChar c && !isBlank c) .any
      (leadsTo [.startValue] contentStates) cs := by decide
  have hencoding : RowLeads (fun c => isContentChar c && !isBlank c) .any
      (follows chunkedStates 23 [[.startValue]] "") 61 := by decide
  have hother : cs ∈ [22, 35, 112] →
      ∃ cs', next cs c = some (.goto [.startValue] cs') ∧ InValue name [c] cs' := by
    intro hmem
    obtain ⟨d, hnext, -, hgood⟩ := (hplain cs hmem).next hok rfl
    obtain ⟨cs', hcs', ht⟩ := leadsTo_cases hgood
    exact ⟨cs', hnext.trans (congrArg some ht), Or.inl hcs'⟩
  rcases h with rfl | ⟨e, he, rfl, hword⟩
  · exact hother (by decide)
  · simp only [valueStates, List.mem_cons, List.not_mem_nil, or_false] at he
    rcases he with rfl | rfl | rfl
    · exact hother (by decide)
    · obtain ⟨d, hnext, hhas, hgood⟩ := hencoding.next hok rfl
      obtain ⟨as, cs', ht, has, hcs'⟩ := follows_cases hgood hhas
      obtain rfl := List.mem_singleton.mp has
      refine ⟨cs', hnext.trans (congrArg some ht), ?_⟩
      rcases hcs' with rfl | hcs'
      · exact Or.inl (by decide)
      · exact Or.inr ⟨hword.symm, hcs'⟩
    · exact hother (by decide)

/-- One more byte of a value. -/
theorem InValue.snoc (h : InValue name w cs) (hc : isContentChar c = true) :
    ∃ cs', next cs c = some (.goto [] cs') ∧ InValue name (w ++ [c]) cs' := by
  rcases h with hmem | ⟨hname, e, he, rfl, hword⟩
  · have hrows : ∀ cs ∈ contentStates, RowLeads isContentChar .any (leadsTo [] contentStates) cs := by
      decide
    obtain ⟨d, hnext, -, hgood⟩ := (hrows cs hmem).next hc rfl
    obtain ⟨cs', hcs', ht⟩ := leadsTo_cases hgood
    exact ⟨cs', hnext.trans (congrArg some ht), Or.inl hcs'⟩
  · have hrows : ∀ e ∈ chunkedStates,
        RowLeads isContentChar .any (follows chunkedStates 23 [[]] e.2) e.1 := by decide
    obtain ⟨d, hnext, hhas, hgood⟩ := (hrows e he).next hc rfl
    obtain ⟨as, cs', ht, has, hcs'⟩ := follows_cases hgood hhas
    obtain rfl := List.mem_singleton.mp has
    refine ⟨cs', hnext.trans (congrArg some ht), ?_⟩
    rcases hcs' with rfl | ⟨n, hn, hstate, hword'⟩
    · exact Or.inl (by decide)
    · exact Or.inr ⟨hname, n, hn, hstate, by rw [hword', hword, List.map_append]; rfl⟩

/-- The CR behind a value that does not make the body chunked. -/
theorem InValue.cr (h : InValue name w cs)
    (hplain : name.map toLower = ascii "transfer-encoding" → w.map toLower ≠ ascii "chunked") :
    ∃ actions cs', next cs 13 = some (.goto actions cs') ∧ BeforeLf AtEnd cs' ∧
      (actions = [.writeValue] ∨ actions = [.writeContentLen, .writeValue]) := by
  have hcontent : ∀ cs ∈ contentStates, next cs 13 = some (.goto [.writeValue] 24) ∨
      next cs 13 = some (.goto [.writeValue] 88) ∨
      next cs 13 = some (.goto [.writeContentLen, .writeValue] 24) := by decide
  have hchunked : ∀ e ∈ chunkedStates, e.2 = "chunked" ∨
      next e.1 13 = some (.goto [.writeValue] 24) := by decide
  have hline : BeforeLf AtEnd 24 := ⟨20, by decide, Or.inl rfl⟩
  rcases h with hmem | ⟨hname, e, he, rfl, hword⟩
  · rcases hcontent cs hmem with hnext | hnext | hnext
    · exact ⟨_, 24, hnext, hline, Or.inl rfl⟩
    · exact ⟨_, 88, hnext, ⟨43, by decide, Or.inr rfl⟩, Or.inl rfl⟩
    · exact ⟨_, 24, hnext, hline, Or.inr rfl⟩
  · rcases hchunked e he with heq | hnext
    · rw [heq] at hword
      exact absurd hword.symm (hplain hname)
    · exact ⟨_, 24, hnext, hline, Or.inl rfl⟩

/-- The CR behind an empty value. Where the grammar knows the name, the parser still looks for the
value. -/
theorem AtValue.cr (h : AtValue name cs) (hlength : name.map toLower ≠ ascii "content-length") :
    ∃ cs', next cs 13 = some (.goto [.startValue, .writeValue] cs') ∧ BeforeLf AtLine cs' ∧
      (name.map toLower ≠ ascii "connection" → name.map toLower ≠ ascii "transfer-encoding" →
        BeforeLf AtEnd cs') := by
  rcases h with rfl | ⟨e, he, rfl, hword⟩
  · exact ⟨24, by decide, ⟨20, by decide, Or.inl (Or.inl rfl)⟩,
      fun _ _ => ⟨20, by decide, Or.inl rfl⟩⟩
  · simp only [valueStates, List.mem_cons, List.not_mem_nil, or_false] at he
    rcases he with rfl | rfl | rfl
    · exact ⟨95, by decide, ⟨36, by decide, Or.inr (Or.inl rfl)⟩,
        fun hother => absurd hword.symm hother⟩
    · exact ⟨80, by decide, ⟨62, by decide, Or.inr (Or.inr rfl)⟩,
        fun _ hother => absurd hword.symm hother⟩
    · exact absurd hword.symm hlength

end Table

end Client

end Http

end Saturn
