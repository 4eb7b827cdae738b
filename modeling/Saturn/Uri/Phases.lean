import Saturn.Http.HeaderLoop
import Saturn.Uri.Defs

/-!
# The phases of an authority

What the states of the machine stand for while it reads the authority of a URI, and what a byte can
do in each of them. Ragel has some ninety states for a name that may become an IPv4 address and two
hundred for an `IP_literal`; within a phase they carry out the same actions.
-/

namespace Saturn

open Http (Bytes isDigit)

namespace Uri

/-- The control state behind some bytes. -/
def run (rest : Rest) : Nat → Bytes → Option Nat
  | cs, [] => some cs
  | cs, c :: w => (next rest cs c).bind fun t => run rest t.2 w

/-- How far an authority has been read. -/
inductive Phase
  /-- Nothing is read. -/
  | start
  /-- A name, of a user or a host. -/
  | name
  /-- Behind the first colon, and the digits there. -/
  | colon | digits
  /-- What only a userinfo can have. -/
  | user
  /-- Behind the `@`, and the name of the host there. -/
  | behindAt | host
  /-- Within the brackets, behind them, and an IPv4 address with a byte 2. -/
  | literal | closed | ipv4
  /-- Behind the colon of the port, and its digits. -/
  | port | portDigits
  | none
  deriving Repr, DecidableEq

/-- The state is one of a range. -/
def within (first last cs : Nat) : Bool := first.ble cs && cs.ble last

/-- The phase that a state is in. -/
def phase (cs : Nat) : Phase :=
  if cs == 511 then .start
  else if cs == 520 || within 543 560 cs || within 253 254 cs then .name
  else if cs == 521 then .colon
  else if cs == 542 then .digits
  else if within 255 257 cs then .user
  else if cs == 522 then .behindAt
  else if within 523 541 cs || within 258 259 cs then .host
  else if within 260 450 cs then .literal
  else if cs == 512 then .closed
  else if within 229 242 cs || within 245 252 cs || within 516 519 cs then .ipv4
  else if cs == 514 then .port
  else if cs == 515 then .portDigits
  else .none

/-- The bytes that end an authority. -/
def isDelim (c : UInt8) : Bool := c == 47 || c == 63 || c == 35

/-- The bytes that have a meaning of their own in an authority. -/
def special : List UInt8 := [35, 47, 58, 63, 64, 91, 93]

/-- The classes of the bytes of a name or an address. -/
def plainClasses : List CharClass :=
  [.digit, .upTo4, .upTo5, .xdigit, .name, .byte 2, .byte 37, .byte 46, .byte 48, .byte 49, .byte 50,
   .byte 53]

/-- A transition of a row. -/
abbrev Entry := CharClass × List Action × Nat

/-- What ends an authority. -/
def delimClasses : List CharClass := [.byte 47, .byte 63, .byte 35]

/-- The other single bytes that a phase has transitions for. -/
def Phase.fixed : Phase → List Entry
  | .start => [(.byte 58, [.mark, .saveHost], 521), (.byte 64, [.mark, .saveUserinfo], 522),
      (.byte 91, [.mark], 260)]
  | .name => [(.byte 58, [.saveHost], 521), (.byte 64, [.saveUserinfo], 522)]
  | .user => [(.byte 64, [.saveUserinfo], 522)]
  | .behindAt => [(.byte 58, [.mark, .saveHost], 514), (.byte 91, [.mark], 260)]
  | .host | .closed | .ipv4 => [(.byte 58, [.saveHost], 514)]
  | .literal => [(.byte 93, [], 512)]
  | _ => []

/-- The classes of the bytes that are left. -/
def Phase.classes : Phase → List CharClass
  | .start | .name | .behindAt | .host | .ipv4 => plainClasses
  | .user => .user :: plainClasses
  | .literal => .byte 58 :: .byte 118 :: .user :: plainClasses
  | _ => []

/-- What these bytes do, and the phases they lead to. -/
def Phase.others : Phase → List Action × List Phase
  | .start => ([.mark], [.name, .ipv4])
  | .name => ([], [.name, .ipv4])
  | .user => ([], [.user])
  | .behindAt => ([.mark], [.host, .ipv4])
  | .host => ([], [.host, .ipv4])
  | .literal => ([], [.literal])
  | .ipv4 => ([], [.ipv4, .closed])
  | _ => ([], [])

/-- The phases whose rows are described so. -/
def grouped : List Phase := [.start, .name, .user, .behindAt, .host, .literal, .closed, .ipv4]

/-- The transition is one of the phase. -/
def Phase.allows (φ : Phase) (e : Entry) : Bool :=
  delimClasses.contains e.1 || φ.fixed.contains e ||
    (φ.classes.contains e.1 && e.2.1 == φ.others.1 && φ.others.2.contains (phase e.2.2))

theorem table_allows : ∀ row ∈ table, phase row.1 ∈ grouped →
    ∀ e ∈ row.2, (phase row.1).allows e = true := by
  decide +kernel

/-- A set of numbers, by its bits. -/
def bitsOf : List Nat → Nat
  | [] => 0
  | n :: ns => 2 ^ n ||| bitsOf ns

theorem mem_of_testBit {n : Nat} : ∀ {ns : List Nat}, (bitsOf ns).testBit n = true → n ∈ ns := by
  intro ns
  induction ns with
  | nil => intro h; simp [bitsOf] at h
  | cons m ns ih =>
      intro h
      rw [bitsOf, Nat.testBit_or, Bool.or_eq_true, Nat.testBit_two_pow, decide_eq_true_eq] at h
      rcases h with rfl | h
      · exact List.mem_cons_self
      · exact List.mem_cons_of_mem _ (ih h)

variable {rest : Rest} {cs t : Nat} {c : UInt8} {actions : List Action}

theorem phase_of_ge (h : 561 ≤ cs) : phase cs = .none := by
  have hne {n : Nat} (hn : n < 561) : (cs == n) = false := by
    rw [beq_eq_false_iff_ne]
    omega
  have hout {first last : Nat} (hlast : last < 561) : within first last cs = false := by
    rw [within, Bool.and_eq_false_iff]
    right
    rw [← Bool.not_eq_true, Nat.ble_eq]
    omega
  simp [phase, hne, hout]

/-- The table has the states of all phases. -/
theorem lookup_of_phase (h : phase cs ≠ .none) : ∃ row, table.lookup cs = some row := by
  have hbits : ∀ cs < 561, phase cs ≠ .none → (bitsOf (table.map Prod.fst)).testBit cs = true := by
    decide +kernel
  have hlt : cs < 561 := by
    by_contra hge
    exact h (phase_of_ge (by omega))
  obtain ⟨e, he, rfl⟩ := List.mem_map.mp (mem_of_testBit (hbits cs hlt h))
  exact Option.isSome_iff_exists.mp (List.lookup_isSome_iff.mpr ⟨e, he, beq_self_eq_true _⟩)

/-- A transition is an entry of the state's row. -/
theorem next_cases (hphase : phase cs ≠ .none) (h : next rest cs c = some (actions, t)) :
    ∃ row k, (cs, row) ∈ table ∧ (k, actions, t) ∈ row ∧ k.has c = true := by
  obtain ⟨row, hrow⟩ := lookup_of_phase hphase
  rw [next, hrow] at h
  obtain ⟨⟨k, e⟩, hfind, rfl⟩ := Option.map_eq_some_iff.mp h
  exact ⟨row, k, Http.lookup_mem hrow, List.mem_of_find?_eq_some hfind,
    List.find?_some (p := fun e : Entry => e.1.has c) hfind⟩

theorem isDelim_of_class {k : CharClass} (hk : k ∈ delimClasses) (h : k.has c = true) :
    isDelim c = true := by
  simp only [delimClasses, List.mem_cons, List.not_mem_nil, or_false] at hk
  rcases hk with rfl | rfl | rfl <;> rw [beq_iff_eq.mp h] <;> rfl

/-- What a byte within an authority does in a phase. -/
theorem phase_next {φ : Phase} (hcs : phase cs = φ) (hφ : φ ∈ grouped) (hc : isDelim c = false)
    (h : next rest cs c = some (actions, t)) :
    (∃ k, (k, actions, t) ∈ φ.fixed ∧ k.has c = true) ∨
      (actions = φ.others.1 ∧ phase t ∈ φ.others.2 ∧ ∃ k ∈ φ.classes, k.has c = true) := by
  subst hcs
  have hne : phase cs ≠ .none := fun heq => by
    rw [heq] at hφ
    exact absurd hφ (by decide)
  obtain ⟨row, k, hrow, he, hhas⟩ := next_cases hne h
  have hallows := table_allows _ hrow hφ _ he
  rw [Phase.allows, Bool.or_eq_true, Bool.or_eq_true, Bool.and_eq_true, Bool.and_eq_true,
    beq_iff_eq] at hallows
  simp only [List.contains_iff_mem] at hallows
  rcases hallows with (hdelim | hfixed) | ⟨⟨hclass, hactions⟩, htarget⟩
  · rw [isDelim_of_class hdelim hhas] at hc
    cases hc
  · exact Or.inl ⟨k, hfixed, hhas⟩
  · exact Or.inr ⟨hactions, htarget, k, hclass, hhas⟩

theorem not_special_of_class {k : CharClass} (hk : k ∈ plainClasses) (h : k.has c = true) :
    c ∉ special := by
  have hcheck : ∀ k ∈ plainClasses, ∀ b ∈ special, k.has b = false := by decide +kernel
  intro hc
  rw [hcheck k hk c hc] at h
  cases h

/-! ## The phases of one state -/

/-- What a row has for a character. -/
def rowNext (row : Row) (c : UInt8) : Option (List Action × Nat) :=
  (row.find? fun e => e.1.has c).map Prod.snd

@[simp] theorem rowNext_nil (c : UInt8) : rowNext [] c = none := rfl

theorem rowNext_cons_eq_some {k : CharClass} {e r : List Action × Nat} {row : Row} {c : UInt8} :
    rowNext ((k, e) :: row) c = some r ↔
      (k.has c = true ∧ e = r) ∨ (k.has c = false ∧ rowNext row c = some r) := by
  rw [rowNext, List.find?_cons]
  by_cases h : k.has c = true
  · simp [h]
  · simp [h, rowNext]

theorem next_of_lookup {row : Row} (h : table.lookup cs = some row) :
    next rest cs c = rowNext row c := by
  rw [next, h]
  rfl

theorem isDelim_eq_false_iff : isDelim c = false ↔ c ≠ 47 ∧ c ≠ 63 ∧ c ≠ 35 := by
  simp [isDelim, and_assoc]

theorem rowNext_delimiters {row : Row} {as : List Action} (hc : isDelim c = false) :
    rowNext (delimiters as ++ row) c = rowNext row c := by
  obtain ⟨hslash, hmark, hhash⟩ := isDelim_eq_false_iff.mp hc
  simp [rowNext, delimiters, CharClass.has, hslash, hmark, hhash]

/-- Digits behind the first colon are a port, or they belong to the user as other bytes do. -/
theorem rowNext_colon {as : List Action}
    (h : rowNext ((.byte 64, [.saveUserinfo], 522) :: (.digit, as, 542) ::
      silent [(.byte 37, 256), (.user, 255)]) c = some (actions, t)) :
    (c = 64 ∧ actions = [.saveUserinfo] ∧ t = 522) ∨
      (isDigit c = true ∧ actions = as ∧ t = 542) ∨
      (isDigit c = false ∧ c ≠ 64 ∧ actions = [] ∧ phase t = .user) := by
  simp only [silent, List.map_cons, List.map_nil, rowNext_cons_eq_some, rowNext_nil, CharClass.has,
    beq_iff_eq, beq_eq_false_iff_ne, Prod.mk.injEq] at h
  rcases h with ⟨hat, rfl, rfl⟩ | ⟨hat, ⟨hdigit, rfl, rfl⟩ | ⟨hdigit, ⟨-, rfl, rfl⟩ | ⟨-, h⟩⟩⟩
  · exact Or.inl ⟨hat, rfl, rfl⟩
  · exact Or.inr (Or.inl ⟨hdigit, rfl, rfl⟩)
  · exact Or.inr (Or.inr ⟨hdigit, hat, rfl, rfl⟩)
  · rcases h with ⟨-, rfl, rfl⟩ | ⟨-, h⟩
    · exact Or.inr (Or.inr ⟨hdigit, hat, rfl, rfl⟩)
    · cases h

/-- Behind the first colon. -/
theorem next_colon (hc : isDelim c = false) (h : next rest 521 c = some (actions, t)) :
    (c = 64 ∧ actions = [.saveUserinfo] ∧ t = 522) ∨
      (isDigit c = true ∧ actions = [.mark] ∧ t = 542) ∨
      (isDigit c = false ∧ c ≠ 64 ∧ actions = [] ∧ phase t = .user) := by
  rw [next_of_lookup rfl, rowNext_delimiters hc] at h
  exact rowNext_colon h

/-- Behind digits that follow the first colon. -/
theorem next_digits (hc : isDelim c = false) (h : next rest 542 c = some (actions, t)) :
    (c = 64 ∧ actions = [.saveUserinfo] ∧ t = 522) ∨
      (isDigit c = true ∧ actions = [] ∧ t = 542) ∨
      (isDigit c = false ∧ c ≠ 64 ∧ actions = [] ∧ phase t = .user) := by
  rw [next_of_lookup rfl, rowNext_delimiters hc] at h
  exact rowNext_colon h

/-- Behind the colon of the port. -/
theorem next_port (hc : isDelim c = false) (h : next rest 514 c = some (actions, t)) :
    isDigit c = true ∧ actions = [.mark] ∧ t = 515 := by
  rw [next_of_lookup rfl, rowNext_delimiters hc] at h
  simp only [rowNext_cons_eq_some, rowNext_nil, CharClass.has, Prod.mk.injEq, reduceCtorEq, and_false,
    or_false] at h
  obtain ⟨hdigit, rfl, rfl⟩ := h
  exact ⟨hdigit, rfl, rfl⟩

theorem next_portDigits (hc : isDelim c = false) (h : next rest 515 c = some (actions, t)) :
    isDigit c = true ∧ actions = [] ∧ t = 515 := by
  rw [next_of_lookup rfl, rowNext_delimiters hc] at h
  simp only [silent, List.map_cons, List.map_nil, rowNext_cons_eq_some, rowNext_nil, CharClass.has,
    Prod.mk.injEq, reduceCtorEq, and_false, or_false] at h
  obtain ⟨hdigit, rfl, rfl⟩ := h
  exact ⟨hdigit, rfl, rfl⟩

end Uri

end Saturn
