import Mathlib.Data.List.DropRight
import Saturn.Misc.Runs
import Saturn.Uri.Phases

/-!
# The components of a URI

What RFC 3986 takes a URI with an authority to consist of: a scheme, an authority, a path and perhaps
a query and a fragment, and the authority of a userinfo, a host and a port. Nothing here looks at
the state machine.
-/

namespace Saturn

open Http (Bytes ascii digitsValue isAlpha isDigit)

namespace Uri

/-- `alpha (alpha | digit | "+" | "-" | ".")*` -/
def isScheme : Bytes → Bool
  | [] => false
  | c :: s => isAlpha c && s.all CharClass.scheme.has

/-- A URI of the form `scheme "://" authority path ["?" query] ["#" fragment]`. -/
structure Components where
  scheme : Bytes
  authority : Bytes
  path : Bytes
  query : Option Bytes
  fragment : Option Bytes
  scheme_valid : isScheme scheme = true
  /-- An authority ends at the first slash, question mark or hash. -/
  authority_valid : ∀ c ∈ authority, isDelim c = false
  path_valid : path = [] ∨ path.head? = some 47
  path_end : 63 ∉ path ∧ 35 ∉ path
  query_end : ∀ q ∈ query, 35 ∉ q

/-- A component behind the byte that announces it. -/
def announced (c : UInt8) : Option Bytes → Bytes
  | none => []
  | some w => c :: w

/-- The text of the components. -/
def Components.text (parts : Components) : Bytes :=
  parts.scheme ++ ascii "://" ++ parts.authority ++ parts.path ++ announced 63 parts.query ++
    announced 35 parts.fragment

/-! ## The authority -/

/-- The text before the `@`. -/
def userinfoOf (authority : Bytes) : Bytes :=
  if 64 ∈ authority then authority.takeWhile (· != 64) else []

/-- The text behind the `@`. -/
def hostportOf (authority : Bytes) : Bytes :=
  if 64 ∈ authority then (authority.dropWhile (· != 64)).tail else authority

/-- What may end the host of an authority. -/
def isColonOrBracket (c : UInt8) : Bool := c == 58 || c == 93

/-- The text up to the last colon that no closing bracket follows, with the colon. -/
def portLead (hostport : Bytes) : Bytes := hostport.rdropWhile fun c => !isColonOrBracket c

/-- The text before the colon that introduces the port. -/
def hostOf (authority : Bytes) : Bytes :=
  let hostport := hostportOf authority
  if (portLead hostport).getLast? = some 58 then (portLead hostport).dropLast else hostport

/-- The text behind that colon. -/
def portOf (authority : Bytes) : Bytes :=
  let hostport := hostportOf authority
  if (portLead hostport).getLast? = some 58 then hostport.rtakeWhile fun c => !isColonOrBracket c
  else []

/-- The number that the digits of the port say. -/
def portValue (authority : Bytes) : Nat := digitsValue 10 (portOf authority)

/-- An authority's userinfo with its `@`. -/
def lead : Option Bytes → Bytes
  | none => []
  | some x => x ++ [64]

section Authority

variable {x : Option Bytes} {h d w : Bytes}

theorem userinfoOf_lead (hx : ∀ u ∈ x, 64 ∉ u) (hw : 64 ∉ w) :
    userinfoOf (lead x ++ w) = x.getD [] := by
  cases x with
  | none => rw [lead, List.nil_append, userinfoOf, if_neg hw, Option.getD_none]
  | some u =>
      rw [lead, List.append_assoc, List.singleton_append, userinfoOf, if_pos (by simp),
        takeWhile_bne_run (hx u rfl), Option.getD_some]

theorem hostportOf_lead (hx : ∀ u ∈ x, 64 ∉ u) (hw : 64 ∉ w) : hostportOf (lead x ++ w) = w := by
  cases x with
  | none => rw [lead, List.nil_append, hostportOf, if_neg hw]
  | some u =>
      rw [lead, List.append_assoc, List.singleton_append, hostportOf, if_pos (by simp),
        dropWhile_bne_run (hx u rfl), List.tail_cons]

/-- A host as it may stand before a port: a name, or something in brackets. -/
def IsHost (h : Bytes) : Prop :=
  64 ∉ h ∧ ((∀ c ∈ h, isColonOrBracket c = false) ∨ h.getLast? = some 93)

/-- The colon and the digits of a port. -/
def portText (d : Bytes) : Bytes := if d = [] then [] else 58 :: d

theorem portLead_append_colon (hd : ∀ c ∈ d, isColonOrBracket c = false) :
    portLead (h ++ 58 :: d) = h ++ [58] := by
  induction d using List.reverseRecOn with
  | nil => exact List.rdropWhile_concat_neg _ _ _ (by decide)
  | append_singleton d c ih =>
      have hc : isColonOrBracket c = false := hd c (by simp)
      rw [← List.cons_append, ← List.append_assoc, portLead,
        List.rdropWhile_concat_pos _ _ _ (by simp [hc])]
      exact ih fun b hb => hd b (List.mem_append_left _ hb)

theorem rtakeWhile_append_colon (hd : ∀ c ∈ d, isColonOrBracket c = false) :
    (h ++ 58 :: d).rtakeWhile (fun c => !isColonOrBracket c) = d := by
  induction d using List.reverseRecOn with
  | nil => exact List.rtakeWhile_concat_neg _ _ _ (by decide)
  | append_singleton d c ih =>
      have hc : isColonOrBracket c = false := hd c (by simp)
      rw [← List.cons_append, ← List.append_assoc, List.rtakeWhile_concat_pos _ _ _ (by simp [hc]),
        ih fun b hb => hd b (List.mem_append_left _ hb)]

/-- A host without a port has no colon to introduce one. -/
theorem IsHost.getLast_portLead (hh : IsHost h) : (portLead h).getLast? ≠ some 58 := by
  rcases hh.2 with hplain | hlast
  · have hnil : portLead h = [] := List.rdropWhile_eq_nil_iff.mpr (by simpa using hplain)
    simp [hnil]
  · have hself : portLead h = h := by
      refine List.rdropWhile_eq_self_iff.mpr fun hne => ?_
      rw [List.getLast?_eq_some_getLast hne, Option.some.injEq] at hlast
      rw [hlast]
      decide
    rw [hself, hlast]
    decide

theorem isColonOrBracket_of_isDigit {c : UInt8} (h : isDigit c = true) :
    isColonOrBracket c = false := by
  rw [isColonOrBracket, Bool.or_eq_false_iff, beq_eq_false_iff_ne, beq_eq_false_iff_ne]
  constructor <;> (rintro rfl; revert h; decide)

/-- The parts of an authority that is put together of them. -/
theorem parts_of_authority (hx : ∀ u ∈ x, 64 ∉ u) (hh : IsHost h) (hd : d.all isDigit = true) :
    userinfoOf (lead x ++ (h ++ portText d)) = x.getD [] ∧
      hostOf (lead x ++ (h ++ portText d)) = h ∧ portOf (lead x ++ (h ++ portText d)) = d := by
  have hdigits : ∀ c ∈ d, isColonOrBracket c = false := fun c hc =>
    isColonOrBracket_of_isDigit (List.all_eq_true.mp hd c hc)
  have hport : 64 ∉ portText d := by
    rw [portText]
    split
    · exact List.not_mem_nil
    · rintro (_ | ⟨_, hmem⟩)
      exact absurd (List.all_eq_true.mp hd 64 hmem) (by decide)
  have hat : 64 ∉ h ++ portText d := by
    rw [List.mem_append]
    exact fun hmem => hmem.elim hh.1 hport
  refine ⟨userinfoOf_lead hx hat, ?_⟩
  rw [hostOf, portOf, hostportOf_lead hx hat]
  by_cases hnil : d = []
  · simp [hnil, portText, hh.getLast_portLead]
  · rw [portText, if_neg hnil, portLead_append_colon hdigits, rtakeWhile_append_colon hdigits]
    simp

end Authority

end Uri

end Saturn
