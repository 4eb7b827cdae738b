import Saturn.Http.ChunkedBody
import Saturn.Uri.Create

/-!
# How `Uri::Create` takes a URI apart

It is right but for two things. The mark that is set at a digit behind the first colon stays when
the digits turn out to be part of a userinfo; and `atoi` makes an `int` of the port.
-/

namespace Saturn

open Http (Bytes ascii digitsValue isDigit longToInt)

namespace Uri

/-- The fields are the components. -/
structure Decomposes (u : Uri) (parts : Components) : Prop where
  scheme : u.scheme = parts.scheme
  userinfo : u.userinfo = userinfoOf parts.authority
  host : u.host = hostOf parts.authority
  port : u.port = portValue parts.authority
  path : u.path = parts.path
  query : u.query = parts.query.getD []
  fragment : u.fragment = parts.fragment.getD []

theorem length_afterColon_lt {x : Bytes} (h : digitBehindColon x = true) :
    (afterColon x).length < x.length := by
  have hle : (x.dropWhile (· != 58)).length ≤ x.length := List.length_dropWhile_le _ _
  have hne : afterColon x ≠ [] := fun hnil => by
    rw [digitBehindColon, hnil] at h
    cases h
  have hpos := List.length_pos_iff.mpr hne
  rw [afterColon, List.length_tail] at hpos ⊢
  omega

/-- The machine keeps a whole userinfo unless a digit is behind its first colon. -/
theorem kept_eq_self_iff {x : Bytes} : kept x = x ↔ digitBehindColon x = false := by
  rw [kept]
  by_cases h : digitBehindColon x = true
  · rw [if_pos h, h]
    refine ⟨fun heq => ?_, fun hfalse => absurd hfalse.symm Bool.false_ne_true⟩
    have hlt := length_afterColon_lt h
    rw [heq] at hlt
    omega
  · rw [if_neg h]
    exact ⟨fun _ => Bool.not_eq_true _ ▸ h, fun _ => rfl⟩

/-- A port is read as its value if that is an `int`. -/
theorem portNumber_eq_iff {d : Bytes} : portNumber d = digitsValue 10 d ↔ digitsValue 10 d < 2 ^ 31 := by
  constructor
  · intro h
    have hlt : portNumber d < 2 ^ 31 := Int.bmod_lt (by decide)
    omega
  · exact Http.longToInt_of_lt

theorem decomposes_iff {rest : Rest} {parts : Components} {u : Uri}
    (h : create rest parts.text = .ok (some u)) :
    u.Decomposes parts ↔
      digitBehindColon (userinfoOf parts.authority) = false ∧ portValue parts.authority < 2 ^ 31 := by
  obtain ⟨-, rfl⟩ := create_eq_some_iff.mp h
  constructor
  · intro hu
    exact ⟨kept_eq_self_iff.mp hu.userinfo, portNumber_eq_iff.mp hu.port⟩
  · rintro ⟨hdigit, hport⟩
    exact ⟨rfl, kept_eq_self_iff.mpr hdigit, rfl, portNumber_eq_iff.mpr hport, rfl, rfl, rfl⟩

/-- `http://user:pw@host:80/p?q#f` -/
def fullComponents : Components where
  scheme := ascii "http"
  authority := ascii "user:pw@host:80"
  path := ascii "/p"
  query := some (ascii "q")
  fragment := some (ascii "f")
  scheme_valid := by decide
  authority_valid := by decide +kernel
  path_valid := by decide
  path_end := by decide
  query_end := by decide

/-- `http://user:80@host/` -/
def digitComponents : Components where
  scheme := ascii "http"
  authority := ascii "user:80@host"
  path := ascii "/"
  query := none
  fragment := none
  scheme_valid := by decide
  authority_valid := by decide +kernel
  path_valid := by decide
  path_end := by decide
  query_end := by decide

/-- What `Uri::Create` makes of it. -/
def digitUri : Uri where
  scheme := ascii "http"
  userinfo := ascii "80"
  host := ascii "host"
  path := ascii "/"
  query := []
  fragment := []
  port := 0

theorem decomposes_full : ∃ u, create .refuse fullComponents.text = .ok (some u) ∧
    (u.Decomposes fullComponents ↔
      digitBehindColon (userinfoOf fullComponents.authority) = false ∧
        portValue fullComponents.authority < 2 ^ 31) :=
  have h : create .refuse fullComponents.text = .ok (some fullComponents.decoded) := by decide
  ⟨_, h, decomposes_iff h⟩

/-- The userinfo `user:80` comes out as `80`. -/
theorem not_decomposes_digit : ¬ ∀ (rest : Rest) (parts : Components) (u : Uri),
    create rest parts.text = .ok (some u) → u.Decomposes parts := by
  intro h
  have hcreate : create .refuse digitComponents.text = .ok (some digitUri) := by decide
  have huser := (h _ _ _ hcreate).userinfo
  revert huser
  decide

end Uri

end Saturn
