import Mathlib.Data.List.Basic

/-!
# `TcpServer::bind`

One call of `bind` tries a list of addresses. It decides by the vector `fails`, to which the caller's
earlier calls may have added, and on failure drops all sockets of the server. What is tried per
address, and what the loop of a caller that tries again does, follows.
-/

namespace Saturn

namespace TcpServer

variable {Address Socket : Type}

/-- One address of a call: the socket that `CreateTCP` returns for it, and what `bind` and `listen`
return on that socket. -/
structure Attempt (Address Socket : Type) where
  addr : Address
  sock : Socket
  bind : Bool
  listen : Bool
  deriving Repr, DecidableEq

/-- The address is bound and the socket listens. -/
def Attempt.ok (t : Attempt Address Socket) : Bool := t.bind && t.listen

/-- The loop of `bind` over the addresses, on `m_socks` and `fails`. -/
def tryAll (m_socks : List Socket) (fails : List Address) :
    List (Attempt Address Socket) → List Socket × List Address
  | [] => (m_socks, fails)
  | t :: ts =>
    if !t.bind then tryAll m_socks (fails ++ [t.addr]) ts
    else if !t.listen then tryAll m_socks (fails ++ [t.addr]) ts
    else tryAll (m_socks ++ [t.sock]) fails ts

/-- What a call of `bind` returns and leaves. -/
structure Result (Address Socket : Type) where
  success : Bool
  socks : List Socket
  fails : List Address
  deriving Repr, DecidableEq

/-- `TcpServer::bind(addrs, fails)` -/
def bind (m_socks : List Socket) (addrs : List (Attempt Address Socket)) (fails : List Address) :
    Result Address Socket :=
  let s := tryAll m_socks fails addrs
  if s.2.isEmpty then ⟨true, s.1, s.2⟩ else ⟨false, [], s.2⟩

/-- `while(!bind(addrs, fails))`: the number of calls until it ends, if it does within these. -/
def retry (m_socks : List Socket) (fails : List Address) :
    List (List (Attempt Address Socket)) → Option Nat
  | [] => none
  | addrs :: calls =>
    let r := bind m_socks addrs fails
    if r.success then some 1 else (retry r.socks r.fails calls).map (· + 1)

/-- No address fails. -/
def AllOk (addrs : List (Attempt Address Socket)) : Prop := ∀ t ∈ addrs, t.ok = true

/-- The sockets that listen. -/
def listening (addrs : List (Attempt Address Socket)) : List Socket :=
  (addrs.filter Attempt.ok).map Attempt.sock

/-- The addresses that fail. -/
def failing (addrs : List (Attempt Address Socket)) : List Address :=
  (addrs.filter fun t => !t.ok).map Attempt.addr

/-- A call is all or nothing: it succeeds if all of its addresses do, adds those that fail, and
leaves the sockets as they were or has all of its own in addition. -/
structure AllOrNothing (m_socks : List Socket) (addrs : List (Attempt Address Socket))
    (fails : List Address) : Prop where
  verdict : (bind m_socks addrs fails).success = true ↔ AllOk addrs
  appended : (bind m_socks addrs fails).fails = fails ++ failing addrs
  unchanged : (bind m_socks addrs fails).success = false → (bind m_socks addrs fails).socks = m_socks
  grown : (bind m_socks addrs fails).success = true →
    (bind m_socks addrs fails).socks = m_socks ++ listening addrs

/-- The caller's loop ends with the first call all of whose addresses succeed. -/
def EndsWithSuccess (m_socks : List Socket) (fails : List Address)
    (calls : List (List (Attempt Address Socket))) : Prop :=
  retry m_socks fails calls = (calls.findIdx? fun addrs => addrs.all Attempt.ok).map (· + 1)

section Call

variable (m_socks : List Socket) (addrs : List (Attempt Address Socket)) (fails : List Address)

theorem tryAll_eq : tryAll m_socks fails addrs = (m_socks ++ listening addrs, fails ++ failing addrs) := by
  induction addrs generalizing m_socks fails with
  | nil => simp [tryAll, listening, failing]
  | cons t ts ih =>
      obtain ⟨addr, sock, bound, listens⟩ := t
      rw [tryAll]
      cases bound <;> cases listens <;> simp [ih, listening, failing, Attempt.ok]

theorem failing_eq_nil_iff : failing addrs = [] ↔ AllOk addrs := by
  simp [failing, List.filter_eq_nil_iff, AllOk]

theorem bind_eq : bind m_socks addrs fails =
    if fails = [] ∧ failing addrs = [] then ⟨true, m_socks ++ listening addrs, []⟩
    else ⟨false, [], fails ++ failing addrs⟩ := by
  rw [bind, tryAll_eq]
  simp only [List.isEmpty_iff, List.append_eq_nil_iff]
  split
  · rename_i h
    rw [h.1, h.2]
    rfl
  · rfl

/-- A call is all or nothing if no address fails, in this call or before, or if one fails now and
there is no socket to lose. -/
theorem allOrNothing_iff : AllOrNothing m_socks addrs fails ↔
    (fails = [] ∧ AllOk addrs) ∨ (m_socks = [] ∧ ¬AllOk addrs) := by
  have hbind := bind_eq m_socks addrs fails
  rw [← failing_eq_nil_iff]
  by_cases hboth : fails = [] ∧ failing addrs = []
  · rw [if_pos hboth] at hbind
    refine iff_of_true ?_ (Or.inl hboth)
    exact
      { verdict := by rw [hbind]; exact iff_of_true rfl ((failing_eq_nil_iff addrs).mp hboth.2)
        appended := by rw [hbind, hboth.1, hboth.2]; rfl
        unchanged := by rw [hbind]; exact fun h => absurd h (by simp)
        grown := by rw [hbind]; exact fun _ => rfl }
  · rw [if_neg hboth] at hbind
    rw [or_iff_right hboth]
    constructor
    · intro h
      refine ⟨?_, fun hnone => ?_⟩
      · have hsocks := h.unchanged (by rw [hbind])
        rw [hbind] at hsocks
        exact hsocks.symm
      · have hsuccess := h.verdict.mpr ((failing_eq_nil_iff addrs).mp hnone)
        rw [hbind] at hsuccess
        cases hsuccess
    · rintro ⟨hsocks, hsome⟩
      exact
        { verdict := by
            rw [hbind]
            exact iff_of_false (by simp) fun hall => hsome ((failing_eq_nil_iff addrs).mpr hall)
          appended := by rw [hbind]
          unchanged := by rw [hbind, hsocks]; exact fun _ => rfl
          grown := by rw [hbind]; exact fun h => absurd h (by simp) }

end Call

section Retry

variable (m_socks : List Socket) (fails : List Address)
  (calls : List (List (Attempt Address Socket)))

/-- With a failure of an earlier call in the vector no call succeeds. -/
theorem retry_of_ne {fails : List Address} (h : fails ≠ []) : retry m_socks fails calls = none := by
  induction calls generalizing m_socks fails with
  | nil => rfl
  | cons addrs calls ih =>
      have hbind : bind m_socks addrs fails = ⟨false, [], fails ++ failing addrs⟩ := by
        rw [bind_eq, if_neg fun hboth => h hboth.1]
      rw [retry, hbind]
      simp only [Bool.false_eq_true, if_false]
      rw [ih _ fun happend => h (List.append_eq_nil_iff.mp happend).1]
      rfl

/-- The loop ends with its first call or never. -/
theorem retry_cons (addrs : List (Attempt Address Socket)) :
    retry m_socks fails (addrs :: calls) =
      if fails = [] ∧ failing addrs = [] then some 1 else none := by
  rw [retry, bind_eq]
  by_cases hboth : fails = [] ∧ failing addrs = []
  · rw [if_pos hboth, if_pos hboth]
    rfl
  · rw [if_neg hboth, if_neg hboth]
    simp only [Bool.false_eq_true, if_false]
    rw [retry_of_ne _ _ fun happend => hboth (List.append_eq_nil_iff.mp happend)]
    rfl

theorem endsWithSuccess_iff : EndsWithSuccess m_socks fails calls ↔
    (∀ addrs ∈ calls, ¬AllOk addrs) ∨
      (fails = [] ∧ ∃ addrs ∈ calls.head?, AllOk addrs) := by
  rw [EndsWithSuccess]
  cases calls with
  | nil => simp [retry]
  | cons addrs calls =>
      have hhead : (∃ a ∈ some addrs, AllOk a) ↔ AllOk addrs := by simp
      have hall (addrs : List (Attempt Address Socket)) :
          addrs.all Attempt.ok = true ↔ AllOk addrs := List.all_eq_true
      rw [retry_cons, List.findIdx?_cons, List.forall_mem_cons, List.head?_cons, hhead]
      by_cases hfirst : AllOk addrs
      · rw [if_pos ((hall addrs).mpr hfirst), or_iff_right fun h => h.1 hfirst, and_iff_left hfirst]
        by_cases hfails : fails = []
        · rw [if_pos ⟨hfails, (failing_eq_nil_iff addrs).mpr hfirst⟩]
          exact iff_of_true rfl hfails
        · rw [if_neg fun h => hfails h.1]
          exact iff_of_false (by simp) hfails
      · rw [if_neg fun h => hfirst ((failing_eq_nil_iff addrs).mp h.2),
          if_neg (mt (hall addrs).mp hfirst), or_iff_left fun h => hfirst h.2, and_iff_right hfirst,
          eq_comm, Option.map_eq_none_iff, Option.map_eq_none_iff, List.findIdx?_eq_none_iff]
        refine forall₂_congr fun addrs _ => ?_
        rw [← hall addrs, Bool.not_eq_true]

end Retry

/-- Where a call is all or nothing, and where a loop of calls ends with its first success. -/
theorem bind_iff (m_socks : List Socket) (addrs : List (Attempt Address Socket))
    (fails : List Address) (calls : List (List (Attempt Address Socket))) :
    (AllOrNothing m_socks addrs fails ↔
        (fails = [] ∧ AllOk addrs) ∨ (m_socks = [] ∧ ¬AllOk addrs)) ∧
      (EndsWithSuccess m_socks fails calls ↔
        (∀ addrs ∈ calls, ¬AllOk addrs) ∨
          (fails = [] ∧ ∃ addrs ∈ calls.head?, AllOk addrs)) :=
  ⟨allOrNothing_iff m_socks addrs fails, endsWithSuccess_iff m_socks fails calls⟩

/-- The port is taken at first and free at the second call: both fail, and a socket bound before is
lost. -/
theorem bind_wrong :
    retry [7] [] [[⟨8033, 1, false, false⟩], [⟨8033, 2, true, true⟩]] = none ∧
      bind [7] [⟨8033, 1, false, false⟩] [] = ⟨false, [], [8033]⟩ ∧
      bind [] [⟨8033, 2, true, true⟩] [8033] = ⟨false, [], [8033]⟩ ∧
      ¬AllOrNothing [7] [⟨8033, 1, false, false⟩] [] := by
  refine ⟨rfl, rfl, rfl, fun h => ?_⟩
  exact absurd (h.unchanged rfl) (by decide)

end TcpServer

end Saturn
