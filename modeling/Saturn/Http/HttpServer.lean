import Saturn.Http.Dump

/-!
# `HttpServer`

The loop of `handleClient` on one connection: receive a request, have a servlet handle it, send the
response. The response's `connection` line is printed from the response, the loop goes on by the
request and by a setting of the server.
-/

namespace Saturn

namespace Http

/-- The members of `HttpServer`. -/
structure HttpServer where
  name : Bytes
  isKeepalive : Bool
  deriving Repr, DecidableEq

/-- What one pass of the loop meets: the request that is received, what the servlet makes of the
request and the response, and what `sendResponse` returns. -/
structure Turn where
  request : HttpRequest
  servlet : HttpRequest → HttpResponse → HttpRequest × HttpResponse
  sent : Int

/-- What `handleClient` does on the connection. -/
inductive Event
  | recv (req : Option HttpRequest)
  | send (rsp : HttpResponse) (result : Int)
  | close
  deriving Repr, DecidableEq

/-- `HttpResponse::setHeader` -/
def HttpResponse.setHeader (rsp : HttpResponse) (key val : Bytes) : HttpResponse :=
  { rsp with headers := rsp.headers.set key val }

/-- The response is printed with this `connection` line, behind the fields of its map. -/
def HttpResponse.Carries (rsp : HttpResponse) (value : String) : Prop :=
  mapFields (ascii ": ") rsp.headers ++ (ascii "connection: " ++ ascii value ++ crlf) <+:
    rsp.headerBlock

/-- Something that holds of every response that is sent, and of what follows it. -/
def AtSends (P : HttpResponse → Int → List Event → Prop) (events : List Event) : Prop :=
  ∀ before rsp result after, events = before ++ .send rsp result :: after → P rsp result after

/-- Another request is awaited exactly if the response says so and was sent. -/
def GoesOn (rsp : HttpResponse) (result : Int) (after : List Event) : Prop :=
  (∃ req rest, after = .recv req :: rest) ↔ 0 < result ∧ rsp.Carries "keep-alive"

namespace HttpServer

variable (server : HttpServer)

/-- The response that a servlet gets. -/
def newResponse (req : HttpRequest) : HttpResponse :=
  { HttpResponse.new with
    version := req.version, close := req.close || !server.isKeepalive }.setHeader
      (ascii "Server") server.name

/-- `m_dispatch->handle(req, rsp, session)` -/
def handle (turn : Turn) : HttpRequest × HttpResponse :=
  turn.servlet turn.request (server.newResponse turn.request)

/-- `HttpServer::handleClient`, until no request is received any more. -/
def handleClient : List Turn → List Event
  | [] => [.recv none, .close]
  | turn :: turns =>
    let s := server.handle turn
    .recv (some turn.request) :: .send s.2 turn.sent ::
      if !server.isKeepalive || s.1.close then [.close] else handleClient turns

/-- The loop goes on behind this pass. -/
def staysOpen (turn : Turn) : Bool := server.isKeepalive && !(server.handle turn).1.close

/-- The passes that take place. -/
def passes : List Turn → List Turn
  | [] => []
  | turn :: turns => turn :: if server.staysOpen turn then passes turns else []

/-- The servlet leaves the response with the flag that the loop goes by, and a response behind which
the loop goes on is sent. -/
def Agrees (turn : Turn) : Prop :=
  if server.staysOpen turn then 0 < turn.sent ∧ (server.handle turn).2.close = false
  else turn.sent ≤ 0 ∨ (server.handle turn).2.close = true

/-- One request and the response to it. -/
def exchange (turn : Turn) : List Event :=
  [.recv (some turn.request), .send (server.handle turn).2 turn.sent]

/-- Every request that is received gets one response, its own, before the next is received. -/
def AnswersEach (turns : List Turn) : Prop :=
  ∃ served ending, served <+: turns ∧
    server.handleClient turns = served.flatMap server.exchange ++ ending ∧
    (ending = [.close] ∨ ending = [.recv none, .close])

/-- The loop goes on as the responses say. -/
def GoesOnAsSaid (turns : List Turn) : Prop := AtSends GoesOn (server.handleClient turns)

end HttpServer

section Events

variable {P : HttpResponse → Int → List Event → Prop}

theorem atSends_nil : AtSends P [] := by
  intro before rsp result after h
  exact absurd h (by simp)

theorem atSends_cons {e : Event} {events : List Event} :
    AtSends P (e :: events) ↔
      (∀ rsp result, e = .send rsp result → P rsp result events) ∧ AtSends P events := by
  constructor
  · intro h
    refine ⟨fun rsp result he => h [] rsp result events (by rw [he]; rfl), ?_⟩
    intro before rsp result after heq
    exact h (e :: before) rsp result after (by rw [heq]; rfl)
  · rintro ⟨hhead, htail⟩ before rsp result after heq
    cases before with
    | nil =>
        injection heq with he hevents
        exact hevents ▸ hhead rsp result he
    | cons e' before =>
        injection heq with _ hevents
        exact htail before rsp result after hevents

theorem atSends_recv {req : Option HttpRequest} {events : List Event} :
    AtSends P (.recv req :: events) ↔ AtSends P events := by
  rw [atSends_cons]
  refine and_iff_right ?_
  intro rsp result h
  cases h

theorem atSends_send {rsp : HttpResponse} {result : Int} {events : List Event} :
    AtSends P (.send rsp result :: events) ↔ P rsp result events ∧ AtSends P events := by
  rw [atSends_cons]
  refine and_congr_left fun _ => ⟨fun h => h rsp result rfl, fun h rsp' result' heq => ?_⟩
  cases heq
  exact h

theorem atSends_close : AtSends P [.close] := by
  rw [atSends_cons]
  refine ⟨?_, atSends_nil⟩
  intro rsp result h
  cases h

end Events

namespace HttpServer

variable (server : HttpServer)

theorem handleClient_cons (turn : Turn) (turns : List Turn) :
    server.handleClient (turn :: turns) = server.exchange turn ++
      if server.staysOpen turn then server.handleClient turns else [.close] := by
  rw [handleClient, exchange, staysOpen]
  cases server.isKeepalive <;> cases (server.handle turn).1.close <;> rfl

theorem answersEach (turns : List Turn) : server.AnswersEach turns := by
  induction turns with
  | nil => exact ⟨[], _, List.prefix_rfl, rfl, Or.inr rfl⟩
  | cons turn turns ih =>
      obtain ⟨served, ending, hserved, heq, hending⟩ := ih
      rw [AnswersEach, handleClient_cons]
      cases server.staysOpen turn with
      | true =>
          refine ⟨turn :: served, ending, (List.prefix_cons_inj turn).mpr hserved, ?_, hending⟩
          rw [if_pos rfl, heq, List.flatMap_cons, List.append_assoc]
      | false => exact ⟨[turn], [.close], ⟨turns, rfl⟩, by simp, Or.inl rfl⟩

theorem carries_keepAlive_iff (rsp : HttpResponse) :
    rsp.Carries "keep-alive" ↔ rsp.close = false := by
  rw [HttpResponse.Carries, HttpResponse.headerBlock, connectionField,
    List.append_assoc (mapFields _ _), List.prefix_append_right_inj]
  cases rsp.close <;> simp [ascii, crlf]

/-- What is awaited behind one pass. -/
theorem handleClient_head (turns : List Turn) :
    ∃ req rest, server.handleClient turns = .recv req :: rest := by
  cases turns with
  | nil => exact ⟨none, _, rfl⟩
  | cons turn turns => exact ⟨_, _, rfl⟩

theorem goesOnAsSaid_iff (turns : List Turn) :
    server.GoesOnAsSaid turns ↔ ∀ turn ∈ server.passes turns, server.Agrees turn := by
  rw [GoesOnAsSaid]
  induction turns with
  | nil =>
      rw [handleClient, atSends_recv]
      exact iff_of_true atSends_close fun turn h => absurd h List.not_mem_nil
  | cons turn turns ih =>
      rw [handleClient_cons, exchange, List.cons_append, atSends_recv, List.cons_append, atSends_send,
        List.nil_append, passes, List.forall_mem_cons, GoesOn, carries_keepAlive_iff, Agrees]
      cases server.staysOpen turn with
      | true =>
          rw [if_pos rfl, if_pos rfl, if_pos rfl, ih, iff_true_left (server.handleClient_head turns)]
      | false =>
          have hclose : ¬∃ req rest, [Event.close] = .recv req :: rest := by
            rintro ⟨req, rest, h⟩
            cases h
          have hnone : ∀ turn ∈ ([] : List Turn), server.Agrees turn := fun turn h =>
            absurd h List.not_mem_nil
          rw [if_neg Bool.false_ne_true, if_neg Bool.false_ne_true, if_neg Bool.false_ne_true,
            iff_false_left hclose, and_iff_left atSends_close, and_iff_left hnone, not_and_or,
            Bool.not_eq_false, Int.not_lt]

/-- Every request gets its response, and the loop does as the responses say, exactly if in every
pass that takes place the response agrees with what the loop goes by. -/
theorem doesAsSaid_iff (turns : List Turn) :
    server.AnswersEach turns ∧ server.GoesOnAsSaid turns ↔
      ∀ turn ∈ server.passes turns, server.Agrees turn := by
  rw [goesOnAsSaid_iff]
  exact and_iff_right (server.answersEach turns)

/-- A servlet that closes on its own account. -/
def closingTurn : Turn where
  request := { HttpRequest.new with close := false }
  servlet req rsp := (req, { rsp with close := true })
  sent := 1

/-- Behind a response with `connection: close` the loop goes on. -/
theorem not_goesOnAsSaid : ¬HttpServer.GoesOnAsSaid ⟨ascii "saturn", true⟩ [closingTurn] := by
  intro h
  have hsend := h [.recv (some closingTurn.request)] _ 1 [.recv none, .close] rfl
  have hcarries := (hsend.mp ⟨none, [.close], rfl⟩).2
  exact absurd ((carries_keepAlive_iff _).mp hcarries) (by decide)

end HttpServer

end Http

end Saturn
