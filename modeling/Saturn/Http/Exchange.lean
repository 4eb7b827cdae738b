import Saturn.Http.HttpServer
import Saturn.Http.ResponseRoundTrip
import Saturn.Misc.Run

/-!
# A client and a server on one connection

The calls of `sendRequest` and `recvResponse` on one side and the loop of `HttpServer::handleClient`
on the other, in any order in which the reads do not block. The client may send requests before it has
the responses to earlier ones; as long as no read reaches from one message into the next, requests and
responses stay in their order.
-/

namespace Saturn

namespace Http

/-- A connection: the bytes under way, whether the client has its end open and the server is in its
loop; and what has been sent, served and received on it. -/
structure Conversation where
  toServer : Bytes
  toClient : Bytes
  connected : Bool
  serving : Bool
  requests : List HttpRequest
  turns : List Turn
  responses : List HttpResponse

namespace Conversation

/-- A step of one of the two sides. A read meets the bytes as they are cut, and `recvRequest` what its
parser is allocated over. -/
inductive Label
  /-- `HttpConnection::sendRequest` -/
  | request (req : HttpRequest)
  /-- One pass of the loop of `HttpServer::handleClient`. -/
  | serve (junk : Junk) (cuts : List Nat)
      (servlet : HttpRequest → HttpResponse → HttpRequest × HttpResponse)
  /-- `HttpConnection::recvResponse` -/
  | response (cuts : List Nat)

/-- A connection on which nothing has been sent. -/
def start : Conversation := ⟨[], [], true, true, [], [], []⟩

variable (server : HttpServer) (senv cenv : Env)

/-- The pass of the server's loop on a request, with the `int` that `writeFixSize` returns for the
response. -/
def turnFor (servlet : HttpRequest → HttpResponse → HttpRequest × HttpResponse)
    (req : HttpRequest) : Turn where
  request := req
  servlet := servlet
  sent := toInt32 (servlet req (server.newResponse req)).2.dump.length

/-- One step. A read that has nothing to return blocks while the other side is there. A side that
cannot read a message closes its end, and on a closed one nothing is sent or received. -/
def step (s : Conversation) : Label → Option Conversation
  | .request req =>
    some (if s.connected then
      { s with toServer := s.toServer ++ req.dump, requests := s.requests ++ [req] }
    else s)
  | .serve junk cuts servlet =>
    if !s.serving || s.toServer.isEmpty && s.connected then none
    else match recvRequest senv junk ⟨s.toServer, cuts⟩ with
      | .ok ⟨some (req, t), _⟩ =>
        let turn := turnFor server servlet req
        some { s with
          toServer := t.unread
          toClient := s.toClient ++ (server.handle turn).2.dump
          serving := server.staysOpen turn
          turns := s.turns ++ [turn] }
      | _ => some { s with serving := false }
  | .response cuts =>
    if !s.connected then some s
    else if s.serving && s.toClient.isEmpty then none
    else match (recvResponse (responseParser cenv.lexicalCast) cenv.bufferSize
        ⟨s.toClient, cuts⟩).outcome with
      | .returned (rsp, t) =>
        some { s with toClient := t.unread, responses := s.responses ++ [rsp] }
      | _ => some { s with connected := false }

/-- A first read of `first` bytes brings the `head` of a message and reaches no further than its end. -/
def Within (head message : Bytes) (first : Nat) : Prop :=
  head.length ≤ first ∧ first ≤ message.length

instance (head message : Bytes) (first : Nat) : Decidable (Within head message first) :=
  inferInstanceAs (Decidable (_ ∧ _))

/-- Both sides send what `dump` can write; the header block of each message arrives in the first read
of the call that receives it, and that read does not reach into the next message. -/
def Sound (s : Conversation) : Label → Prop
  | .request req => ∀ relaxed, Serialisable senv.rest relaxed req
  | .serve _ cuts servlet => ∀ req, s.requests[s.turns.length]? = some req →
      Within req.head req.dump (ready s.toServer.length cuts senv.bufferSize) ∧
        (server.handle (turnFor server servlet (sentMessage req).request)).2.Serialisable
  | .response cuts => ∀ turn, s.turns[s.responses.length]? = some turn →
      Within (server.handle turn).2.block.bytes (server.handle turn).2.dump
        (ready s.toClient.length cuts cenv.bufferSize)

/-- The server has received the request, and the client the response to it. -/
def Answered (turn : Turn) (rsp : HttpResponse) : Prop := (server.handle turn).2.Survives rsp

/-- What a user of the connection relies on: the passes of the server's loop are for the first of the
requests, in order and each once, what `handleClient` does with them; and the responses are for the
first of the passes, in order and each once. -/
structure InOrder (s : Conversation) : Prop where
  turns : ∃ done, done <+: s.requests ∧ List.Forall₂ (fun req turn => Survives req turn.request)
    done s.turns
  passes : server.passes s.turns = s.turns
  responses : ∃ done, done <+: s.turns ∧ List.Forall₂ (Answered server) done s.responses

/-- The invariant of a connection: what is under way to the server are the requests not served yet,
and what is under way to the client the responses not received yet. -/
structure Inv (s : Conversation) : Prop where
  turns : ∃ done unserved, s.requests = done ++ unserved ∧
    List.Forall₂ (fun req turn => Survives req turn.request) done s.turns ∧
    s.toServer = unserved.flatMap HttpRequest.dump
  serialisable : ∀ req ∈ s.requests, ∀ relaxed, Serialisable senv.rest relaxed req
  responses : ∃ done unread, s.turns = done ++ unread ∧
    List.Forall₂ (Answered server) done s.responses ∧
    s.toClient = unread.flatMap fun turn => (server.handle turn).2.dump
  writable : ∀ turn ∈ s.turns, (server.handle turn).2.Serialisable
  passes : server.passes s.turns = s.turns
  open_ : s.serving = true → ∀ turn ∈ s.turns, server.staysOpen turn = true

variable {server senv cenv} {s t : Conversation}

theorem passes_concat {turns : List Turn} (turn : Turn)
    (h : ∀ turn ∈ turns, server.staysOpen turn = true) :
    server.passes (turns ++ [turn]) = turns ++ [turn] := by
  induction turns with
  | nil => simp [HttpServer.passes]
  | cons first turns ih =>
      rw [List.cons_append, HttpServer.passes, if_pos (h first List.mem_cons_self),
        ih fun turn hturn => h turn (List.mem_cons_of_mem _ hturn)]

theorem Inv.inOrder (h : Inv server senv s) : InOrder server s := by
  obtain ⟨done, unserved, hrequests, hturns, -⟩ := h.turns
  obtain ⟨done', unread, hturns', hresponses, -⟩ := h.responses
  exact ⟨⟨done, ⟨unserved, hrequests.symm⟩, hturns⟩, h.passes,
    ⟨done', ⟨unread, hturns'.symm⟩, hresponses⟩⟩

theorem inv_start : Inv server senv start where
  turns := ⟨[], [], rfl, .nil, rfl⟩
  serialisable := fun _ h => absurd h List.not_mem_nil
  responses := ⟨[], [], rfl, .nil, rfl⟩
  writable := fun _ h => absurd h List.not_mem_nil
  passes := rfl
  open_ := fun _ _ h => absurd h List.not_mem_nil

section Messages

variable {req : HttpRequest} {turn : Turn}

theorem request_dump_ne : req.dump ≠ [] := by simp [HttpRequest.dump, HttpRequest.head, crlf]

theorem response_dump_ne : (server.handle turn).2.dump ≠ [] := by simp [HttpResponse.dump, crlf]

/-- The next request to be served. -/
theorem getElem?_next {done unserved : List HttpRequest} {turns : List Turn}
    (hturns : List.Forall₂ (fun req turn => Survives req turn.request) done turns) :
    (done ++ req :: unserved)[turns.length]? = some req := by
  rw [← hturns.length_eq, List.getElem?_append_right (Nat.le_refl _), Nat.sub_self]
  rfl

/-- The next response to be received. -/
theorem getElem?_next_turn {done unread : List Turn} {responses : List HttpResponse}
    (hresponses : List.Forall₂ (Answered server) done responses) :
    (done ++ turn :: unread)[responses.length]? = some turn := by
  rw [← hresponses.length_eq, List.getElem?_append_right (Nat.le_refl _), Nat.sub_self]
  rfl

end Messages

/-- The client sends a request. -/
theorem inv_request {req : HttpRequest} (h : Inv server senv s)
    (hsound : ∀ relaxed, Serialisable senv.rest relaxed req) :
    Inv server senv
      { s with toServer := s.toServer ++ req.dump, requests := s.requests ++ [req] } where
  turns := by
    obtain ⟨done, unserved, hrequests, hturns, htoServer⟩ := h.turns
    refine ⟨done, unserved ++ [req], ?_, hturns, ?_⟩
    · rw [hrequests, List.append_assoc]
    · rw [htoServer, List.flatMap_append, List.flatMap_singleton]
  serialisable := by
    intro req' hmem
    rcases List.mem_append.mp hmem with hmem | hmem
    · exact h.serialisable req' hmem
    · rw [List.mem_singleton.mp hmem]
      exact hsound
  responses := h.responses
  writable := h.writable
  passes := h.passes
  open_ := h.open_

section Steps

variable {req : HttpRequest} {turn : Turn} {junk : Junk} {cuts : List Nat} {rest : Bytes}
  {servlet : HttpRequest → HttpResponse → HttpRequest × HttpResponse}

/-- The server's loop takes the request off the connection and puts the response on it. -/
theorem step_serve (serving : s.serving = true)
    (serialisable : ∀ relaxed, Serialisable senv.rest relaxed req)
    (toServer : s.toServer = req.dump ++ rest)
    (hwithin : Within req.head req.dump (ready s.toServer.length cuts senv.bufferSize)) :
    step server senv cenv s (.serve junk cuts servlet) = some { s with
      toServer := rest
      toClient := s.toClient ++
        (server.handle (turnFor server servlet (sentMessage req).request)).2.dump
      serving := server.staysOpen (turnFor server servlet (sentMessage req).request)
      turns := s.turns ++ [turnFor server servlet (sentMessage req).request] } := by
  have hm : (sentMessage req).WellFormed senv junk :=
    sentMessage_wellFormed (serialisable junk.uriRelaxed) (hwithin.1.trans (ready_le ..))
  obtain ⟨u, n, hrecv, hunread⟩ :=
    recvRequest_message hm (s := ⟨s.toServer, cuts⟩) toServer hwithin.1
  have hrest : u.unread = rest := by
    have hmax : max (Stream.ready ⟨s.toServer, cuts⟩ senv.bufferSize) (sentMessage req).bytes.length =
        req.dump.length := max_eq_right hwithin.2
    rw [hunread, hmax]
    simp only [toServer, List.drop_left]
  have hne : s.toServer.isEmpty = false := by simp [toServer, request_dump_ne]
  simp [step, serving, hne, hrecv, hrest]

variable (senv) in
/-- The client takes the response off the connection. -/
theorem step_response (connected : s.connected = true)
    (serialisable : (server.handle turn).2.Serialisable)
    (toClient : s.toClient = (server.handle turn).2.dump ++ rest)
    (hwithin : Within (server.handle turn).2.block.bytes (server.handle turn).2.dump
      (ready s.toClient.length cuts cenv.bufferSize)) :
    ∃ rsp, Answered server turn rsp ∧ step server senv cenv s (.response cuts) = some { s with
      toClient := rest, responses := s.responses ++ [rsp] } := by
  obtain ⟨rsp, u, hrecv, hsurvives, hunread⟩ :=
    recvResponse_sent serialisable (s := ⟨s.toClient, cuts⟩) toClient hwithin.1
  have hrest : u.unread = rest := by
    have hmax : max (Stream.ready ⟨s.toClient, cuts⟩ cenv.bufferSize)
        (server.handle turn).2.dump.length = (server.handle turn).2.dump.length :=
      max_eq_right hwithin.2
    rw [hunread, hmax]
    simp only [toClient, List.drop_left]
  have hne : s.toClient.isEmpty = false := by simp [toClient, response_dump_ne]
  exact ⟨rsp, hsurvives, by simp [step, connected, hne, hrecv, hrest]⟩

/-- On a connection that the client has closed the server's loop ends. -/
theorem step_serve_nil (serving : s.serving = true) (connected : s.connected = false)
    (toServer : s.toServer = []) :
    step server senv cenv s (.serve junk cuts servlet) = some { s with serving := false } := by
  have hrecv : recvRequest senv junk ⟨[], cuts⟩ = .ok ⟨none, 0⟩ := by
    rw [recvRequest, recvHeader, headerLoop, Stream.read_of_nil rfl]
    rfl
  simp [step, serving, connected, toServer, hrecv]

/-- Behind the server's loop nothing more is received. -/
theorem step_response_nil (connected : s.connected = true) (serving : s.serving = false)
    (toClient : s.toClient = []) :
    step server senv cenv s (.response cuts) = some { s with connected := false } := by
  have hrecv : (recvResponse (responseParser cenv.lexicalCast) cenv.bufferSize
      ⟨[], cuts⟩).outcome = .gaveUp := by
    refine Logged.outcome_bind_gaveUp ?_
    rw [responseHeader, parseLoop, Logged.outcome_tell, Stream.read_of_nil rfl]
    rfl
  simp [step, connected, serving, toClient, hrecv]

theorem inv_serve (h : Inv server senv s)
    (hsound : Sound server senv cenv s (.serve junk cuts servlet))
    (hstep : step server senv cenv s (.serve junk cuts servlet) = some t) : Inv server senv t := by
  obtain ⟨done, unserved, hrequests, hturns, htoServer⟩ := h.turns
  cases hserving : s.serving with
  | false => simp [step, hserving] at hstep
  | true =>
      cases unserved with
      | nil =>
          cases hconnected : s.connected with
          | true => simp [step, hserving, hconnected, htoServer] at hstep
          | false =>
              rw [step_serve_nil hserving hconnected htoServer, Option.some.injEq] at hstep
              subst hstep
              exact ⟨h.turns, h.serialisable, h.responses, h.writable, h.passes,
                fun hfalse => absurd hfalse (by simp)⟩
      | cons req unserved =>
          obtain ⟨hwithin, hresponse⟩ := hsound req (by rw [hrequests]; exact getElem?_next hturns)
          have hserialisable := h.serialisable req (by simp [hrequests])
          rw [step_serve hserving hserialisable htoServer hwithin, Option.some.injEq] at hstep
          subst hstep
          have hopen := h.open_ hserving
          obtain ⟨done', unread, hturns', hresponses, htoClient⟩ := h.responses
          refine ⟨⟨done ++ [req], unserved, ?_, ?_, rfl⟩, h.serialisable,
            ⟨done', unread ++ [turnFor server servlet (sentMessage req).request], ?_, hresponses, ?_⟩,
            fun turn hturn => ?_, passes_concat _ hopen, fun hserving turn hturn => ?_⟩
          · rw [hrequests, List.append_assoc]
            rfl
          · exact List.rel_append hturns (.cons (survives_request (hserialisable junk.uriRelaxed)) .nil)
          · rw [hturns', List.append_assoc]
          · rw [htoClient, List.flatMap_append, List.flatMap_singleton]
          · rcases List.mem_append.mp hturn with hturn | hturn
            · exact h.writable turn hturn
            · rwa [List.mem_singleton.mp hturn]
          · rcases List.mem_append.mp hturn with hturn | hturn
            · exact hopen turn hturn
            · rwa [List.mem_singleton.mp hturn]

theorem inv_response (h : Inv server senv s) (hsound : Sound server senv cenv s (.response cuts))
    (hstep : step server senv cenv s (.response cuts) = some t) : Inv server senv t := by
  obtain ⟨done, unread, hturns, hresponses, htoClient⟩ := h.responses
  cases hconnected : s.connected with
  | false =>
      simp only [step, hconnected, Bool.not_false, if_true, Option.some.injEq] at hstep
      exact hstep ▸ h
  | true =>
      cases unread with
      | nil =>
          cases hserving : s.serving with
          | true => simp [step, hconnected, hserving, htoClient] at hstep
          | false =>
              rw [step_response_nil hconnected hserving htoClient, Option.some.injEq] at hstep
              subst hstep
              exact ⟨h.turns, h.serialisable, h.responses, h.writable, h.passes, h.open_⟩
      | cons turn unread =>
          have hwithin := hsound turn (by rw [hturns]; exact getElem?_next_turn hresponses)
          obtain ⟨rsp, hanswered, heq⟩ := step_response senv hconnected
            (h.writable turn (by simp [hturns])) htoClient hwithin
          rw [heq, Option.some.injEq] at hstep
          subst hstep
          refine ⟨h.turns, h.serialisable, ⟨done ++ [turn], unread, ?_, ?_, rfl⟩, h.writable,
            h.passes, h.open_⟩
          · rw [hturns, List.append_assoc]
            rfl
          · exact List.rel_append hresponses (.cons hanswered .nil)

end Steps

theorem inv_step {label : Label} (h : Inv server senv s) (hsound : Sound server senv cenv s label)
    (hstep : step server senv cenv s label = some t) : Inv server senv t := by
  cases label with
  | request req =>
      rw [step, Option.some.injEq] at hstep
      subst hstep
      split
      · exact inv_request h hsound
      · exact h
  | serve junk cuts servlet => exact inv_serve h hsound hstep
  | response cuts => exact inv_response h hsound hstep

/-- In whatever order the two sides move, the requests are served in their order and each once, and
the responses are those to the requests, in their order. -/
theorem conversation_inOrder (server : HttpServer) (senv cenv : Env) (labels : List Label)
    (h : StepsMeet (step server senv cenv) (Sound server senv cenv) start labels) :
    StatesMeet (step server senv cenv) (InOrder server) start labels :=
  statesMeet_of_invariant (fun _ => Inv.inOrder) (fun _ _ _ => inv_step) labels start inv_start h

/-! ## Nothing gets stuck -/

/-- The step can go on: a pass has a request to serve, and a call of `recvResponse` a response to
return; or the other side is not there any more. -/
def Due (s : Conversation) : Label → Prop
  | .request _ => True
  | .serve .. => s.serving = true ∧
      (s.turns.length < s.requests.length ∨ s.connected = false)
  | .response _ =>
      s.responses.length < s.turns.length ∨ s.connected = false ∨ s.serving = false

/-- How many passes and responses are left until every request is answered. -/
def left (s : Conversation) : Nat :=
  (s.requests.length - s.turns.length) + (s.requests.length - s.responses.length)

/-- A pass, or a call of `recvResponse`. -/
def Label.Answers : Label → Prop
  | .request _ => False
  | .serve .. | .response _ => True

/-- The lists are as long as what is under way says. -/
theorem Inv.lengths (h : Inv server senv s) :
    s.responses.length ≤ s.turns.length ∧ s.turns.length ≤ s.requests.length ∧
      (s.toServer = [] ↔ s.turns.length = s.requests.length) ∧
      (s.toClient = [] ↔ s.responses.length = s.turns.length) := by
  obtain ⟨done, unserved, hrequests, hturns, htoServer⟩ := h.turns
  obtain ⟨done', unread, hturns', hresponses, htoClient⟩ := h.responses
  have hlength := hturns.length_eq
  have hlength' := hresponses.length_eq
  rw [hrequests, htoServer, htoClient, List.length_append, ← hlength]
  have hserver : unserved.flatMap HttpRequest.dump = [] ↔ unserved.length = 0 := by
    cases unserved <;> simp [request_dump_ne]
  have hclient : (unread.flatMap fun turn => (server.handle turn).2.dump) = [] ↔
      unread.length = 0 := by
    cases unread <;> simp [response_dump_ne]
  have hsum : done.length = done'.length + unread.length := by
    rw [hlength, hturns', List.length_append]
  rw [hserver, hclient]
  omega

/-- Just the steps that are due are enabled. -/
theorem Inv.enabled_iff (h : Inv server senv s) (label : Label) :
    (step server senv cenv s label).isSome = true ↔ s.Due label := by
  obtain ⟨-, hserved, hserver, hclient⟩ := h.lengths
  obtain ⟨hread, -⟩ := h.lengths
  cases label with
  | request req => exact iff_of_true rfl trivial
  | serve junk cuts servlet =>
      have hsome : (step server senv cenv s (.serve junk cuts servlet)).isSome = true ↔
          s.serving = true ∧ ¬ (s.toServer = [] ∧ s.connected = true) := by
        simp only [step]
        split
        · rename_i hblocks
          simp only [Option.isSome_none, Bool.false_eq_true, false_iff]
          simpa [imp_iff_not_or, or_comm, and_comm] using hblocks
        · rename_i hgoes
          simp only [Bool.or_eq_true, Bool.not_eq_true', Bool.and_eq_true, List.isEmpty_iff,
            not_or, Bool.not_eq_false] at hgoes
          refine iff_of_true ?_ hgoes
          split <;> rfl
      rw [hsome, Due, hserver, not_and_or, Bool.not_eq_true]
      exact and_congr_right fun _ => or_congr_left (by omega)
  | response cuts =>
      have hsome : (step server senv cenv s (.response cuts)).isSome = true ↔
          s.connected = false ∨ ¬ (s.serving = true ∧ s.toClient = []) := by
        simp only [step]
        split
        · rename_i hclosed
          exact iff_of_true rfl (Or.inl (by simpa using hclosed))
        · rename_i hconnected
          split
          · rename_i hblocks
            simp only [Option.isSome_none, Bool.false_eq_true, false_iff]
            simp only [Bool.and_eq_true, List.isEmpty_iff] at hblocks
            simp only [Bool.not_eq_true', Bool.not_eq_false] at hconnected
            simp [hconnected, hblocks.1, hblocks.2]
          · rename_i hgoes
            simp only [Bool.and_eq_true, List.isEmpty_iff] at hgoes
            refine iff_of_true ?_ (Or.inr hgoes)
            split <;> rfl
      rw [hsome, Due, hclient, not_and_or, Bool.not_eq_true]
      have hlt : ¬ s.responses.length = s.turns.length ↔ s.responses.length < s.turns.length := by
        omega
      rw [hlt]
      exact ⟨fun h => by tauto, fun h => by tauto⟩

/-- The step leaves both sides there. -/
structure Stays (s t : Conversation) : Prop where
  serving : t.serving = true → s.serving = true
  connected : t.connected = true → s.connected = true

/-- A side that has left does not come back. -/
theorem stays_step {label : Label} (hstep : step server senv cenv s label = some t) : Stays s t := by
  cases label with
  | request req =>
      rw [step, Option.some.injEq] at hstep
      subst hstep
      constructor <;> split <;> exact id
  | serve junk cuts servlet =>
      simp only [step] at hstep
      split at hstep
      · cases hstep
      · rename_i hgoes
        have hserving : s.serving = true := by
          cases hs : s.serving with
          | true => rfl
          | false => simp [hs] at hgoes
        split at hstep <;> cases hstep <;> exact ⟨fun _ => hserving, id⟩
  | response cuts =>
      simp only [step] at hstep
      split at hstep
      · cases hstep
        exact ⟨id, id⟩
      · rename_i hconnected
        have hs : s.connected = true := by simpa using hconnected
        split at hstep
        · cases hstep
        · split at hstep <;> cases hstep <;> exact ⟨id, fun _ => hs⟩

/-- A pass or a response that leaves both sides there brings the answers one step nearer. -/
theorem Inv.left_step (h : Inv server senv s) {label : Label} (hanswers : label.Answers)
    (hstep : step server senv cenv s label = some t) (hserving : t.serving = true)
    (hconnected : t.connected = true) : t.left + 1 = s.left := by
  obtain ⟨hread, hserved, -⟩ := h.lengths
  have hstays := stays_step hstep
  have hdue := (h.enabled_iff label).mp (by rw [hstep]; rfl)
  have hs := hstays.serving hserving
  have hc := hstays.connected hconnected
  cases label with
  | request req => exact hanswers.elim
  | serve junk cuts servlet =>
      have hlt : s.turns.length < s.requests.length := by simpa [Due, hs, hc] using hdue
      simp only [step] at hstep
      split at hstep
      · cases hstep
      · split at hstep <;> cases hstep
        · simp only [left, List.length_append, List.length_singleton]
          omega
        · cases hserving
  | response cuts =>
      have hlt : s.responses.length < s.turns.length := by simpa [Due, hs, hc] using hdue
      simp only [step, hc] at hstep
      split at hstep
      · contradiction
      split at hstep
      · cases hstep
      · split at hstep <;> cases hstep
        · simp only [left, List.length_append, List.length_singleton]
          omega
        · cases hconnected

theorem Inv.left_run : ∀ {more : List Label} {s : Conversation}, Inv server senv s →
    (∀ label ∈ more, label.Answers) →
    StepsMeet (step server senv cenv) (Sound server senv cenv) s more →
    run (step server senv cenv) s more = some t → t.serving = true → t.connected = true →
      t.left + more.length = s.left := by
  intro more
  induction more with
  | nil =>
      intro s _ _ _ hrun _ _
      cases hrun
      rfl
  | cons label more ih =>
      intro s hinv hanswers hsound hrun hserving hconnected
      obtain ⟨u, hu, hrun⟩ := Option.bind_eq_some_iff.mp hrun
      have hstays : Stays u t := run_preorder (R := Stays) (C := fun _ _ => True)
        (fun _ => ⟨id, id⟩)
        (fun _ _ _ h h' => ⟨fun ht => h.serving (h'.serving ht),
          fun ht => h.connected (h'.connected ht)⟩) (fun _ _ _ _ => stays_step) more u t
        (stepsMeet_true more u) hrun
      have hfirst := hinv.left_step (hanswers label List.mem_cons_self) hu
        (hstays.serving hserving) (hstays.connected hconnected)
      have hrest := ih (inv_step hinv hsound.1 hu)
        (fun label hmem => hanswers label (List.mem_cons_of_mem _ hmem)) (hsound.2 u hu) hrun
        hserving hconnected
      rw [List.length_cons]
      omega

/-- Nothing gets stuck and nothing goes on for ever: after any run just the steps that are due are
enabled, one that answers is due as long as something is left, and while both sides are there, passes
and responses bring the end of the exchange as many steps nearer as they are. -/
theorem conversation_ends (server : HttpServer) (senv cenv : Env) (labels : List Label)
    (s : Conversation) (h : StepsMeet (step server senv cenv) (Sound server senv cenv) start labels)
    (hrun : run (step server senv cenv) start labels = some s) :
    (∀ label, (step server senv cenv s label).isSome = true ↔ s.Due label) ∧
      (s.serving = true → s.left ≠ 0 → ∃ label : Label, label.Answers ∧ s.Due label) ∧
      (s.left = 0 ↔ s.requests.length = s.responses.length) ∧
      ∀ more t, (∀ label ∈ more, label.Answers) →
        StepsMeet (step server senv cenv) (Sound server senv cenv) s more →
        run (step server senv cenv) s more = some t → t.serving = true → t.connected = true →
        t.left + more.length = s.left := by
  have hinv : Inv server senv s :=
    run_invariant (fun _ _ _ => inv_step) labels start s inv_start h hrun
  obtain ⟨hread, hserved, -⟩ := hinv.lengths
  refine ⟨hinv.enabled_iff, fun hserving hleft => ?_, ?_, fun more t => hinv.left_run⟩
  · by_cases hlt : s.turns.length < s.requests.length
    · exact ⟨.serve ⟨0, false⟩ [] fun req rsp => (req, rsp), trivial, hserving, Or.inl hlt⟩
    · refine ⟨.response [], trivial, Or.inl ?_⟩
      rw [left] at hleft
      omega
  · rw [left]
    omega

/-! ## A client that waits -/

/-- The client has the responses to all its requests before it sends the next one. -/
def Waits (server : HttpServer) (senv cenv : Env) (s : Conversation) : Label → Prop
  | .request req =>
    s.requests.length = s.responses.length ∧ ∀ relaxed, Serialisable senv.rest relaxed req
  | .serve _ cuts servlet => ∀ req, s.requests[s.turns.length]? = some req →
      req.head.length ≤ ready s.toServer.length cuts senv.bufferSize ∧
        (server.handle (turnFor server servlet (sentMessage req).request)).2.Serialisable
  | .response cuts => ∀ turn, s.turns[s.responses.length]? = some turn →
      (server.handle turn).2.block.bytes.length ≤ ready s.toClient.length cuts cenv.bufferSize

/-- What is under way is then one message at most, which no read reaches past. -/
theorem Inv.sound_of_waits (h : Inv server senv s)
    (hone : s.requests.length ≤ s.responses.length + 1) {label : Label}
    (hwaits : Waits server senv cenv s label) : Sound server senv cenv s label := by
  obtain ⟨hread, hserved, -⟩ := h.lengths
  cases label with
  | request req => exact hwaits.2
  | serve junk cuts servlet =>
      intro req hreq
      obtain ⟨hhead, hresponse⟩ := hwaits req hreq
      obtain ⟨done, unserved, hrequests, hturns, htoServer⟩ := h.turns
      have hlength := hturns.length_eq
      rw [hrequests, ← hlength, List.getElem?_append_right (Nat.le_refl _), Nat.sub_self] at hreq
      cases unserved with
      | nil => cases hreq
      | cons req' unserved =>
          cases hreq
          have hnil : unserved = [] := by
            rw [hrequests, List.length_append, List.length_cons] at hone
            exact List.length_eq_zero_iff.mp (by omega)
          subst hnil
          refine ⟨⟨hhead, ?_⟩, hresponse⟩
          rw [htoServer, List.flatMap_singleton]
          exact ready_le_left ..
  | response cuts =>
      intro turn hturn
      have hhead := hwaits turn hturn
      obtain ⟨done, unread, hturns, hresponses, htoClient⟩ := h.responses
      have hlength := hresponses.length_eq
      rw [hturns, ← hlength, List.getElem?_append_right (Nat.le_refl _), Nat.sub_self] at hturn
      cases unread with
      | nil => cases hturn
      | cons turn' unread =>
          cases hturn
          have hnil : unread = [] := by
            rw [hturns, List.length_append, List.length_cons] at hserved
            exact List.length_eq_zero_iff.mp (by omega)
          subst hnil
          refine ⟨hhead, ?_⟩
          rw [htoClient, List.flatMap_singleton]
          exact ready_le_left ..

/-- At most one request is unanswered then. -/
theorem one_step (hone : s.requests.length ≤ s.responses.length + 1)
    {label : Label} (hwaits : Waits server senv cenv s label)
    (hstep : step server senv cenv s label = some t) :
    t.requests.length ≤ t.responses.length + 1 := by
  cases label with
  | request req =>
      rw [step, Option.some.injEq] at hstep
      subst hstep
      have hall := hwaits.1
      split
      · simp only [List.length_append, List.length_singleton]
        omega
      · exact hone
  | serve junk cuts servlet =>
      simp only [step] at hstep
      split at hstep
      · cases hstep
      · split at hstep <;> cases hstep <;> exact hone
  | response cuts =>
      simp only [step] at hstep
      split at hstep
      · cases hstep
        exact hone
      split at hstep
      · cases hstep
      · split at hstep <;> cases hstep
        · simp only [List.length_append, List.length_singleton]
          omega
        · exact hone

theorem sound_of_waits {labels : List Label}
    (h : StepsMeet (step server senv cenv) (Waits server senv cenv) start labels) :
    StepsMeet (step server senv cenv) (Sound server senv cenv) start labels :=
  stepsMeet_of_invariant
    (I := fun s => Inv server senv s ∧ s.requests.length ≤ s.responses.length + 1)
    (fun _ _ hinv hwaits => hinv.1.sound_of_waits hinv.2 hwaits)
    (fun _ _ _ hinv hwaits hstep =>
      ⟨inv_step hinv.1 (hinv.1.sound_of_waits hinv.2 hwaits) hstep,
        one_step hinv.2 hwaits hstep⟩) labels start ⟨inv_start, Nat.zero_le _⟩ h

section Hello

/-- A server that keeps connections. -/
def helloServer : HttpServer := ⟨ascii "saturn", true⟩

/-- One body for all requests. -/
def helloServlet (req : HttpRequest) (rsp : HttpResponse) : HttpRequest × HttpResponse :=
  (req, { rsp with body := ascii "hello saturn" })

/-- A request that asks to keep the connection. -/
def keptRequest : HttpRequest := { helloRequest with close := false }

theorem keptRequest_serialisable (relaxed : Bool) :
    Serialisable helloEnv.rest relaxed keptRequest :=
  { helloRequest_serialisable helloEnv.rest relaxed with }

/-- The turn of the server for it. -/
def keptTurn : Turn := turnFor helloServer helloServlet (sentMessage keptRequest).request

theorem keptTurn_serialisable : (helloServer.handle keptTurn).2.Serialisable where
  version := Or.inr rfl
  status_ge := by decide
  status_lt := by decide
  reason := rfl
  sorted := List.pairwise_singleton _ _
  token := by decide
  ownLength := by decide
  content := by decide
  first := by decide
  plain := by decide
  body_lt := by decide

/-- Two passes and two responses; everything arrives as it was sent. -/
def pipelinedAnswers : List Label :=
  [.serve ⟨0, false⟩ [keptRequest.dump.length] helloServlet, .serve ⟨0, false⟩ [] helloServlet,
    .response [(helloServer.handle keptTurn).2.dump.length], .response []]

/-- Two requests at once, and the answers. -/
def pipelined : List Label :=
  .request keptRequest :: .request keptRequest :: pipelinedAnswers

/-- Both requests are on their way. -/
def pipelinedAsked : Conversation where
  toServer := keptRequest.dump ++ keptRequest.dump
  toClient := []
  connected := true
  serving := true
  requests := [keptRequest, keptRequest]
  turns := []
  responses := []

/-- Both responses are. -/
def pipelinedServed : Conversation where
  toServer := []
  toClient := (helloServer.handle keptTurn).2.dump ++ (helloServer.handle keptTurn).2.dump
  connected := true
  serving := true
  requests := [keptRequest, keptRequest]
  turns := [keptTurn, keptTurn]
  responses := []

theorem pipelinedServed_answers :
    StepsMeet (step helloServer helloEnv helloEnv) (Sound helloServer helloEnv helloEnv)
        pipelinedServed [.response [(helloServer.handle keptTurn).2.dump.length], .response []] ∧
      ∃ t, run (step helloServer helloEnv helloEnv) pipelinedServed
          [.response [(helloServer.handle keptTurn).2.dump.length], .response []] = some t ∧
        t.serving = true ∧ t.connected = true := by
  have hfirst : Within (helloServer.handle keptTurn).2.block.bytes
      (helloServer.handle keptTurn).2.dump (ready pipelinedServed.toClient.length
        [(helloServer.handle keptTurn).2.dump.length] helloEnv.bufferSize) := by decide
  have hsecond : Within (helloServer.handle keptTurn).2.block.bytes
      (helloServer.handle keptTurn).2.dump
      (ready (helloServer.handle keptTurn).2.dump.length [] helloEnv.bufferSize) := by decide
  obtain ⟨rsp, -, hread⟩ := step_response helloEnv rfl keptTurn_serialisable rfl hfirst
  obtain ⟨rsp', -, hread'⟩ := step_response helloEnv (s := { pipelinedServed with
    toClient := (helloServer.handle keptTurn).2.dump
    responses := pipelinedServed.responses ++ [rsp] }) rfl keptTurn_serialisable
    (List.append_nil _).symm hsecond
  refine ⟨⟨fun turn hturn => ?_, (forall_eq_some_iff hread).mpr
    ⟨fun turn hturn => ?_, fun _ _ => trivial⟩⟩, ?_⟩
  · cases hturn
    exact hfirst
  · cases hturn
    exact hsecond
  · rw [run_cons, hread, Option.bind_some, run_cons, hread', Option.bind_some, run_nil]
    exact ⟨_, rfl, rfl, rfl⟩

theorem pipelinedAsked_answers :
    StepsMeet (step helloServer helloEnv helloEnv) (Sound helloServer helloEnv helloEnv)
        pipelinedAsked pipelinedAnswers ∧
      ∃ t, run (step helloServer helloEnv helloEnv) pipelinedAsked pipelinedAnswers = some t ∧
        t.serving = true ∧ t.connected = true := by
  have hopen : helloServer.staysOpen keptTurn = true := by decide
  have hfirst : Within keptRequest.head keptRequest.dump (ready pipelinedAsked.toServer.length
      [keptRequest.dump.length] helloEnv.bufferSize) := by decide
  have hsecond : Within keptRequest.head keptRequest.dump
      (ready keptRequest.dump.length [] helloEnv.bufferSize) := by decide
  have hserve : step helloServer helloEnv helloEnv pipelinedAsked
      (.serve ⟨0, false⟩ [keptRequest.dump.length] helloServlet) = some { pipelinedAsked with
        toServer := keptRequest.dump
        toClient := (helloServer.handle keptTurn).2.dump
        serving := helloServer.staysOpen keptTurn
        turns := [keptTurn] } := step_serve rfl keptRequest_serialisable rfl hfirst
  have hserve' : step helloServer helloEnv helloEnv
      { pipelinedAsked with
        toServer := keptRequest.dump
        toClient := (helloServer.handle keptTurn).2.dump
        serving := helloServer.staysOpen keptTurn
        turns := [keptTurn] } (.serve ⟨0, false⟩ [] helloServlet) = some pipelinedServed := by
    rw [step_serve hopen keptRequest_serialisable (List.append_nil _).symm hsecond]
    change some { pipelinedServed with serving := helloServer.staysOpen keptTurn } = _
    rw [hopen]
    rfl
  obtain ⟨hsound, t, hrun, hstays⟩ := pipelinedServed_answers
  refine ⟨⟨fun req hreq => ?_, (forall_eq_some_iff hserve).mpr
    ⟨fun req hreq => ?_, (forall_eq_some_iff hserve').mpr hsound⟩⟩, t, ?_, hstays⟩
  · cases hreq
    exact ⟨hfirst, keptTurn_serialisable⟩
  · cases hreq
    exact ⟨hsecond, keptTurn_serialisable⟩
  · rw [pipelinedAnswers, run_cons, hserve, Option.bind_some, run_cons, hserve', Option.bind_some]
    exact hrun

theorem pipelined_sound :
    StepsMeet (step helloServer helloEnv helloEnv) (Sound helloServer helloEnv helloEnv) start
      pipelined := by
  have hask : step helloServer helloEnv helloEnv start (.request keptRequest) =
      some { start with toServer := keptRequest.dump, requests := [keptRequest] } := rfl
  have hask' : step helloServer helloEnv helloEnv
      { start with toServer := keptRequest.dump, requests := [keptRequest] }
      (.request keptRequest) = some pipelinedAsked := rfl
  exact ⟨keptRequest_serialisable, (forall_eq_some_iff hask).mpr
    ⟨keptRequest_serialisable, (forall_eq_some_iff hask').mpr pipelinedAsked_answers.1⟩⟩

theorem conversation_inOrder_hello :
    StatesMeet (step helloServer helloEnv helloEnv) (InOrder helloServer) start pipelined :=
  conversation_inOrder helloServer helloEnv helloEnv pipelined pipelined_sound

/-- Behind the two requests the two passes and the two responses are all that it takes. -/
theorem conversation_ends_hello :
    ∃ t, run (step helloServer helloEnv helloEnv) pipelinedAsked pipelinedAnswers = some t ∧
      t.left + 4 = pipelinedAsked.left := by
  obtain ⟨hsound, t, hrun, hserving, hconnected⟩ := pipelinedAsked_answers
  have hends := conversation_ends helloServer helloEnv helloEnv
    [.request keptRequest, .request keptRequest] pipelinedAsked
    ⟨keptRequest_serialisable, fun _ _ => ⟨keptRequest_serialisable, fun _ _ => trivial⟩⟩ rfl
  refine ⟨t, hrun, hends.2.2.2 pipelinedAnswers t (fun label hmem => ?_) hsound hrun hserving
    hconnected⟩
  simp only [pipelinedAnswers, List.mem_cons, List.not_mem_nil, or_false] at hmem
  rcases hmem with rfl | rfl | rfl | rfl <;> trivial

end Hello

end Conversation

end Http

end Saturn
