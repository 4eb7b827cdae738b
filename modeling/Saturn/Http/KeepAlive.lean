import Saturn.Http.ContentLength
import Saturn.Http.HeaderBlock
import Saturn.Misc.Run

/-!
# Requests on one connection

`recvRequest` reads into a buffer of its own. What the read of a header block returns behind the
body of that request is discarded with the buffer, so a connection keeps its requests apart exactly
while no such read reaches into the next request.
-/

namespace Saturn

namespace Http

/-- A request as it stands on the connection: a header block, what the parser makes of it, and a
body. -/
structure Message where
  head : Bytes
  data : HttpRequest
  body : Bytes

namespace Message

/-- The bytes of a message. -/
def bytes (m : Message) : Bytes := m.head ++ m.body

/-- The request that `recvRequest` is to return. -/
def request (m : Message) : HttpRequest := ({ m.data with body := m.body }).init

/-- The header block is accepted in one read, as `data`, and says how long the body is. -/
structure WellFormed (env : Env) (junk : Junk) (m : Message) : Prop where
  head : ∃ r, recvHeader env junk (.ofPieces [m.head]) = .ok (some r) ∧ r.data = [] ∧
    r.parser.data = m.data
  framed : (m.body = [] ∧ MapType.lookup m.data.headers (ascii "content-length") = none) ∨
    ∃ v, MapType.lookup m.data.headers (ascii "content-length") = some v ∧
      decimal v = some m.body.length
  body_lt : m.body.length < 2 ^ 31

end Message

/-- A call of `recvRequest`, by what its parser is allocated over, and the request it is for. -/
abbrev Call := Junk × Message

/-- The connection behind a call that returns a request. -/
def recvStep (env : Env) (s : Stream) (c : Call) : Option Stream :=
  match recvRequest env c.1 s with
  | .ok ⟨some (_, t), _⟩ => some t
  | _ => none

/-- A call that finds its request next on the connection reads the whole header block at once. -/
def HeadInOneRead (env : Env) (s : Stream) (c : Call) : Prop :=
  c.2.bytes <+: s.unread → c.2.head.length ≤ s.ready env.bufferSize

/-- The first read of the call returns nothing of the next request. -/
def StaysInside (env : Env) (s : Stream) (c : Call) : Prop :=
  s.ready env.bufferSize ≤ c.2.head.length + c.2.body.length

/-- The call returns its request and leaves on the connection what is behind it. -/
def Returns (env : Env) (s : Stream) (c : Call) : Prop :=
  ∃ t n, recvRequest env c.1 s = .ok ⟨some (c.2.request, t), n⟩ ∧ s.unread = c.2.bytes ++ t.unread

instance (env : Env) (s : Stream) (c : Call) : Decidable (HeadInOneRead env s c) :=
  inferInstanceAs (Decidable (_ → _))

instance (env : Env) (s : Stream) (c : Call) : Decidable (StaysInside env s c) :=
  inferInstanceAs (Decidable (_ ≤ _))

theorem recvHeader_ofPieces_nil (env : Env) (junk : Junk) :
    recvHeader env junk (.ofPieces [[]]) = .ok none :=
  headerLoop_of_nil rfl _

theorem Message.WellFormed.head_ne_nil {env : Env} {junk : Junk} {m : Message}
    (h : m.WellFormed env junk) : m.head ≠ [] := by
  intro hnil
  obtain ⟨r, hr, -⟩ := h.head
  rw [hnil, recvHeader_ofPieces_nil] at hr
  cases hr

/-- The length that `recvRequest` computes for a request that is well formed. -/
theorem Message.WellFormed.length {env : Env} {junk : Junk} {m : Message} {r : HttpRequestParser}
    (h : m.WellFormed env junk) (hr : r.data = m.data) :
    toInt64 (r.getContentLength env.lexicalCast).toNat = m.body.length := by
  have hlt := h.body_lt
  rcases h.framed with ⟨hbody, hnone⟩ | ⟨v, hv, hdecimal⟩
  · rw [← hr] at hnone
    unfold HttpRequestParser.getContentLength getAs
    simp only [hnone]
    rw [hbody]
    rfl
  · rw [← hr] at hv
    rw [getContentLength_of_lookup _ hv, bodyLength_of_decimal _ hdecimal (by omega),
      toInt64_of_lt (by omega)]

/-- A read that begins with the header block ends the loop; the rest of it stays in the buffer. -/
theorem recvHeader_of_first_read {env : Env} {junk : Junk} {m : Message}
    (hm : m.WellFormed env junk)
    {s : Stream} {rest : Bytes} (hs : s.unread = m.head ++ rest)
    (hhead : m.head.length ≤ s.ready env.bufferSize) : ∃ r,
    recvHeader env junk s = .ok (some r) ∧ r.parser.data = m.data ∧
      r.data = rest.take (s.ready env.bufferSize - m.head.length) ∧
      r.stream.unread = rest.drop (s.ready env.bufferSize - m.head.length) := by
  have hne := hm.head_ne_nil
  have hpos : 0 < m.head.length := List.length_pos_iff.mpr hne
  have hready : s.ready env.bufferSize ≤ env.bufferSize := ready_le ..
  obtain ⟨whole, hwhole, hdata, hrequest⟩ := hm.head
  obtain ⟨e, hscan, hpos', hstop, hparser, herror, hfin, hwithin⟩ :=
    scan_of_recvHeader_whole hne (by omega) hwhole hdata
  have htake : s.unread.take (s.ready env.bufferSize) =
      m.head ++ rest.take (s.ready env.bufferSize - m.head.length) := by
    rw [hs, List.take_append, List.take_of_length_le hhead]
  have hdrop : s.unread.drop (s.ready env.bufferSize) =
      rest.drop (s.ready env.bufferSize - m.head.length) := by
    rw [hs, List.drop_append, List.drop_of_length_le hhead, List.nil_append]
  have hlen : (m.head ++ rest.take (s.ready env.bufferSize - m.head.length)).length =
      s.ready env.bufferSize := by
    rw [← htake, List.length_take]
    exact min_eq_left (ready_le_left ..)
  -- the parser sees the block with more bytes behind it
  have hscan' := scan_new_append (by rw [hlen]; exact hready.trans env.bufferSize_le)
    hscan hstop
  have hwithin' : (afterScan e).parser.WithinBuffer
      (m.head ++ rest.take (s.ready env.bufferSize - m.head.length)).length := by
    obtain ⟨h₁, h₂, h₃, h₄, h₅⟩ := hwithin
    rw [hlen]
    exact ⟨by omega, by omega, by omega, by omega, by omega⟩
  obtain ⟨r, hrecv, hr, hbuf, hunread⟩ :=
    recvHeader_of_scan htake hscan' (by omega) herror hfin hwithin'
  refine ⟨r, hrecv, ?_, ?_, hunread.trans hdrop⟩
  · rw [hr, ← hparser]
    exact hrequest
  · rw [hbuf, hpos', List.drop_left]

/-- A call whose first read returns the whole header block returns its request. What is left on the
connection begins behind the request, or behind that read if it reaches further. -/
theorem recvRequest_message {env : Env} {junk : Junk} {m : Message} (hm : m.WellFormed env junk)
    {s : Stream} {rest : Bytes} (hs : s.unread = m.bytes ++ rest)
    (hhead : m.head.length ≤ s.ready env.bufferSize) : ∃ t n,
    recvRequest env junk s = .ok ⟨some (m.request, t), n⟩ ∧
      t.unread = s.unread.drop (max (s.ready env.bufferSize) m.bytes.length) := by
  rw [Message.bytes, List.append_assoc] at hs
  obtain ⟨r, hrecv, hdata, hbuf, hunread⟩ := recvHeader_of_first_read hm hs hhead
  have hout : recvRequest env junk s = recvBody env r := by rw [recvRequest, hrecv]; rfl
  have hbodynil : r.parser.data.body = [] := headerLoop_body hrecv
  have hlength := hm.length hdata
  have hlt := hm.body_lt
  have hready : s.ready env.bufferSize ≤ s.unread.length := ready_le_left ..
  have hdrop : ∀ n, m.head.length ≤ n →
      s.unread.drop n = (m.body ++ rest).drop (n - m.head.length) := fun n hn => by
    rw [hs, List.drop_append, List.drop_of_length_le hn, List.nil_append]
  rw [Message.bytes, List.length_append]
  generalize s.ready env.bufferSize = k at *
  rw [hs, List.length_append, List.length_append] at hready
  by_cases hempty : m.body = []
  · rw [hempty] at hlength
    refine ⟨r.stream, 0, ?_, ?_⟩
    · rw [hout, recvBody_of_nonpos (by rw [hlength]; exact le_refl _), Message.request, hempty,
        ← hdata, ← hbodynil]
    · rw [hunread, hempty, List.length_nil, Nat.add_zero, max_eq_left hhead, hdrop k hhead, hempty]
  have hpos : 0 < m.body.length := List.length_pos_iff.mpr hempty
  have hmax : m.body.length ≤ stringMaxSize := by
    have : (2 : Nat) ^ 31 ≤ stringMaxSize := by decide
    omega
  have hbuflen : r.data.length = k - m.head.length := by
    rw [hbuf, List.length_take, List.length_append]
    omega
  by_cases hle : m.body.length ≤ k - m.head.length
  · refine ⟨r.stream, m.body.length, ?_, ?_⟩
    · rw [hout, recvBody_of_le hlength hpos hmax (by omega), Message.request, hdata, hbuf,
        List.take_take, min_eq_left hle, List.take_left' rfl]
    · rw [hunread, max_eq_left (by omega), hdrop k hhead]
  · have hunreadlen : r.stream.unread.length = m.body.length + rest.length - (k - m.head.length) := by
      rw [hunread, List.length_drop, List.length_append]
    obtain ⟨cuts, heq⟩ := recvBody_of_arrives hlength hpos hmax (by omega) (by omega)
    have hint : ¬ toInt32 (m.body.length - r.data.length) ≤ 0 := by
      rw [toInt32_of_lt (by omega)]
      omega
    have hbody : r.data ++ r.stream.unread.take (m.body.length - r.data.length) = m.body := by
      rw [hbuflen, hbuf, hunread, ← List.take_add, Nat.add_sub_cancel' (by omega),
        List.take_left' rfl]
    rw [if_neg hint, hbody, hdata] at heq
    refine ⟨_, _, hout.trans heq, ?_⟩
    simp only
    rw [max_eq_right (by omega), hdrop _ (by omega), hunread, hbuflen, List.drop_drop]
    congr 1
    omega

/-- At the boundary of a request, the call returns it and keeps what follows if and only if its first
read stays inside. -/
theorem returns_iff_staysInside {env : Env} {c : Call} (hm : c.2.WellFormed env c.1) {s : Stream}
    {rest : Bytes} (hs : s.unread = c.2.bytes ++ rest) (hhead : HeadInOneRead env s c) :
    Returns env s c ↔ StaysInside env s c := by
  obtain ⟨t, n, hrecv, hunread⟩ := recvRequest_message hm hs (hhead ⟨rest, hs.symm⟩)
  have hready : s.ready env.bufferSize ≤ s.unread.length := ready_le_left ..
  have hbytes : c.2.bytes.length = c.2.head.length + c.2.body.length := List.length_append
  have hlen := congrArg List.length hs
  rw [List.length_append] at hlen
  constructor
  · rintro ⟨t', n', hrecv', hs'⟩
    rw [hrecv] at hrecv'
    cases hrecv'
    have hlen' := congrArg List.length hs'
    rw [List.length_append, hunread, List.length_drop] at hlen'
    unfold StaysInside
    omega
  · intro hin
    refine ⟨t, n, hrecv, ?_⟩
    rw [hunread, max_eq_right (by rw [hbytes]; exact hin)]
    nth_rewrite 1 [hs]
    rw [hs, List.drop_left]

theorem recvStep_of_returns {env : Env} {s : Stream} {c : Call} {rest : Bytes}
    (h : Returns env s c) (hs : s.unread = c.2.bytes ++ rest) :
    ∀ t, recvStep env s c = some t → t.unread = rest := by
  obtain ⟨t, n, hrecv, hs'⟩ := h
  intro t' ht
  rw [recvStep, hrecv] at ht
  cases ht
  rw [hs'] at hs
  exact List.append_cancel_left hs

/-- The calls for the requests on a connection return them, one by one and with nothing lost in
between, if and only if no read of a header block reaches into the next request. -/
theorem returns_iff_staysInside_run (env : Env) (calls : List Call) (s : Stream)
    (hm : ∀ c ∈ calls, c.2.WellFormed env c.1) (hs : s.unread = calls.flatMap fun c => c.2.bytes)
    (hhead : StepsMeet (recvStep env) (HeadInOneRead env) s calls) :
    StepsMeet (recvStep env) (Returns env) s calls ↔
      StepsMeet (recvStep env) (StaysInside env) s calls := by
  induction calls generalizing s with
  | nil => exact Iff.rfl
  | cons c calls ih =>
      rw [List.flatMap_cons] at hs
      have hiff := returns_iff_staysInside (hm c List.mem_cons_self) hs hhead.1
      have hlater : Returns env s c → ∀ t, recvStep env s c = some t →
          (StepsMeet (recvStep env) (Returns env) t calls ↔
            StepsMeet (recvStep env) (StaysInside env) t calls) := fun hret t ht =>
        ih t (fun d hd => hm d (List.mem_cons_of_mem _ hd)) (recvStep_of_returns hret hs t ht)
          (hhead.2 t ht)
      constructor
      · intro h
        exact ⟨hiff.mp h.1, fun t ht => (hlater h.1 t ht).mp (h.2 t ht)⟩
      · intro h
        have hret := hiff.mpr h.1
        exact ⟨hret, fun t ht => (hlater hret t ht).mpr (h.2 t ht)⟩

/-- The calls that `handleClient` makes for the requests, from its `n`th call on. -/
def callsFrom (junk : Nat → Junk) : Nat → List Message → List Call
  | _, [] => []
  | n, m :: ms => (junk n, m) :: callsFrom junk (n + 1) ms

/-- While nothing is lost, `handleClient` dispatches the requests of a keep-alive connection in
order, and each once. -/
theorem handleClient_serves {env : Env} (junk : Nat → Junk) (ms : List Message) :
    ∀ {fuel n : Nat} {s : Stream}, s.unread = ms.flatMap Message.bytes →
    StepsMeet (recvStep env) (Returns env) s (callsFrom junk n ms) →
    (∀ m ∈ ms, m.request.close = false) → ms.length < fuel →
    handleClient env true junk fuel n s = .ok (ms.map Message.request) := by
  induction ms with
  | nil =>
      intro fuel n s hs _ _ hfuel
      obtain ⟨k, rfl⟩ : ∃ k, fuel = k + 1 := ⟨fuel - 1, by omega⟩
      have hrecv : recvRequest env (junk n) s = .ok ⟨none, 0⟩ := by
        rw [recvRequest, recvHeader, headerLoop_of_nil hs]
        rfl
      rw [handleClient, hrecv]
      rfl
  | cons m ms ih =>
      intro fuel n s hs hret hclose hfuel
      obtain ⟨k, rfl⟩ : ∃ k, fuel = k + 1 := ⟨fuel - 1, by omega⟩
      rw [List.length_cons] at hfuel
      rw [List.flatMap_cons] at hs
      obtain ⟨t, size, hrecv, -⟩ := hret.1
      have hstep : recvStep env s (junk n, m) = some t := by rw [recvStep, hrecv]
      have hopen : m.request.close = false := hclose m List.mem_cons_self
      have hlater : handleClient env true junk k (n + 1) t = .ok (ms.map Message.request) :=
        ih (recvStep_of_returns hret.1 hs t hstep) (hret.2 t hstep)
          (fun d hd => hclose d (List.mem_cons_of_mem _ hd)) (by omega)
      rw [handleClient, hrecv, Except.bind]
      simp only [hopen, Bool.not_true, Bool.or_self, Bool.false_eq_true, if_false, hlater,
        Except.map, List.map_cons]

section Pipeline

/-- A buffer of 4096 bytes. -/
def pipelineEnv : Env := .plain 4096 plainSize_le

/-- What the memory of the parser holds. -/
def pipelineJunk : Junk := ⟨0, false⟩

/-- A request without a body. -/
def getMessage : Message where
  head := ascii "GET / HTTP/1.1\r\nconnection: keep-alive\r\n\r\n"
  data := { HttpRequest.new with headers := [(ascii "connection", ascii "keep-alive")] }
  body := []

/-- A request with one. -/
def postMessage : Message where
  head := ascii "POST /a HTTP/1.1\r\nconnection: keep-alive\r\ncontent-length: 3\r\n\r\n"
  data := { HttpRequest.new with
    method := .post
    path := ascii "/a"
    headers := [(ascii "connection", ascii "keep-alive"), (ascii "content-length", ascii "3")] }
  body := ascii "abc"

/-- A call for each. -/
def pipelineCalls : List Call := [(pipelineJunk, getMessage), (pipelineJunk, postMessage)]

theorem received_of_map {env : Env} {junk : Junk} {s : Stream} {d : HttpRequest}
    (h : (recvHeader env junk s).map (fun o => o.map fun r => (r.data, r.parser.data)) =
      .ok (some ([], d))) :
    ∃ r, recvHeader env junk s = .ok (some r) ∧ r.data = [] ∧ r.parser.data = d := by
  obtain ⟨o, ho, hmap⟩ := except_map_eq_ok.mp h
  obtain ⟨r, rfl, hr⟩ := Option.map_eq_some_iff.mp hmap
  obtain ⟨hdata, hd⟩ := Prod.mk.inj hr
  exact ⟨r, ho, hdata, hd⟩

theorem pipelineCalls_wellFormed : ∀ c ∈ pipelineCalls, c.2.WellFormed pipelineEnv c.1 := by
  intro c hc
  rw [pipelineCalls, List.mem_cons, List.mem_singleton] at hc
  rcases hc with rfl | rfl
  · exact ⟨received_of_map (by decide +kernel), .inl (by decide), by decide⟩
  · exact ⟨received_of_map (by decide +kernel),
      .inr ⟨ascii "3", by decide, by decide⟩, by decide⟩

/-- Two requests in one read: the second one is lost with the buffer of the first call. -/
theorem pipelined_request_lost :
    (∀ c ∈ pipelineCalls, c.2.WellFormed pipelineEnv c.1) ∧
    StepsMeet (recvStep pipelineEnv) (HeadInOneRead pipelineEnv)
      (.ofPieces [getMessage.bytes ++ postMessage.bytes]) pipelineCalls ∧
    recvStep pipelineEnv (.ofPieces [getMessage.bytes ++ postMessage.bytes])
      (pipelineJunk, getMessage) = some ⟨[], []⟩ ∧
    ¬ StepsMeet (recvStep pipelineEnv) (Returns pipelineEnv)
      (.ofPieces [getMessage.bytes ++ postMessage.bytes]) pipelineCalls := by
  have hfirst : recvStep pipelineEnv (.ofPieces [getMessage.bytes ++ postMessage.bytes])
      (pipelineJunk, getMessage) = some ⟨[], []⟩ := by decide +kernel
  refine ⟨pipelineCalls_wellFormed, by decide +kernel, hfirst, fun h => ?_⟩
  obtain ⟨t, n, -, hbytes⟩ := (h.2 _ hfirst).1
  have hnil : postMessage.bytes = [] := List.append_eq_nil_iff.mp hbytes.symm |>.1
  exact absurd hnil (by decide)

/-- In two reads that end with the requests, both arrive. -/
theorem pipelined_requests_return : StepsMeet (recvStep pipelineEnv) (Returns pipelineEnv)
    (.ofPieces [getMessage.bytes, postMessage.bytes]) pipelineCalls :=
  (returns_iff_staysInside_run pipelineEnv pipelineCalls
    (.ofPieces [getMessage.bytes, postMessage.bytes]) pipelineCalls_wellFormed (by decide)
    (by decide)).mpr (by decide)

end Pipeline

end Http

end Saturn
