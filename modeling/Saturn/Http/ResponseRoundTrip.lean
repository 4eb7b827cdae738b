import Saturn.Http.RoundTrip
import Saturn.Http.StatusLine

/-!
# A response that is written and read

`HttpResponse::dump` writes a well-formed header block, and `recvResponse` makes the response of it
again, with the body behind it.
-/

namespace Saturn

namespace Http

namespace HttpResponse

/-- The fields of the map that are written. -/
def sent (r : HttpResponse) : MapType :=
  r.headers.filter fun e => caseFold e.1 ≠ caseFold (ascii "connection")

/-- The text of the status stands in for an empty reason. -/
def reasonText (r : HttpResponse) : Bytes :=
  if r.reason = [] then httpStatusToString r.status else r.reason

/-- A response that `dump` can write as one: a version that the parser knows, a status that is an
`int`, and header fields of its own, none of which makes the body chunked. -/
structure Serialisable (r : HttpResponse) : Prop where
  version : r.version = 0x10 ∨ r.version = 0x11
  status_ge : -2 ^ 31 ≤ r.status
  status_lt : r.status < 2 ^ 31
  reason : r.reason.all isContentChar = true
  sorted : MapType.Sorted r.headers
  token : ∀ e ∈ r.sent, e.1 ≠ [] ∧ e.1.all isTokenChar = true
  ownLength : ∀ e ∈ r.sent, caseFold e.1 ≠ caseFold (ascii "content-length")
  content : ∀ e ∈ r.sent, e.2.all isContentChar = true
  first : ∀ e ∈ r.sent, e.2.head?.any isBlank = false
  plain : ∀ e ∈ r.sent, caseFold e.1 = caseFold (ascii "transfer-encoding") →
    caseFold e.2 ≠ caseFold (ascii "chunked")
  body_lt : r.body.length < 2 ^ 31

/-- The fields behind those of the map. -/
def addedFields (r : HttpResponse) : MapType :=
  (ascii "connection", connectionValue r.close) ::
    if r.body = [] then [] else [(ascii "content-length", digits r.body.length)]

/-- The header block that `dump` writes. -/
def block (r : HttpResponse) : ResponseBlock where
  minor := if r.version = 0x11 then 49 else 48
  status := digits (r.status % 2 ^ 32).toNat
  reason := r.reasonText
  fields := (r.sent ++ r.addedFields).map fun e => ⟨e.1, [32], e.2⟩

/-- The response that has been read is the one that was written. The parser leaves its flag `close`
as the constructor sets it; what the flag of the other was is in the field `connection`. -/
structure Survives (r rsp : HttpResponse) : Prop where
  version : rsp.version = r.version
  status : rsp.status = r.status
  reason : rsp.reason = r.reasonText
  body : rsp.body = r.body
  headers : (rsp.headers.filter fun e => !isAdded e.1) = r.sent
  connection : MapType.lookup rsp.headers (ascii "connection") = some (connectionValue r.close)
  close : rsp.close = true

end HttpResponse

section Block

variable {r : HttpResponse}

theorem mapFields_eq (sep : Bytes) (headers : MapType) :
    mapFields sep headers =
      (headers.filter fun e => caseFold e.1 ≠ caseFold (ascii "connection")).flatMap
        fun e => e.1 ++ sep ++ e.2 ++ crlf := by
  induction headers with
  | nil => rfl
  | cons e headers ih =>
      rw [mapFields, List.flatMap_cons, ← mapFields, ih]
      by_cases h : caseFold e.1 = caseFold (ascii "connection") <;> simp [h]

/-- `dump` writes the block and the body. -/
theorem dump_eq (h : r.version = 0x10 ∨ r.version = 0x11) : r.dump = r.block.bytes ++ r.body := by
  have hversion : httpVersion r.version ++ ascii " " = ascii "HTTP/1." ++ [r.block.minor, 32] := by
    rw [HttpResponse.block]
    rcases h with hv | hv <;> simp only [hv] <;> decide
  have hfields : r.headerBlock = r.block.fields.flatMap FieldLine.bytes := by
    have hadded : connectionField r.close ++ lengthField r.body =
        r.addedFields.flatMap fun e => e.1 ++ ascii ": " ++ e.2 ++ crlf := by
      rw [connectionField, lengthField, HttpResponse.addedFields, ← connectionValue]
      split <;> simp [ascii]
    rw [HttpResponse.headerBlock, mapFields_eq, List.append_assoc, hadded, ← HttpResponse.sent,
      ← List.flatMap_append, HttpResponse.block, List.flatMap_map]
    exact List.flatMap_congr fun e _ => by simp [FieldLine.bytes, ascii]
  rw [HttpResponse.dump, HttpResponse.startLine, hversion, hfields, ResponseBlock.bytes,
    ResponseBlock.statusLine]
  simp [HttpResponse.block, HttpResponse.reasonText, ascii]

theorem reasonText_content (h : r.reason.all isContentChar = true) :
    r.reasonText ≠ [] ∧ r.reasonText.all isContentChar = true := by
  rw [HttpResponse.reasonText]
  split
  · have htexts : ∀ e ∈ httpStatusMap, ascii e.2 ≠ [] ∧ (ascii e.2).all isContentChar = true := by
      decide +kernel
    rw [httpStatusToString]
    cases hlookup : httpStatusMap.lookup r.status with
    | none => decide
    | some text => exact htexts _ (lookup_mem hlookup)
  · exact ⟨by assumption, h⟩

theorem connectionValue_content (close : Bool) :
    connectionValue close ≠ [] ∧ (connectionValue close).all isContentChar = true ∧
      (connectionValue close).head?.any isBlank = false := by
  cases close <;> decide

theorem not_blank_of_any {o : Option UInt8} (h : o.any isBlank = false) :
    ∀ c ∈ o, isBlank c = false := by
  rintro c ⟨⟩
  exact h

theorem digits_content (n : Nat) :
    (digits n).all isContentChar = true ∧ (digits n).head?.any isBlank = false := by
  have hclass : ∀ c, isDigit c = true → isContentChar c = true ∧ isBlank c = false := fun c =>
    forall_byte (P := fun c => isDigit c = true → isContentChar c = true ∧ isBlank c = false)
      (by decide +kernel) c
  have hdigits := List.all_eq_true.mp (all_isDigit_digits n)
  refine ⟨List.all_eq_true.mpr fun c hc => (hclass c (hdigits c hc)).1, ?_⟩
  obtain ⟨c, w, hcons⟩ := List.exists_cons_of_ne_nil (digits_ne_nil n)
  rw [hcons]
  exact (hclass c (hdigits c (hcons ▸ List.mem_cons_self))).2

/-- The fields of the block that are not of the map. -/
theorem addedFields_spec {e : Bytes × Bytes} (he : e ∈ r.addedFields) :
    (e.1 = ascii "connection" ∨ e.1 = ascii "content-length") ∧ e.2 ≠ [] ∧
      e.2.all isContentChar = true ∧ e.2.head?.any isBlank = false := by
  rw [HttpResponse.addedFields, List.mem_cons] at he
  rcases he with rfl | he
  · exact ⟨Or.inl rfl, connectionValue_content r.close⟩
  · split at he
    · cases he
    · rw [List.mem_singleton] at he
      subst he
      exact ⟨Or.inr rfl, digits_ne_nil _, digits_content _⟩

theorem addedName_spec {name : Bytes}
    (h : name = ascii "connection" ∨ name = ascii "content-length") :
    name ≠ [] ∧ name.all isTokenChar = true ∧
      caseFold name ≠ caseFold (ascii "transfer-encoding") ∧ isAdded name = true := by
  rcases h with rfl | rfl <;> decide

theorem mem_fields {f : FieldLine} : f ∈ r.block.fields ↔
    ∃ e, (e ∈ r.sent ∨ e ∈ r.addedFields) ∧ ⟨e.1, [32], e.2⟩ = f := by
  rw [HttpResponse.block, List.mem_map]
  simp only [List.mem_append]

variable (h : r.Serialisable)
include h

theorem block_wellFormed : r.block.WellFormed := by
  obtain ⟨hne, hreason⟩ := reasonText_content h.reason
  refine ⟨?_, digits_ne_nil _, all_isDigit_digits _, hreason, fun f hf => ?_⟩
  · rw [HttpResponse.block]
    by_cases hv : r.version = 0x11 <;> simp [hv]
  · obtain ⟨e, he, rfl⟩ := mem_fields.mp hf
    have hblank : ([32] : Bytes).all isBlank = true := by decide
    rcases he with he | he
    · exact ⟨(h.token e he).1, (h.token e he).2, hblank, h.content e he,
        not_blank_of_any (h.first e he)⟩
    · obtain ⟨hname, -, hall, hfirst⟩ := addedFields_spec he
      obtain ⟨hnil, htoken, -⟩ := addedName_spec hname
      exact ⟨hnil, htoken, hblank, hall, not_blank_of_any hfirst⟩

theorem block_notChunked : r.block.NotChunked := by
  intro f hf hname
  obtain ⟨e, he, rfl⟩ := mem_fields.mp hf
  rcases he with he | he
  · exact h.plain e he hname
  · obtain ⟨-, -, hother, -⟩ := addedName_spec (addedFields_spec he).1
    exact absurd hname hother

omit h in
theorem block_lastSays : r.block.LastSays := by
  intro f hf hname
  have hlast : f ∈ (r.addedFields.map fun e => (⟨e.1, [32], e.2⟩ : FieldLine)).getLast? := by
    have hne : (r.addedFields.map fun e => (⟨e.1, [32], e.2⟩ : FieldLine)) ≠ [] := by
      simp [HttpResponse.addedFields]
    rwa [HttpResponse.block, List.map_append, List.getLast?_append_of_ne_nil _ hne] at hf
  obtain ⟨e, he, rfl⟩ := List.mem_map.mp (List.mem_of_getLast? hlast)
  exact (addedFields_spec he).2.1

theorem block_length_ne : ∀ f ∈ r.block.fields, f.Named "content-length" → f.value ≠ [] := by
  intro f hf hname
  obtain ⟨e, he, rfl⟩ := mem_fields.mp hf
  rcases he with he | he
  · exact absurd hname (h.ownLength e he)
  · exact (addedFields_spec he).2.1

omit h in
theorem block_headers :
    r.block.headers = MapType.setAll (MapType.setAll [] r.sent) r.addedFields := by
  rw [ResponseBlock.headers, HttpResponse.block, List.map_map, ← MapType.setAll_append]
  congr 1
  exact List.map_id _

theorem lookup_length : MapType.lookup r.block.headers (ascii "content-length") =
    if r.body = [] then none else some (digits r.body.length) := by
  have hne : caseFold (ascii "connection") ≠ caseFold (ascii "content-length") := by decide
  have hown : MapType.lookup (MapType.setAll [] r.sent) (ascii "content-length") = none :=
    MapType.lookup_setAll_of_ne h.ownLength
  rw [block_headers, HttpResponse.addedFields, MapType.setAll_cons]
  split
  · rw [MapType.setAll_nil, MapType.lookup_set_of_ne _ _ hne, hown]
  · rw [MapType.setAll_cons, MapType.setAll_nil, MapType.lookup_set_self _ _ rfl]

omit h in
theorem lookup_connectionField : MapType.lookup r.block.headers (ascii "connection") =
    some (connectionValue r.close) := by
  have hne : caseFold (ascii "content-length") ≠ caseFold (ascii "connection") := by decide
  rw [block_headers, HttpResponse.addedFields, MapType.setAll_cons]
  split
  · rw [MapType.setAll_nil, MapType.lookup_set_self _ _ rfl]
  · rw [MapType.setAll_cons, MapType.setAll_nil, MapType.lookup_set_of_ne _ _ hne,
      MapType.lookup_set_self _ _ rfl]

theorem filter_headers : (r.block.headers.filter fun e => !isAdded e.1) = r.sent := by
  have hown : ∀ e ∈ r.sent, (!isAdded e.1) = true := fun e he => by
    have hconnection := of_decide_eq_true (List.mem_filter.mp he).2
    simp [isAdded, hconnection, h.ownLength e he]
  have hset : MapType.setAll [] r.sent = r.sent :=
    MapType.setAll_of_sorted (m := []) (List.Pairwise.filter _ h.sorted)
  have hadded : ∀ e ∈ r.addedFields, ∀ e' : Bytes × Bytes, caseFold e'.1 = caseFold e.1 →
      (!isAdded e'.1) = false := by
    intro e he e' heq
    obtain ⟨-, -, -, hadded⟩ := addedName_spec (addedFields_spec he).1
    rw [isAdded, heq, ← isAdded, hadded]
    rfl
  have hfilter : ∀ (fields m : MapType), (∀ e ∈ fields, ∀ e' : Bytes × Bytes,
      caseFold e'.1 = caseFold e.1 → (!isAdded e'.1) = false) →
      ((MapType.setAll m fields).filter fun e => !isAdded e.1) = m.filter fun e => !isAdded e.1 := by
    intro fields
    induction fields with
    | nil => exact fun m _ => rfl
    | cons e fields ih =>
        intro m hall
        rw [MapType.setAll_cons, ih _ fun f hf => hall f (List.mem_cons_of_mem _ hf),
          MapType.filter_set_of_neg _ _ (hall e List.mem_cons_self)]
  rw [block_headers, hfilter _ _ hadded, hset, List.filter_eq_self]
  exact hown

/-- What the parser makes of the block survives, with the body. -/
theorem survives_of_reading {d : HttpResponse} (hheaders : d.headers = r.block.headers)
    (hline : SameLine r.block.line d) : r.Survives { d with body := r.body } := by
  have hminor : (if r.block.minor = 49 then (0x11 : UInt8) else 0x10) = r.version := by
    rw [HttpResponse.block]
    rcases h.version with hv | hv <;> simp only [hv] <;> decide
  refine ⟨hline.version.trans hminor, hline.status.trans (status_digits h.status_ge h.status_lt),
    hline.reason.trans (if_neg (reasonText_content h.reason).1), rfl, ?_, ?_, hline.close⟩
  · rw [← filter_headers h, ← hheaders]
  · rw [← lookup_connectionField, ← hheaders]

/-- The length that `recvResponse` computes. -/
theorem contentLength_block (lexicalCast : LexicalCast) {p : HttpResponseParser}
    (hp : p.data.headers = r.block.headers) :
    toInt64 (p.getContentLength lexicalCast).toNat = r.body.length := by
  have hlt := h.body_lt
  have hlookup := lookup_length h
  rw [HttpResponseParser.getContentLength, getAs, hp, hlookup]
  by_cases hbody : r.body = []
  · rw [if_pos hbody, hbody]
    rfl
  · rw [if_neg hbody]
    simp only [lexicalCast.cast_decimal (decimal_digits r.body.length) (by omega), Option.getD_some]
    rw [UInt64.toNat_ofNat_of_lt' (Nat.lt_trans hlt (by decide)), toInt64_of_lt (by omega)]

end Block

section Receive

open Client Logged

/-- The client reads the response that the server has written, where its header block arrives in the
first read. What is left on the connection begins behind the response, or behind that read if it
reaches further. -/
theorem recvResponse_sent {env : Env} {r : HttpResponse} (h : r.Serialisable) {s : Stream}
    {rest : Bytes} (hs : s.unread = r.dump ++ rest)
    (hone : r.block.bytes.length ≤ s.ready env.bufferSize) : ∃ rsp t,
    (recvResponse (responseParser env.lexicalCast) env.bufferSize s).outcome = .returned (rsp, t) ∧
      r.Survives rsp ∧ t.unread = s.unread.drop (max (s.ready env.bufferSize) r.dump.length) := by
  obtain ⟨unread, cuts⟩ := s
  simp only at hs
  rw [dump_eq h.version, List.append_assoc] at hs
  subst hs
  rw [Stream.ready, List.length_append] at hone
  obtain ⟨k, hk⟩ := Nat.exists_eq_add_of_le hone
  have hlen : r.block.bytes.length + k ≤ env.bufferSize := hk ▸ ready_le ..
  have hleft : r.block.bytes.length + k ≤ r.block.bytes.length + (r.body ++ rest).length :=
    hk ▸ ready_le_left ..
  have hbuf := env.bufferSize_le
  have hmax : maxTransfer ≤ stringMaxSize := by decide
  have htake : (r.block.bytes ++ (r.body ++ rest).take k).length = r.block.bytes.length + k := by
    rw [List.length_append, List.length_take]
    omega
  obtain ⟨q, hscan, hreading, hline⟩ := scan_blockLine (block_wellFormed h) (block_notChunked h)
    block_lastSays (block_length_ne h) ((r.body ++ rest).take k) (by omega)
  have hheader := responseHeader_scan env.lexicalCast env.bufferSize_le r.block.bytes_ne hk hscan
    hreading.error
  have hchunked : (responseParser env.lexicalCast).chunked
      (left ⟨(httpclientParserFirstFinal, q), r.block.bytes.length, .stopped⟩) = false :=
    hreading.chunked
  have hsize : toInt64 ((responseParser env.lexicalCast).getContentLength
      (left ⟨(httpclientParserFirstFinal, q), r.block.bytes.length, .stopped⟩)).toNat =
        r.body.length := contentLength_block h env.lexicalCast hreading.headers
  have hsplit : (r.body ++ rest).take k ++ (r.body ++ rest).drop k = r.body ++ rest :=
    List.take_append_drop ..
  have hparts : r.body.length ≤
      ((r.body ++ rest).take k).length + ((r.body ++ rest).drop k).length := by
    rw [← List.length_append, hsplit, List.length_append]
    exact Nat.le_add_right ..
  obtain ⟨t, hrun, hunread⟩ := plainBody_arrives h.body_lt ((r.body ++ rest).take k)
    ⟨(r.body ++ rest).drop k, cuts.tail⟩ hreading.body hparts
  simp only [hsplit, List.take_left'] at hrun
  refine ⟨_, t, ?_, survives_of_reading h hreading.headers hline, ?_⟩
  · rw [recvResponse, outcome_bind_returned hheader]
    simp only [recvBehindHeader, hchunked, Bool.false_eq_true, if_false, hsize]
    exact hrun
  · have htaken : ((r.body ++ rest).take k).length = k := by
      rw [List.length_take]
      omega
    have hmaxlen : max (r.block.bytes.length + k) (r.block.bytes.length + r.body.length) =
        r.block.bytes.length + (k + (r.body.length - k)) := by omega
    rw [hunread, htaken, List.drop_drop, Stream.ready, List.length_append, hk, dump_eq h.version,
      List.length_append, hmaxlen, List.drop_length_add_append]

/-- A response is received as it was sent, if its header block arrives in one read. What follows it on
the connection is kept exactly if that read ends with the response or before. -/
theorem recvResponse_dump (env : Env) (r : HttpResponse) (s : Stream) (rest : Bytes)
    (h : r.Serialisable) (hs : s.unread = r.dump ++ rest)
    (hone : r.block.bytes.length ≤ s.ready env.bufferSize) :
    ∃ rsp t, (recvResponse (responseParser env.lexicalCast) env.bufferSize s).outcome =
        .returned (rsp, t) ∧ r.Survives rsp ∧
      (t.unread = rest ↔ s.ready env.bufferSize ≤ r.dump.length) := by
  obtain ⟨rsp, t, hrecv, hsurvives, hunread⟩ := recvResponse_sent h hs hone
  refine ⟨rsp, t, hrecv, hsurvives, ?_⟩
  have hready : s.ready env.bufferSize ≤ s.unread.length := ready_le_left ..
  rw [hs, List.length_append] at hready
  constructor
  · intro heq
    have hlen := congrArg List.length (hunread.symm.trans heq)
    rw [hs, List.length_drop, List.length_append] at hlen
    omega
  · intro hle
    rw [hunread, max_eq_right hle, hs, List.drop_left]

section Hello

/-- A response with a field and a body. -/
def helloResponse : HttpResponse :=
  { HttpResponse.new with
    headers := [(ascii "Server", ascii "saturn")]
    body := ascii "hello saturn" }

theorem helloResponse_serialisable : helloResponse.Serialisable where
  version := Or.inr rfl
  status_ge := by decide
  status_lt := by decide
  reason := rfl
  sorted := List.pairwise_singleton _ _
  token := by decide
  ownLength := by decide
  content := by decide
  first := by decide
  plain := by decide
  body_lt := by decide

theorem recvResponse_dump_hello :
    ∃ rsp t, (recvResponse (responseParser .plain) helloEnv.bufferSize
        (.ofPieces [helloResponse.dump, ascii "HTTP/1.1"])).outcome = .returned (rsp, t) ∧
      helloResponse.Survives rsp ∧
      (t.unread = ascii "HTTP/1.1" ↔
        Stream.ready (.ofPieces [helloResponse.dump, ascii "HTTP/1.1"]) helloEnv.bufferSize ≤
          helloResponse.dump.length) :=
  recvResponse_dump helloEnv helloResponse (.ofPieces [helloResponse.dump, ascii "HTTP/1.1"])
    (ascii "HTTP/1.1") helloResponse_serialisable (by simp [Stream.ofPieces]) (by decide)

end Hello

end Receive

end Http

end Saturn
