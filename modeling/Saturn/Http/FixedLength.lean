import Saturn.Http.ChunkedBody
import Saturn.Http.ResponseScan

/-!
# Bodies of a fixed length

A response with a `Content-Length`, whose header block arrives in the first read: `recvResponse`
takes the body from what that read brought behind the block and from the reads to come.
-/

namespace Saturn

namespace Http

open Client Logged

section Length

variable {b : ResponseBlock} {length : Nat}

theorem ResponseBlock.HasLength.value_ne (h : b.HasLength length) :
    ∀ f ∈ b.fields, f.Named "content-length" → f.value ≠ [] := by
  obtain ⟨g, hfilter, hdecimal⟩ := h
  intro f hf hname hvalue
  have hmem : f ∈ b.fields.filter (·.Named "content-length") :=
    List.mem_filter.mpr ⟨hf, decide_eq_true hname⟩
  rw [hfilter, List.mem_singleton] at hmem
  rw [← hmem, hvalue] at hdecimal
  cases hdecimal

/-- The header map has the one length of the block. -/
theorem ResponseBlock.HasLength.getContentLength (h : b.HasLength length) (hlt : length < 2 ^ 31)
    (lexicalCast : LexicalCast) {r : HttpResponseParser} (hr : r.data.headers = b.headers) :
    toInt64 (r.getContentLength lexicalCast).toNat = length := by
  obtain ⟨f, hfilter, hdecimal⟩ := h
  have hfields : (b.fields.map fun f => (f.name, f.value)).filter
      (fun e => caseFold e.1 = caseFold (ascii "content-length")) = [(f.name, f.value)] := by
    rw [List.filter_map]
    exact congrArg _ hfilter
  have hlookup : b.headers.lookup (ascii "content-length") = some f.value :=
    MapType.lookup_setAll_of_filter hfields
  have hcast := lexicalCast.cast_decimal hdecimal (by omega)
  rw [HttpResponseParser.getContentLength, getAs, hr, hlookup]
  simp only [hcast, Option.getD_some]
  rw [UInt64.toNat_ofNat_of_lt' (Nat.lt_trans hlt (by decide)), toInt64_of_lt (by omega)]

end Length

/-- The body is taken from the buffer first, and the rest of it from the stream. -/
theorem plainBody_arrives {length : Nat} (hlt : length < 2 ^ 31) (data : Bytes) (s : Stream)
    {response : HttpResponse} (hbody : response.body = [])
    (h : length ≤ data.length + s.unread.length) :
    ∃ t, (plainBody length data s response).outcome =
        .returned ({ response with body := (data ++ s.unread).take length }, t) ∧
      t.unread = s.unread.drop (length - data.length) := by
  have hmax : 2 ^ 31 ≤ stringMaxSize := by decide
  by_cases hzero : length = 0
  · subst hzero
    refine ⟨s, ?_, by simp⟩
    rw [List.take_zero, ← hbody]
    rfl
  rw [plainBody, if_pos (by omega), if_neg (by omega)]
  by_cases hdata : length ≤ data.length
  · -- all of the body is in the buffer
    have hcopied : (if (data.length : Int) ≤ length then (data.length : Int) else length) = length := by
      split <;> omega
    refine ⟨s, ?_, by rw [Nat.sub_eq_zero_of_le hdata, List.drop_zero]⟩
    rw [hcopied, Logged.outcome_tell, if_neg (by omega), Int.toNat_natCast,
      List.take_append_of_le_length hdata]
    rfl
  · have hleft : ((length : Int) - data.length).toNat = length - data.length := by omega
    have hle : length - data.length ≤ s.unread.length := by omega
    obtain ⟨cuts, hread⟩ := Stream.readFixSize_of_le hle
    have hrt : toInt32 (length - data.length) = (length - data.length : Nat) :=
      toInt32_of_lt (by omega)
    refine ⟨⟨s.unread.drop (length - data.length), cuts⟩, ?_, rfl⟩
    rw [if_pos (by omega), Logged.outcome_tell, if_pos (by omega), hleft, hread]
    simp only [hrt]
    rw [if_neg (by omega), Int.toNat_natCast, List.take_length, List.take_append,
      List.take_of_length_le (by omega : data.length ≤ length)]
    rfl

/-- Without the whole body the call gives up. -/
theorem plainBody_spec {length : Nat} (hlt : length < 2 ^ 31) (data : Bytes) (s : Stream)
    {response : HttpResponse} (hbody : response.body = []) :
    (length ≤ data.length + s.unread.length → ∃ t, (plainBody length data s response).outcome =
      .returned ({ response with body := (data ++ s.unread).take length }, t)) ∧
    (data.length + s.unread.length < length →
      (plainBody length data s response).outcome = .gaveUp) := by
  have hmax : 2 ^ 31 ≤ stringMaxSize := by decide
  refine ⟨fun h => ?_, fun h => ?_⟩
  · obtain ⟨t, hrun, -⟩ := plainBody_arrives hlt data s hbody h
    exact ⟨t, hrun⟩
  · have hleft : ((length : Int) - data.length).toNat = length - data.length := by omega
    rw [plainBody, if_pos (by omega), if_neg (by omega), if_pos (by omega), Logged.outcome_tell,
      if_pos (by omega), hleft, Stream.readFixSize_of_lt (by omega)]
    rfl

/-- The first read brings a header block at whose end the scan stops. -/
theorem responseHeader_scan (lexicalCast : LexicalCast) {bufferSize : Nat}
    (hbuf : bufferSize ≤ maxTransfer) {block rest : Bytes} (hne : block ≠ []) {cuts : List Nat}
    {k : Nat} (hk : ready (block.length + rest.length) cuts bufferSize = block.length + k)
    {r : HttpResponseParser} (hscan : scan (step (block ++ rest.take k))
      (httpclientParserStart, .new) 0 (block ++ rest.take k) =
        .ok ⟨(httpclientParserFirstFinal, r), block.length, .stopped⟩) (herror : r.error = 0) :
    (responseHeader (responseParser lexicalCast) bufferSize ⟨block ++ rest, cuts⟩).outcome =
      .returned (left ⟨(httpclientParserFirstFinal, r), block.length, .stopped⟩, rest.take k,
        ⟨rest.drop k, cuts.tail⟩) := by
  have hlen : block.length + k ≤ bufferSize := hk ▸ ready_le ..
  have hleft : block.length + k ≤ block.length + rest.length := hk ▸ ready_le_left ..
  have hpos : 0 < block.length := List.length_pos_iff.mpr hne
  have hread : (⟨block ++ rest, cuts⟩ : Stream).read (bufferSize - ([] : Bytes).length) =
      some (block ++ rest.take k, ⟨rest.drop k, cuts.tail⟩) := Stream.read_past hne hk
  have htake : (block ++ rest.take k).length = block.length + k := by
    rw [List.length_append, List.length_take]
    omega
  have hne' : block ++ rest.take k ≠ [] := by simp [hne]
  obtain ⟨e, he, -, hstop, hexec⟩ := execute_new hne' (by omega)
  rw [hscan] at he
  obtain rfl := Except.ok.inj he
  obtain ⟨hbody, -⟩ := hstop rfl
  rw [hbody, if_pos hpos.ne'] at hexec
  have hno : (left ⟨(httpclientParserFirstFinal, r), block.length, .stopped⟩).hasError = false := by
    simp [HttpResponseParser.hasError, left, herror, httpclientParserFirstFinal,
      httpclientParserError]
  have hfin : (left ⟨(httpclientParserFirstFinal, r), block.length, .stopped⟩).isFinished = true :=
    rfl
  have hloop : (responseHeader (responseParser lexicalCast) bufferSize
      ⟨block ++ rest, cuts⟩).outcome = _ :=
    parseLoop_read hread hexec fun _ => ⟨Int.natCast_nonneg _, by simp⟩
  rw [List.nil_append, Int.toNat_natCast, List.drop_left, hno, hfin, if_neg (by decide),
    if_neg (by rw [List.length_take]; omega), if_pos rfl] at hloop
  exact hloop

theorem ResponseBlock.bytes_ne (b : ResponseBlock) : b.bytes ≠ [] := by
  simp [ResponseBlock.bytes, crlf]

/-- The first read brings the header block, and `recvResponse` goes on behind it. -/
theorem responseHeader_block (lexicalCast : LexicalCast) {bufferSize : Nat}
    (hbuf : bufferSize ≤ maxTransfer) {b : ResponseBlock} (hb : b.WellFormed)
    (hplain : b.NotChunked) (hlast : b.LastSays)
    (hlength : ∀ f ∈ b.fields, f.Named "content-length" → f.value ≠ []) {rest : Bytes}
    {cuts : List Nat} {k : Nat}
    (hk : ready (b.bytes.length + rest.length) cuts bufferSize = b.bytes.length + k) :
    ∃ r, (responseHeader (responseParser lexicalCast) bufferSize ⟨b.bytes ++ rest, cuts⟩).outcome =
        .returned (r, rest.take k, ⟨rest.drop k, cuts.tail⟩) ∧
      r.data.headers = b.headers ∧ r.data.body = [] ∧ r.parser.chunked = false := by
  have hlen : b.bytes.length + k ≤ bufferSize := hk ▸ ready_le ..
  have hmax : maxTransfer ≤ stringMaxSize := by decide
  have htake : (b.bytes ++ rest.take k).length ≤ b.bytes.length + k := by
    rw [List.length_append, List.length_take]
    omega
  obtain ⟨r, hscan, hreading⟩ := scan_block hb hplain hlast hlength (rest.take k) (by omega)
  exact ⟨_, responseHeader_scan lexicalCast hbuf b.bytes_ne hk hscan hreading.error,
    hreading.headers, hreading.body, hreading.chunked⟩

/-- For a response that is not chunked and says its length in one `Content-Length`, and whose header
block arrives in the first read: `recvResponse` returns the body behind the block, and it gives up
exactly if the stream ends before the body has arrived. -/
theorem recvResponse_fixedLength (env : Env) (b : ResponseBlock) (hb : b.WellFormed)
    (hplain : b.NotChunked) (hlast : b.LastSays) (length : Nat) (hlength : b.HasLength length)
    (hlt : length < 2 ^ 31) (rest : Bytes) (cuts : List Nat)
    (hfirst : b.bytes.length ≤ ready (b.bytes.length + rest.length) cuts env.bufferSize) :
    (length ≤ rest.length → ∃ response s, (recvResponse (responseParser env.lexicalCast)
        env.bufferSize ⟨b.bytes ++ rest, cuts⟩).outcome = .returned (response, s) ∧
      response.body = rest.take length) ∧
    ((recvResponse (responseParser env.lexicalCast) env.bufferSize
        ⟨b.bytes ++ rest, cuts⟩).outcome = .gaveUp ↔ rest.length < length) := by
  obtain ⟨k, hk⟩ := Nat.exists_eq_add_of_le hfirst
  obtain ⟨r, hret, hheaders, hbody, hchunked⟩ := responseHeader_block env.lexicalCast
    env.bufferSize_le hb hplain hlast hlength.value_ne hk
  have hchunked' : (responseParser env.lexicalCast).chunked r = false := hchunked
  have hsize : toInt64 ((responseParser env.lexicalCast).getContentLength r).toNat = length :=
    hlength.getContentLength hlt env.lexicalCast hheaders
  rw [recvResponse, outcome_bind_returned hret]
  simp only [recvBehindHeader, hchunked', Bool.false_eq_true, if_false, hsize]
  have hsplit : rest.take k ++ rest.drop k = rest := List.take_append_drop ..
  have hparts : (rest.take k).length + (rest.drop k).length = rest.length := by
    rw [← List.length_append, hsplit]
  obtain ⟨hall, hshort⟩ := plainBody_spec hlt (rest.take k) ⟨rest.drop k, cuts.tail⟩ hbody
  rw [hparts] at hall hshort
  simp only [hsplit] at hall
  refine ⟨fun h => ?_, fun h => ?_, hshort⟩
  · obtain ⟨t, hrun⟩ := hall h
    exact ⟨_, t, hrun, rfl⟩
  · by_contra hge
    obtain ⟨t, hrun⟩ := hall (by omega)
    have hrun' := hrun.symm.trans h
    cases hrun'

section Hello

/-- A header block with a length of twelve. -/
def helloBlock : ResponseBlock :=
  ⟨49, ascii "200", ascii "OK", [⟨ascii "Content-Length", ascii " ", ascii "12"⟩,
    ⟨ascii "Connection", ascii " ", ascii "close"⟩]⟩

/-- It comes with the first bytes of the body, and more follows. -/
def helloStream : Stream :=
  ⟨helloBlock.bytes ++ ascii "hello saturn HTTP/1.1", [helloBlock.bytes.length + 5, 3]⟩

/-- A body in three pieces, with other bytes behind it. -/
theorem recvResponse_fixedLength_hello :
    ∃ response s, (recvResponse (responseParser .plain) clientEnv.bufferSize helloStream).outcome =
        .returned (response, s) ∧ response.body = ascii "hello saturn" :=
  (recvResponse_fixedLength clientEnv helloBlock (by decide +kernel) (by decide)
    (by decide) 12 ⟨⟨ascii "Content-Length", ascii " ", ascii "12"⟩, by decide,
      by decide⟩ (by decide) (ascii "hello saturn HTTP/1.1")
    [helloBlock.bytes.length + 5, 3] (by decide)).1 (by decide)

/-- A blank behind the length, which is 5 for every reader that takes off the blanks around a
value. -/
def blankBlock : ResponseBlock :=
  ⟨49, ascii "200", ascii "OK", [⟨ascii "Content-Length", ascii " ", ascii "5 "⟩]⟩

/-- An empty `Connection` at the end of the block. -/
def emptyBlock : ResponseBlock :=
  ⟨49, ascii "200", ascii "OK", [⟨ascii "Content-Length", ascii " ", ascii "5"⟩,
    ⟨ascii "Connection", [], []⟩]⟩

/-- The five bytes of the body have arrived with the block: the first response comes without a body,
and the second one not at all. -/
theorem fixedLength_lost :
    (blankBlock.WellFormed ∧ blankBlock.NotChunked ∧
      lengthLines blankBlock.bytes = [ascii "Content-Length: 5 "] ∧
      decimal (fieldValue (ascii "Content-Length: 5 ")) = some 5 ∧
      ∃ response s, (recvResponse (responseParser .plain) clientEnv.bufferSize
          ⟨blankBlock.bytes ++ ascii "hello", []⟩).outcome = .returned (response, s) ∧
        response.body = []) ∧
    (emptyBlock.WellFormed ∧ emptyBlock.NotChunked ∧ emptyBlock.HasLength 5 ∧
      (recvResponse (responseParser .plain) clientEnv.bufferSize
        ⟨emptyBlock.bytes ++ ascii "hello", []⟩).outcome = .gaveUp) := by
  refine ⟨⟨by decide +kernel, by decide, by decide, by decide,
    { HttpResponse.new with
      reason := ascii "OK"
      headers := [(ascii "Content-Length", ascii "5 ")] }, ⟨[], []⟩, by decide, rfl⟩,
    by decide +kernel, by decide, ⟨⟨ascii "Content-Length", ascii " ", ascii "5"⟩,
      by decide, by decide⟩, by decide⟩

end Hello

end Http

end Saturn
