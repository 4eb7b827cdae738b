import Saturn.Http.HeaderLoop

/-!
# A header block that arrives in pieces

`http_parser_execute` adds the bytes of each call to `nread` and asserts that the sum stays within
the buffer of the last call. `recvRequest` moves the consumed bytes out of the buffer, so the
second piece of a header block always trips the assertion, unless a stale mark makes a callback
throw first.
-/

namespace Saturn

namespace Http

/-- What the loop leaves behind the first of several pieces: nothing in the buffer, and a parser
that has counted the piece. -/
theorem headerStep_first_piece {env : Env} {junk : Junk} {first later : Bytes}
    {e : Scanned (Nat × HttpRequestParser)} {parser : HttpRequestParser} {offset : Int}
    {data : Bytes} (hfirst : first ≠ [])
    (hwhole : scan (http11Step env.rest (first ++ later)) (httpParserStart, .new junk) 0
      (first ++ later) = .ok e) (hpos : (first ++ later).length ≤ e.pos) (hlater : later ≠ [])
    (hstep : headerStep env (.new junk) first = .ok (parser, offset, data)) :
    data = [] ∧ parser.parser.nread = first.length ∧ parser.isFinished = false ∧
      (parser.hasError = false → ∃ t, SameState t (parser.parser.cs, parser) ∧
        scan (http11Step env.rest (first ++ later)) t first.length later = .ok e) := by
  have hlen : 0 < later.length := List.length_pos_iff.mpr hlater
  rw [List.length_append] at hpos
  obtain ⟨t, hprefix, hrest⟩ := scan_append_atEnd hwhole (by omega)
  obtain ⟨d, hscan, rfl, -, -, rfl⟩ := headerStep_cases hfirst hstep
  obtain ⟨hsame, hhalt, hd⟩ := scan_related (fun _ _ _ _ _ _ _ => http11Step_related) first ⟨rfl, rfl⟩
    hprefix hscan
  have hnread : (HttpRequestParser.new junk).parser.nread = 0 := rfl
  have hctrl : d.state.2.parser.nread = 0 ∧ d.state.2.parser.cs = httpParserStart :=
    ⟨(scan_keeps hscan).nread, (scan_keeps hscan).cs⟩
  have hdpos : d.pos = first.length := by simp only at hd; omega
  have hend : endState d = d.state.1 := by
    rw [endState, if_neg (by simp [← hhalt])]
  have hcs : (afterScan d).parser.cs = d.state.1 := by
    rw [afterScan]
    simp only
    rw [if_neg (by rw [hctrl.2]; decide), hend]
  have hlt : d.state.1 < httpParserFirstFinal :=
    scan_lt_firstFinal (s := (httpParserStart, .new junk)) httpParserStart_lt hscan
      (by simp [← hhalt])
  refine ⟨?_, ?_, ?_, fun _ => ⟨t, ⟨?_, hsame.2⟩, ?_⟩⟩
  · rw [hnread, hdpos, Nat.zero_add, List.drop_length]
  · show d.state.2.parser.nread + d.pos = first.length
    omega
  · rw [HttpRequestParser.isFinished, hcs]
    exact decide_eq_false (by omega)
  · rw [hcs]
    exact hsame.1
  · rw [Nat.zero_add] at hrest
    exact hrest

/-- The second piece of a header block trips the assertion on `nread`. -/
theorem headerStep_second_piece {env : Env} {parser : HttpRequestParser} {t : Nat × HttpRequestParser}
    {e : Scanned (Nat × HttpRequestParser)} {second later whole : Bytes} {p : Nat}
    (hsecond : second ≠ []) (hsame : SameState t (parser.parser.cs, parser))
    (hwhole : scan (http11Step env.rest whole) t p (second ++ later) = .ok e)
    (hpos : p + second.length ≤ e.pos) (hnread : 0 < parser.parser.nread) :
    ∀ out, headerStep env parser second ≠ .ok out := by
  rintro ⟨parser', offset, data'⟩ hstep
  obtain ⟨d, hd, hdpos⟩ := scan_append_first hwhole hpos
  obtain ⟨d', hscan, rfl, hwithin, -, -⟩ := headerStep_cases hsecond hstep
  obtain ⟨-, -, hd'⟩ := scan_related (fun _ _ _ _ _ _ _ => http11Step_related) second hsame hd hscan
  have hcount : (afterScan d').parser.nread = parser.parser.nread + second.length := by
    show d'.state.2.parser.nread + d'.pos = _
    have hkeep : d'.state.2.parser.nread = parser.parser.nread := (scan_keeps hscan).nread
    omega
  have hle := hwithin.1
  omega

/-- The request, the offsets and the assertions are what they are when the block is not cut. -/
def ReceivesSame (env : Env) (junk : Junk) (whole : Received) (pieces : List Bytes) : Prop :=
  ∃ cut, recvHeader env junk (.ofPieces pieces) = .ok (some cut) ∧
    cut.parser.data = whole.parser.data ∧ ∀ o ∈ cut.offsets, 0 ≤ o.1 ∧ o.1 ≤ (o.2 : Int)

/-- No header block that is received whole is received in two or more pieces. -/
theorem not_receivesSame_of_cut (env : Env) (junk : Junk) (block : Bytes) (whole : Received)
    (pieces : List Bytes) (hlen : block.length < env.bufferSize)
    (hwhole : recvHeader env junk (.ofPieces [block]) = .ok (some whole)) (hdata : whole.data = [])
    (hpieces : pieces.flatten = block) (hne : ∀ piece ∈ pieces, piece ≠ [])
    (htwo : 2 ≤ pieces.length) : ¬ ReceivesSame env junk whole pieces := by
  rintro ⟨cut, hcut, -, -⟩
  match pieces, htwo with
  | first :: second :: others, _ =>
      have hfirst : first ≠ [] := hne first List.mem_cons_self
      have hsecond : second ≠ [] := hne second (List.mem_cons_of_mem _ List.mem_cons_self)
      rw [List.flatten_cons, List.flatten_cons] at hpieces
      have hlater : second ++ others.flatten ≠ [] := by simp [hsecond]
      subst hpieces
      have hlens := hlen
      simp only [List.length_append] at hlens
      obtain ⟨e, hscan, hpos, -⟩ :=
        scan_of_recvHeader_whole (by simp [hfirst]) hlen.le hwhole hdata
      have hmax := env.bufferSize_le
      -- the first piece is counted and leaves the buffer
      obtain ⟨n, bytes, stream, parser, offset, data, -, hread, hstep, herror, -, hcases⟩ :=
        headerLoop_eq_some hcut
      have hpiece : Stream.read (.ofPieces (first :: second :: others)) env.bufferSize =
          some (first, .ofPieces (second :: others)) :=
        Stream.read_piece rfl rfl hfirst (by omega) (by omega)
      simp only [List.length_nil, Nat.sub_zero, hpiece] at hread
      cases hread
      rw [List.nil_append] at hstep
      obtain ⟨rfl, hnread, hfin, hsame⟩ :=
        headerStep_first_piece hfirst hscan hpos.ge hlater hstep
      rcases hcases with ⟨hfin', -⟩ | ⟨-, hloop⟩
      · rw [hfin] at hfin'
        cases hfin'
      -- and the second one exceeds the count of its own read
      obtain ⟨t, hsame, hrest⟩ := hsame herror
      obtain ⟨m, bytes', stream', parser', offset', data', -, hread', hstep', -⟩ :=
        headerLoop_eq_some hloop
      have hpiece' : Stream.read (.ofPieces (second :: others)) env.bufferSize =
          some (second, .ofPieces others) :=
        Stream.read_piece rfl rfl hsecond (by omega) (by omega)
      simp only [List.length_nil, Nat.sub_zero, hpiece'] at hread'
      cases hread'
      rw [List.nil_append] at hstep'
      have hfirstLen : 0 < first.length := List.length_pos_iff.mpr hfirst
      simp only [List.length_append] at hpos
      exact headerStep_second_piece hsecond hsame hrest (by omega) (by omega) _ hstep'

section Cut

/-- A buffer of 4096 bytes. -/
def cutEnv : Env := .plain 4096 plainSize_le

/-- A request without fields. -/
def getRequest : Bytes := ascii "GET / HTTP/1.1\r\n\r\n"

/-- It is cut inside the version. -/
def getPieces : List Bytes := [ascii "GET / HT", ascii "TP/1.1\r\n\r\n"]

/-- What comes of it in one read. -/
def getReceived : Received :=
  (recvHeader cutEnv ⟨0, false⟩ (.ofPieces [getRequest])).toOption.join.get (by decide)

/-- In one read the request is received; cut in the version it ends in the assertion. -/
theorem getRequest_cut_asserts :
    recvHeader cutEnv ⟨0, false⟩ (.ofPieces [getRequest]) = .ok (some getReceived) ∧
    getReceived.data = [] ∧ getPieces.flatten = getRequest ∧
    recvHeader cutEnv ⟨0, false⟩ (.ofPieces getPieces) = .error .assertion ∧
    ¬ ReceivesSame cutEnv ⟨0, false⟩ getReceived getPieces := by
  have hcut : recvHeader cutEnv ⟨0, false⟩ (.ofPieces getPieces) = .error .assertion := by
    decide
  refine ⟨by decide, by decide, by decide, hcut, ?_⟩
  rintro ⟨cut, h, -⟩
  rw [hcut] at h
  cases h

theorem getRequest_cut_not_receivesSame :
    ¬ ReceivesSame cutEnv ⟨0, false⟩ getReceived getPieces :=
  not_receivesSame_of_cut cutEnv ⟨0, false⟩ getRequest getReceived getPieces (by decide)
    (by decide) (by decide) (by decide) (by decide) (by decide)

end Cut

end Http

end Saturn
