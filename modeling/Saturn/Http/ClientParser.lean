import Saturn.Http.Httpclient

/-!
# Runs of the response parser

The marks that the actions set stay behind the position of the machine, so no action throws and the
checks at the end of `httpclient_parser_execute` pass. A response header that the parser takes when
it is alone in the buffer is taken as well when bytes follow.
-/

namespace Saturn

namespace Http

namespace Client

/-- Where the marks and the start of the body are while the machine is at position `p`. -/
structure MarkedAt (r : HttpResponseParser) (p : Nat) : Prop where
  mark : r.parser.mark ≤ p
  fieldStart : r.parser.fieldStart ≤ p
  fieldLen : r.parser.fieldLen ≤ p

/-- The same when it comes to position `p`. -/
def Marked (s : Nat × HttpResponseParser) (p : Nat) : Prop := MarkedAt s.2 (p - 1)

/-- What the callers depend on: the marks, the flag `chunked`, the start of the body and the
error. -/
structure SameMarks (r r' : HttpResponseParser) : Prop where
  mark : r.parser.mark = r'.parser.mark
  fieldStart : r.parser.fieldStart = r'.parser.fieldStart
  fieldLen : r.parser.fieldLen = r'.parser.fieldLen
  chunked : r.parser.chunked = r'.parser.chunked
  bodyStart : r.parser.bodyStart = r'.parser.bodyStart
  error : r.error = r'.error

section Actions

variable {r r' r₁ r₁' : HttpResponseParser} {buffer buffer' : Bytes} {p : Nat}

theorem MarkedAt.mono (h : MarkedAt r p) {q : Nat} (hpq : p ≤ q) : MarkedAt r q :=
  ⟨h.mark.trans hpq, h.fieldStart.trans hpq, h.fieldLen.trans hpq⟩

theorem lenFrom_le {start p : Nat} (h : start ≤ p) : lenFrom start p ≤ p := by
  rw [lenFrom, if_pos h]
  omega

theorem makeString_ok {pos length : Nat} (h : length ≤ stringMaxSize) :
    makeString buffer pos length = .ok ((buffer.drop pos).take length) := by
  rw [makeString, if_neg (by omega)]

theorem onResponseHttpField_ok (r : HttpResponseParser) (buffer : Bytes)
    {field flen value vlen : Nat} (hflen : flen ≤ stringMaxSize) (hvlen : vlen ≤ stringMaxSize) : ∃ headers,
    onResponseHttpField r buffer field flen value vlen = .ok { r with data.headers := headers } := by
  rw [onResponseHttpField]
  split
  · exact ⟨r.data.headers, rfl⟩
  · rw [makeString_ok hflen, makeString_ok hvlen]
    exact ⟨_, rfl⟩

theorem onResponseHttpField_eq_ok {field flen value vlen : Nat}
    (h : onResponseHttpField r buffer field flen value vlen = .ok r₁) :
    ∃ headers, r₁ = { r with data.headers := headers } := by
  rw [onResponseHttpField] at h
  split at h
  · obtain rfl := Except.ok.inj h
    exact ⟨r.data.headers, rfl⟩
  · obtain ⟨name, -, h⟩ := except_bind_eq_ok.mp h
    obtain ⟨val, -, rfl⟩ := except_map_eq_ok.mp h
    exact ⟨_, rfl⟩

theorem onResponseVersion_ok (r : HttpResponseParser) (buffer : Bytes) {pos length : Nat}
    (h : length ≤ stringMaxSize) : ∃ version error,
    onResponseVersion r buffer pos length = .ok { r with data.version := version, error := error } := by
  rw [onResponseVersion]
  split
  · exact ⟨_, _, rfl⟩
  split
  · exact ⟨_, _, rfl⟩
  · rw [makeString_ok h]
    exact ⟨_, _, rfl⟩

theorem Action.run_ok (buffer : Bytes) (h : MarkedAt r p) (hp : p ≤ stringMaxSize) (a : Action) :
    ∃ r', a.run buffer p r = .ok r' ∧ MarkedAt r' p := by
  have hmark := (lenFrom_le h.mark).trans hp
  cases a with
  | mark | startValue => exact ⟨_, rfl, le_refl _, h.fieldStart, h.fieldLen⟩
  | startField => exact ⟨_, rfl, h.mark, le_refl _, h.fieldLen⟩
  | writeField => exact ⟨_, rfl, h.mark, h.fieldStart, lenFrom_le h.fieldStart⟩
  | writeContentLen | writeConnectionClose | statusCode | chunkSize | transChunked =>
      exact ⟨_, rfl, h.mark, h.fieldStart, h.fieldLen⟩
  | writeValue =>
      obtain ⟨headers, hrun⟩ := onResponseHttpField_ok r buffer (h.fieldLen.trans hp) hmark
      exact ⟨_, hrun, h.mark, h.fieldStart, h.fieldLen⟩
  | reasonPhrase =>
      refine ⟨{ r with data.reason := (buffer.drop r.parser.mark).take (lenFrom r.parser.mark p) },
        ?_, h.mark, h.fieldStart, h.fieldLen⟩
      rw [Action.run, onResponseReason, makeString_ok hmark]
      rfl
  | httpVersion =>
      obtain ⟨version, error, hrun⟩ := onResponseVersion_ok r buffer hmark
      exact ⟨_, hrun, h.mark, h.fieldStart, h.fieldLen⟩

theorem runActions_ok (buffer : Bytes) (hp : p ≤ stringMaxSize) (actions : List Action) :
    ∀ {r}, MarkedAt r p → ∃ r', runActions buffer p r actions = .ok r' ∧ MarkedAt r' p := by
  induction actions with
  | nil => exact fun {r} h => ⟨r, rfl, h⟩
  | cons a as ih =>
      intro r h
      obtain ⟨r₁, hrun, h₁⟩ := Action.run_ok buffer h hp a
      obtain ⟨r', hrest, h'⟩ := ih h₁
      exact ⟨r', by rw [runActions, hrun]; exact hrest, h'⟩

theorem strncmpEq_congr {s s' : Bytes} (t : Bytes) {n : Nat} (h : s.take n = s'.take n) :
    strncmpEq s t n = strncmpEq s' t n := by
  have hcstr : (cstr s ++ [0]).take n = (cstr s' ++ [0]).take n := by
    induction n generalizing s s' with
    | zero => rfl
    | succ n ih =>
        cases s with
        | nil =>
            cases s' with
            | nil => rfl
            | cons c s' => simp at h
        | cons c s =>
            cases s' with
            | nil => simp at h
            | cons d s' =>
                obtain ⟨rfl, htail⟩ := List.cons.inj h
                by_cases hc : c = 0
                · simp [cstr, hc]
                · have := ih htail
                  simpa [cstr, hc] using this
  rw [strncmpEq, strncmpEq, hcstr]

/-- An action depends on the bytes in front of the machine alone. -/
theorem Action.run_same (hs : SameMarks r r') (hm : MarkedAt r p)
    (hbuf : buffer.take p = buffer'.take p) {a : Action} (h : a.run buffer p r = .ok r₁)
    (h' : a.run buffer' p r' = .ok r₁') : SameMarks r₁ r₁' := by
  obtain ⟨hmark, hstart, hlen, hchunked, hbody, herror⟩ := hs
  cases a with
  | mark | startValue | startField | writeConnectionClose | transChunked | writeContentLen |
      statusCode | chunkSize =>
      obtain rfl := Except.ok.inj h
      obtain rfl := Except.ok.inj h'
      constructor <;> first | rfl | assumption
  | writeField =>
      obtain rfl := Except.ok.inj h
      obtain rfl := Except.ok.inj h'
      exact ⟨hmark, hstart, by simp only [hstart], hchunked, hbody, herror⟩
  | writeValue =>
      obtain ⟨_, rfl⟩ := onResponseHttpField_eq_ok h
      obtain ⟨_, rfl⟩ := onResponseHttpField_eq_ok h'
      exact ⟨hmark, hstart, hlen, hchunked, hbody, herror⟩
  | reasonPhrase =>
      obtain ⟨-, -, rfl⟩ := except_map_eq_ok.mp h
      obtain ⟨-, -, rfl⟩ := except_map_eq_ok.mp h'
      exact ⟨hmark, hstart, hlen, hchunked, hbody, herror⟩
  | httpVersion =>
      have htake : (buffer.drop r.parser.mark).take (lenFrom r.parser.mark p) =
          (buffer'.drop r.parser.mark).take (lenFrom r.parser.mark p) := by
        rw [lenFrom, if_pos hm.mark, ← List.drop_take, ← List.drop_take, hbuf]
      rw [Action.run, onResponseVersion] at h h'
      rw [← hmark, ← strncmpEq_congr _ htake, ← strncmpEq_congr _ htake] at h'
      split at h
      · rename_i hver
        rw [if_pos hver] at h'
        obtain rfl := Except.ok.inj h
        obtain rfl := Except.ok.inj h'
        exact ⟨hmark, hstart, hlen, hchunked, hbody, herror⟩
      rename_i hver
      rw [if_neg hver] at h'
      split at h
      · rename_i hver₀
        rw [if_pos hver₀] at h'
        obtain rfl := Except.ok.inj h
        obtain rfl := Except.ok.inj h'
        exact ⟨hmark, hstart, hlen, hchunked, hbody, herror⟩
      · rename_i hver₀
        rw [if_neg hver₀] at h'
        obtain ⟨-, -, rfl⟩ := except_map_eq_ok.mp h
        obtain ⟨-, -, rfl⟩ := except_map_eq_ok.mp h'
        exact ⟨hmark, hstart, hlen, hchunked, hbody, rfl⟩

theorem runActions_same (hp : p ≤ stringMaxSize) (hbuf : buffer.take p = buffer'.take p)
    (actions : List Action) : ∀ {r r'}, SameMarks r r' → MarkedAt r p →
    runActions buffer p r actions = .ok r₁ → runActions buffer' p r' actions = .ok r₁' →
    SameMarks r₁ r₁' := by
  induction actions with
  | nil =>
      intro r r' hs _ h h'
      obtain rfl := Except.ok.inj h
      obtain rfl := Except.ok.inj h'
      exact hs
  | cons a as ih =>
      intro r r' hs hm h h'
      obtain ⟨q, hq, h⟩ := except_bind_eq_ok.mp h
      obtain ⟨q', hq', h'⟩ := except_bind_eq_ok.mp h'
      obtain ⟨_, hok, hm'⟩ := Action.run_ok buffer hm hp a
      obtain rfl := Except.ok.inj (hq.symm.trans hok)
      exact ih (Action.run_same hs hm hbuf hq hq') hm' h h'

end Actions

section Scan

variable {buffer buffer' : Bytes} {s t : Nat × HttpResponseParser} {p : Nat} {c : UInt8}
  {m m' : Move (Nat × HttpResponseParser)}

theorem step_ok (buffer : Bytes) (h : Marked s p) (hp : p ≤ stringMaxSize) (c : UInt8) :
    ∃ m, step buffer s p c = .ok m ∧ m.Reaches (Marked · (p + 1)) := by
  have hat := h.mono (Nat.sub_le p 1)
  rw [step]
  split
  · exact ⟨_, rfl, trivial⟩
  · rename_i actions cs _
    obtain ⟨r, hr, hmark⟩ := runActions_ok buffer hp actions hat
    exact ⟨.goto (cs, r), by rw [hr]; rfl, hmark⟩
  · rename_i actions cs _
    obtain ⟨r, hr, hmark⟩ := runActions_ok buffer hp actions hat
    exact ⟨.stop (cs, { r with parser.bodyStart := p + 1 }), by rw [hr]; rfl, hmark.mark,
      hmark.fieldStart, hmark.fieldLen⟩

/-- What a step is, by the transition that the byte selects. -/
theorem step_cases (h : step buffer s p c = .ok m) :
    (next s.1 c = none ∧ m = .fail) ∨
    (∃ actions cs r, next s.1 c = some (.goto actions cs) ∧
      runActions buffer p s.2 actions = .ok r ∧ m = .goto (cs, r)) ∨
    (∃ actions cs r, next s.1 c = some (.done actions cs) ∧
      runActions buffer p s.2 actions = .ok r ∧
      m = .stop (cs, { r with parser.bodyStart := p + 1 })) := by
  unfold step at h
  split at h
  next hnext => exact .inl ⟨hnext, (Except.ok.inj h).symm⟩
  next actions cs hnext =>
    obtain ⟨r, hr, rfl⟩ := except_map_eq_ok.mp h
    exact .inr (.inl ⟨actions, cs, r, hnext, hr, rfl⟩)
  next actions cs hnext =>
    obtain ⟨r, hr, rfl⟩ := except_map_eq_ok.mp h
    exact .inr (.inr ⟨actions, cs, r, hnext, hr, rfl⟩)

/-- No action sets the start of the body or the count. -/
structure SameCounts (r r' : HttpResponseParser) : Prop where
  bodyStart : r'.parser.bodyStart = r.parser.bodyStart
  nread : r'.parser.nread = r.parser.nread

theorem Action.run_counts {a : Action} {r r' : HttpResponseParser}
    (h : a.run buffer p r = .ok r') : SameCounts r r' := by
  cases a with
  | mark | startValue | startField | writeField | writeContentLen | writeConnectionClose |
      statusCode | chunkSize | transChunked =>
      obtain rfl := Except.ok.inj h
      exact ⟨rfl, rfl⟩
  | writeValue =>
      obtain ⟨_, rfl⟩ := onResponseHttpField_eq_ok h
      exact ⟨rfl, rfl⟩
  | reasonPhrase =>
      obtain ⟨-, -, rfl⟩ := except_map_eq_ok.mp h
      exact ⟨rfl, rfl⟩
  | httpVersion =>
      rw [Action.run, onResponseVersion] at h
      split at h
      · obtain rfl := Except.ok.inj h
        exact ⟨rfl, rfl⟩
      split at h
      · obtain rfl := Except.ok.inj h
        exact ⟨rfl, rfl⟩
      · obtain ⟨-, -, rfl⟩ := except_map_eq_ok.mp h
        exact ⟨rfl, rfl⟩

theorem runActions_counts (actions : List Action) : ∀ {r r' : HttpResponseParser},
    runActions buffer p r actions = .ok r' → SameCounts r r' := by
  induction actions with
  | nil =>
      intro r r' h
      obtain rfl := Except.ok.inj h
      exact ⟨rfl, rfl⟩
  | cons a as ih =>
      intro r r' h
      obtain ⟨r₁, ha, has⟩ := except_bind_eq_ok.mp h
      obtain ⟨hbody, hnread⟩ := Action.run_counts ha
      obtain ⟨hbody', hnread'⟩ := ih has
      exact ⟨hbody'.trans hbody, hnread'.trans hnread⟩

/-- Only `done` sets the start of the body, behind the byte at which the scan stops. -/
theorem scan_bodyStart {e : Scanned (Nat × HttpResponseParser)} {xs : Bytes}
    (h : scan (step buffer) s p xs = .ok e) :
    (e.halt ≠ .stopped → e.state.2.parser.bodyStart = s.2.parser.bodyStart) ∧
    (e.halt = .stopped → e.state.2.parser.bodyStart = e.pos ∧ 0 < e.pos) := by
  obtain ⟨hgo, hstop⟩ := scan_invariant
    (I := fun t => t.2.parser.bodyStart = s.2.parser.bodyStart) (fun t u q b hI hstep => by
      rcases step_cases hstep with ⟨-, hm⟩ | ⟨actions, cs, r, -, hr, hm⟩ | ⟨_, _, _, -, -, hm⟩
      · cases hm
      · obtain rfl := Move.goto.inj hm
        exact (runActions_counts actions hr).bodyStart.trans hI
      · cases hm) xs rfl h
  refine ⟨hgo, fun hhalt => ?_⟩
  obtain ⟨t, q, b, -, hstep, hpos⟩ := hstop hhalt
  rcases step_cases hstep with ⟨-, hm⟩ | ⟨_, _, _, -, -, hm⟩ | ⟨actions, cs, r, -, hr, hm⟩
  · cases hm
  · cases hm
  · rw [Move.stop.inj hm, hpos]
    exact ⟨rfl, Nat.succ_pos q⟩

/-- The scan itself does not count. -/
theorem scan_nread {e : Scanned (Nat × HttpResponseParser)} {xs : Bytes}
    (h : scan (step buffer) s p xs = .ok e) : e.state.2.parser.nread = s.2.parser.nread := by
  obtain ⟨hgo, hstop⟩ := scan_invariant
    (I := fun t => t.2.parser.nread = s.2.parser.nread) (fun t u q b hI hstep => by
      rcases step_cases hstep with ⟨-, hm⟩ | ⟨actions, cs, r, -, hr, hm⟩ | ⟨_, _, _, -, -, hm⟩
      · cases hm
      · obtain rfl := Move.goto.inj hm
        exact (runActions_counts actions hr).nread.trans hI
      · cases hm) xs rfl h
  by_cases hhalt : e.halt = .stopped
  · obtain ⟨t, q, b, hI, hstep, -⟩ := hstop hhalt
    rcases step_cases hstep with ⟨-, hm⟩ | ⟨_, _, _, -, -, hm⟩ | ⟨actions, cs, r, -, hr, hm⟩
    · cases hm
    · cases hm
    · rw [Move.stop.inj hm]
      exact (runActions_counts actions hr).nread.trans hI
  · exact hgo hhalt

/-- Two machines in one control state that agree on the marks. -/
def SameRun (s t : Nat × HttpResponseParser) (p : Nat) : Prop :=
  s.1 = t.1 ∧ SameMarks s.2 t.2 ∧ Marked s p

theorem step_same (hp : p ≤ stringMaxSize) (hbuf : buffer.take p = buffer'.take p)
    (h : SameRun s t p) (hm : step buffer s p c = .ok m) (hm' : step buffer' t p c = .ok m') :
    m.Related (SameRun · · (p + 1)) m' := by
  obtain ⟨hcs, hsame, hmarked⟩ := h
  have hat := hmarked.mono (Nat.sub_le p 1)
  have hkeep : ∀ {actions r}, runActions buffer p s.2 actions = .ok r → MarkedAt r p := by
    intro actions r hr
    obtain ⟨_, hok, hmark⟩ := runActions_ok buffer hp actions hat
    rw [Except.ok.inj (hr.symm.trans hok)]
    exact hmark
  rcases step_cases hm with
      ⟨h₁, rfl⟩ | ⟨actions, cs, r, h₁, hr, rfl⟩ | ⟨actions, cs, r, h₁, hr, rfl⟩ <;>
    rcases step_cases hm' with
      ⟨h₂, rfl⟩ | ⟨actions', cs', r', h₂, hr', rfl⟩ | ⟨actions', cs', r', h₂, hr', rfl⟩ <;>
    rw [hcs, h₂] at h₁ <;> cases h₁
  · trivial
  · exact ⟨rfl, runActions_same hp hbuf actions hsame hat hr hr', hkeep hr⟩
  · obtain ⟨hmark, hstart, hlen, hchunked, -, herror⟩ :=
      runActions_same hp hbuf actions hsame hat hr hr'
    have hkept := hkeep hr
    exact ⟨rfl, ⟨hmark, hstart, hlen, hchunked, rfl, herror⟩, hkept.mark, hkept.fieldStart,
      hkept.fieldLen⟩

end Scan

/-- What a scan leaves in the parser, and the count it returns: the bytes of all calls, and one more
where a header has ended. -/
def total (e : Scanned (Nat × HttpResponseParser)) : Nat := e.state.2.parser.nread + e.pos

/-- The new `nread`, which the call returns. -/
def count (e : Scanned (Nat × HttpResponseParser)) : Nat :=
  if e.state.2.parser.bodyStart ≠ 0 then total e + 1 else total e

/-- The parser as a call leaves it. -/
def left (e : Scanned (Nat × HttpResponseParser)) : HttpResponseParser :=
  { e.state.2 with
    parser.cs := if e.halt = .failed then httpclientParserError else e.state.1
    parser.nread := count e }

theorem marked_init (r : HttpResponseParser) :
    MarkedAt { r with parser := .init } 0 := ⟨le_refl _, le_refl _, le_refl _⟩

variable {r : HttpResponseParser} {buffer : Bytes}

/-- With no mark behind the start of the buffer, `httpclient_parser_execute` scans the buffer, and
only the assertions about the count and the start of the body can fail. -/
theorem execute_scan (behind : Bytes) (hmarked : MarkedAt r 0) (hne : buffer ≠ [])
    (hlen : buffer.length < 2 ^ 31) :
    ∃ e, scan (step (buffer ++ behind)) (r.parser.cs, r) 0 buffer = .ok e ∧
      e.pos ≤ buffer.length ∧ (e.halt = .atEnd → e.pos = buffer.length) ∧
      httpclientParserExecute behind r buffer =
        if buffer.length < total e ∨ buffer.length < e.state.2.parser.bodyStart then
          .error .assertion
        else .ok (left e, toInt32 (count e)) := by
  have hmax : 2 ^ 31 ≤ stringMaxSize := by decide
  obtain ⟨e, he, hmark⟩ := scan_keeps (I := Marked) (n := buffer.length)
    (fun s p b h hp => step_ok (buffer ++ behind) h (by omega) b) buffer
    (show Marked (r.parser.cs, r) 0 from hmarked) (by omega)
  obtain ⟨hend, hle⟩ := scan_pos he
  rw [Nat.zero_add] at hend hle
  refine ⟨e, he, hle, hend, ?_⟩
  have hpos : 0 < buffer.length := List.length_pos_iff.mpr hne
  obtain ⟨hmark, hstart, hflen⟩ := hmark
  rw [httpclientParserExecute, if_neg (not_not_intro (toInt32_of_lt hlen)), he]
  simp only [Except.bind]
  rw [total]
  by_cases hbad : buffer.length < e.state.2.parser.nread + e.pos ∨
      buffer.length < e.state.2.parser.bodyStart
  · rw [if_pos hbad, if_pos hbad]
  · rw [if_neg hbad, if_neg hbad, if_pos ⟨by omega, by omega, by omega⟩]
    rfl

/-- From the start of a header no assertion fails. -/
theorem execute_init (behind : Bytes) (r : HttpResponseParser) (hne : buffer ≠ [])
    (hlen : buffer.length < 2 ^ 31) :
    ∃ e, scan (step (buffer ++ behind)) (httpclientParserStart, { r with parser := .init }) 0 buffer =
        .ok e ∧ e.pos ≤ buffer.length ∧ (e.halt = .atEnd → e.pos = buffer.length) ∧
      total e = e.pos ∧ (e.halt ≠ .stopped → e.state.2.parser.bodyStart = 0) ∧
      (e.halt = .stopped → e.state.2.parser.bodyStart = e.pos ∧ 0 < e.pos) ∧
      httpclientParserExecute behind { r with parser := .init } buffer =
        .ok (left e, toInt32 (count e)) := by
  obtain ⟨e, he, hle, hend, hexec⟩ := execute_scan behind (marked_init r) hne hlen
  obtain ⟨hgo, hstop⟩ := scan_bodyStart he
  have htotal : total e = e.pos := by
    rw [total, scan_nread he]
    exact Nat.zero_add _
  refine ⟨e, he, hle, hend, htotal, hgo, hstop, ?_⟩
  have hbody : ¬ buffer.length < e.state.2.parser.bodyStart := by
    by_cases hhalt : e.halt = .stopped
    · have := hstop hhalt
      omega
    · rw [hgo hhalt]
      exact Nat.not_lt_zero _
  rw [hexec, if_neg (by omega)]

end Client

open Client

/-- A count of bytes that are in the buffer, unless the machine has refused a byte. -/
theorem execute_count {behind : Bytes} {r r' : HttpResponseParser} {data : Bytes} {nparse : Int}
    (hne : data ≠ []) (hlen : data.length ≤ maxTransfer)
    (h : r.execute behind data true = .ok (r', nparse)) (herr : r'.hasError = false) :
    0 ≤ nparse ∧ nparse ≤ data.length := by
  have hpos : 0 < data.length := List.length_pos_iff.mpr hne
  have hmax : maxTransfer < 2 ^ 31 - 1 := by decide
  rw [HttpResponseParser.execute, if_pos rfl] at h
  obtain ⟨⟨r₁, n⟩, hexec, heq⟩ := except_map_eq_ok.mp h
  obtain ⟨rfl, rfl⟩ := Prod.mk.inj heq
  obtain ⟨e, -, hle, hend, htotal, hgo, hstop, hscan⟩ :=
    execute_init behind r hne (by omega : data.length < 2 ^ 31)
  rw [hscan] at hexec
  obtain ⟨rfl, rfl⟩ := Prod.mk.inj (Except.ok.inj hexec)
  have hcount : 0 < count e ∧ count e ≤ data.length + 1 := by
    unfold count
    split
    · omega
    · rename_i hbody
      cases hhalt : e.halt with
      | atEnd =>
          have := hend hhalt
          omega
      | stopped =>
          have := hstop hhalt
          omega
      | failed => simp [HttpResponseParser.hasError, left, hhalt] at herr
  rw [toInt32_of_lt (by omega)]
  omega

theorem execute_returns (behind : Bytes) (r : HttpResponseParser) {data : Bytes} (hne : data ≠ [])
    (hlen : data.length ≤ maxTransfer) : ∃ e, r.execute behind data true = .ok e := by
  have hmax : maxTransfer < 2 ^ 31 - 1 := by decide
  obtain ⟨e, -, -, -, -, -, -, hscan⟩ := execute_init behind r hne (by omega : data.length < 2 ^ 31)
  exact ⟨_, by rw [HttpResponseParser.execute, if_pos rfl, hscan]; rfl⟩

/-- `HttpResponseParser`, as `recvResponse` uses it. A header that begins in the buffer leads to no
mark behind its bytes. -/
def responseParser (lexicalCast : LexicalCast) : ResponseParser HttpResponseParser where
  new := .new
  execute := HttpResponseParser.execute []
  hasError := HttpResponseParser.hasError
  isFinished := HttpResponseParser.isFinished
  chunked r := r.parser.chunked
  contentLen r := r.parser.contentLen
  chunksDone r := r.parser.chunksDone
  getContentLength := HttpResponseParser.getContentLength lexicalCast
  getData := HttpResponseParser.data
  execute_count := execute_count
  execute_returns r _ := execute_returns [] r

/-- A response header with `Transfer-Encoding: chunked`: the parser takes it to its end. -/
def chunkedHeader (header : Bytes) : Bool :=
  match HttpResponseParser.new.execute [] header false with
  | .ok (r, nparse) => nparse == header.length && !r.hasError && r.isFinished && r.parser.chunked
  | .error _ => false

/-- A header block of a chunked response. -/
def okHeader : Bytes := ascii "HTTP/1.1 200 OK\r\nTransfer-Encoding: chunked\r\n\r\n"

example : chunkedHeader okHeader = true := by decide

/-- A new parser at work on a buffer with nothing behind its bytes. -/
theorem execute_new {data : Bytes} (hne : data ≠ []) (hlen : data.length ≤ maxTransfer) :
    ∃ e, scan (step data) (httpclientParserStart, .new) 0 data = .ok e ∧
      (e.halt ≠ .stopped → e.state.2.parser.bodyStart = 0) ∧
      (e.halt = .stopped → e.state.2.parser.bodyStart = e.pos ∧ 0 < e.pos) ∧
      HttpResponseParser.new.execute [] data false =
        .ok (left e, if e.state.2.parser.bodyStart ≠ 0 then (e.pos : Int) else e.pos - 1) := by
  have hmax : maxTransfer < 2 ^ 31 - 1 := by decide
  obtain ⟨e, he, hle, -, htotal, hgo, hstop, hexec⟩ :=
    execute_init [] .new hne (by omega : data.length < 2 ^ 31)
  rw [List.append_nil] at he
  refine ⟨e, he, hgo, hstop, ?_⟩
  have hsame : httpclientParserExecute [] .new data = .ok (left e, toInt32 (count e)) := hexec
  rw [HttpResponseParser.execute, if_neg (by decide), hsame, count, htotal]
  by_cases hbody : e.state.2.parser.bodyStart ≠ 0
  · rw [if_pos hbody, if_pos hbody, toInt32_of_lt (by omega)]
    simp [Except.map]
  · rw [if_neg hbody, if_neg hbody, toInt32_of_lt (by omega)]
    rfl

/-- The parser takes the header as well when other bytes are behind it. -/
theorem execute_header {header : Bytes} (h : chunkedHeader header = true) (rest : Bytes)
    (hlen : (header ++ rest).length ≤ maxTransfer) :
    ∃ r, HttpResponseParser.new.execute [] (header ++ rest) false = .ok (r, header.length) ∧
      r.error = 0 ∧ r.hasError = false ∧ r.isFinished = true ∧ r.parser.chunked = true := by
  have hne : header ≠ [] := by
    rintro rfl
    revert h
    decide
  have hmax : maxTransfer ≤ stringMaxSize := by decide
  have happ : (header ++ rest).length = header.length + rest.length := List.length_append
  have hpos : 0 < header.length := List.length_pos_iff.mpr hne
  -- the scan of the header alone stops behind its last byte
  obtain ⟨e, he, hgo, hstop, hexec⟩ := execute_new hne (by omega)
  rw [chunkedHeader, hexec] at h
  simp only [Bool.and_eq_true, beq_iff_eq, Bool.not_eq_true'] at h
  obtain ⟨⟨⟨hcount, herr⟩, hfin⟩, hchunked⟩ := h
  obtain ⟨hend, hle⟩ := scan_pos he
  have hbody : e.state.2.parser.bodyStart ≠ 0 := by
    intro hzero
    rw [if_neg (not_not_intro hzero)] at hcount
    omega
  have hhalt : e.halt = .stopped := by
    by_contra hne
    exact hbody (hgo hne)
  have hpos : e.pos = header.length := by
    rw [if_pos hbody] at hcount
    omega
  have hsteps : ∀ s t p b m m', SameRun s t p → p < header.length →
      step header s p b = .ok m → step (header ++ rest) t p b = .ok m' →
      m.Related (SameRun · · (p + 1)) m' := fun s t p b m m' h hp hm hm' =>
    step_same (by omega) (List.take_append_of_le_length (Nat.le_of_lt hp)).symm h hm hm'
  have hmarked : Marked (httpclientParserStart, .new) 0 := marked_init .new
  -- and so does the scan of the header with the rest behind it
  obtain ⟨e', he', -⟩ := scan_keeps (I := Marked) (n := header.length)
    (fun s p b h hp => step_ok (header ++ rest) h (by omega) b) header
    hmarked (by omega)
  obtain ⟨⟨hcs, hsame, -⟩, hhalt', hpos'⟩ := scan_lockstep hsteps header
    ⟨rfl, ⟨rfl, rfl, rfl, rfl, rfl, rfl⟩, hmarked⟩ (by omega) he he'
  have hne' : header ++ rest ≠ [] := by simp [hne]
  obtain ⟨e'', he'', -, -, hexec'⟩ := execute_new hne' hlen
  rw [scan_append_stopped he' (hhalt' ▸ hhalt)] at he''
  obtain rfl := Except.ok.inj he''
  have hbody' : e'.state.2.parser.bodyStart ≠ 0 := by
    rw [← hsame.bodyStart]
    exact hbody
  rw [if_pos hbody', ← hpos', hpos] at hexec'
  have hcs' : (left e').parser.cs = (left e).parser.cs := by
    simp only [left, hcs, hhalt']
  have herror : (left e').error = (left e).error := hsame.error.symm
  have hzero : (left e).error = 0 := by
    rw [HttpResponseParser.hasError, Bool.or_eq_false_iff] at herr
    simpa using herr.1
  refine ⟨left e', hexec', herror.trans hzero, ?_, ?_, ?_⟩
  · rw [HttpResponseParser.hasError, herror, hcs']
    exact herr
  · rw [HttpResponseParser.isFinished, hcs']
    exact hfin
  · exact hsame.chunked.symm.trans hchunked

end Http

end Saturn
