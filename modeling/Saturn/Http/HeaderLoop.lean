import Saturn.Http.Session

/-!
# The loop over the header block

The control state of the machine depends on the bytes alone, whatever the marks refer to, and no
action touches it. Final states are entered by `done` only. From this follows what an iteration of
the loop in `recvRequest` can do.
-/

namespace Saturn

namespace Http

/-- What no action changes. -/
structure HttpRequestParser.Keeps (r r' : HttpRequestParser) : Prop where
  cs : r'.parser.cs = r.parser.cs
  nread : r'.parser.nread = r.parser.nread
  uriRelaxed : r'.parser.uriRelaxed = r.parser.uriRelaxed
  body : r'.data.body = r.data.body

namespace HttpRequestParser.Keeps

variable {r r' r'' : HttpRequestParser}

theorem refl (r : HttpRequestParser) : r.Keeps r := ⟨rfl, rfl, rfl, rfl⟩

theorem trans (h : r.Keeps r') (h' : r'.Keeps r'') : r.Keeps r'' :=
  ⟨h'.cs.trans h.cs, h'.nread.trans h.nread, h'.uriRelaxed.trans h.uriRelaxed, h'.body.trans h.body⟩

end HttpRequestParser.Keeps

/-- The marks and flags that an action sets at position `p`. -/
def Action.onParser (p : Nat) (parser : HttpParser) : Action → HttpParser
  | .mark | .startValue => { parser with mark := p }
  | .startField => { parser with fieldStart := p }
  | .writeField => { parser with fieldLen := lenFrom parser.fieldStart p }
  | .startQuery => { parser with queryStart := p }
  | .xml => { parser with xmlSent := true }
  | .json => { parser with jsonSent := true }
  | _ => parser

section Callbacks

variable {r r' : HttpRequestParser} {buffer : Bytes} {pos length : Nat}

theorem onRequestMethod_keeps (h : onRequestMethod r buffer pos length = .ok r') :
    r'.parser = r.parser ∧ r'.data.body = r.data.body := by
  unfold onRequestMethod at h
  simp only at h
  split at h
  · obtain ⟨-, -, rfl⟩ := except_map_eq_ok.mp h
    exact ⟨rfl, rfl⟩
  · cases h
    exact ⟨rfl, rfl⟩

theorem onRequestFragment_keeps (h : onRequestFragment r buffer pos length = .ok r') :
    r'.parser = r.parser ∧ r'.data.body = r.data.body := by
  obtain ⟨-, -, rfl⟩ := except_map_eq_ok.mp h
  exact ⟨rfl, rfl⟩

theorem onRequestPath_keeps (h : onRequestPath r buffer pos length = .ok r') :
    r'.parser = r.parser ∧ r'.data.body = r.data.body := by
  obtain ⟨-, -, rfl⟩ := except_map_eq_ok.mp h
  exact ⟨rfl, rfl⟩

theorem onRequestQuery_keeps (h : onRequestQuery r buffer pos length = .ok r') :
    r'.parser = r.parser ∧ r'.data.body = r.data.body := by
  obtain ⟨-, -, rfl⟩ := except_map_eq_ok.mp h
  exact ⟨rfl, rfl⟩

theorem onRequestVersion_keeps (h : onRequestVersion r buffer pos length = .ok r') :
    r'.parser = r.parser ∧ r'.data.body = r.data.body := by
  unfold onRequestVersion at h
  split at h
  · cases h
    exact ⟨rfl, rfl⟩
  split at h
  · cases h
    exact ⟨rfl, rfl⟩
  · obtain ⟨-, -, rfl⟩ := except_map_eq_ok.mp h
    exact ⟨rfl, rfl⟩

theorem onRequestHttpField_keeps {field flen value vlen : Nat}
    (h : onRequestHttpField r buffer field flen value vlen = .ok r') :
    r'.parser = r.parser ∧ r'.data.body = r.data.body := by
  unfold onRequestHttpField at h
  split at h
  · cases h
    exact ⟨rfl, rfl⟩
  · obtain ⟨name, -, h⟩ := except_bind_eq_ok.mp h
    obtain ⟨val, -, rfl⟩ := except_map_eq_ok.mp h
    exact ⟨rfl, rfl⟩

end Callbacks

theorem Action.run_parser {a : Action} {buffer : Bytes} {p : Nat} {r r' : HttpRequestParser}
    (h : a.run buffer p r = .ok r') :
    r'.parser = a.onParser p r.parser ∧ r'.data.body = r.data.body := by
  cases a with
  | mark | startField | writeField | startValue | startQuery | xml | json | requestUri =>
      obtain rfl := Except.ok.inj h
      exact ⟨rfl, rfl⟩
  | writeValue => exact onRequestHttpField_keeps h
  | requestMethod => exact onRequestMethod_keeps h
  | fragment => exact onRequestFragment_keeps h
  | queryString => exact onRequestQuery_keeps h
  | httpVersion => exact onRequestVersion_keeps h
  | requestPath => exact onRequestPath_keeps h

theorem Action.run_keeps {a : Action} {buffer : Bytes} {p : Nat} {r r' : HttpRequestParser}
    (h : a.run buffer p r = .ok r') : r.Keeps r' := by
  obtain ⟨hparser, hbody⟩ := Action.run_parser h
  constructor
  · rw [hparser]; cases a <;> rfl
  · rw [hparser]; cases a <;> rfl
  · rw [hparser]; cases a <;> rfl
  · exact hbody

theorem runActions_keeps {buffer : Bytes} {p : Nat} {actions : List Action} :
    ∀ {r r' : HttpRequestParser}, runActions buffer p r actions = .ok r' → r.Keeps r' := by
  induction actions with
  | nil =>
      intro r r' h
      cases h
      exact .refl r
  | cons a as ih =>
      intro r r' h
      obtain ⟨r₁, ha, has⟩ := except_bind_eq_ok.mp h
      exact (Action.run_keeps ha).trans (ih has)

/-- What a step of the machine is, by the transition that the byte selects. -/
theorem http11Step_cases {rest : Http11Rest} {buffer : Bytes} {s : Nat × HttpRequestParser}
    {p : Nat} {c : UInt8} {m : Move (Nat × HttpRequestParser)}
    (h : http11Step rest buffer s p c = .ok m) :
    (http11Next rest s.2.parser.uriRelaxed s.1 c = .fail ∧ m = .fail) ∨
    (∃ actions cs r, http11Next rest s.2.parser.uriRelaxed s.1 c = .goto actions cs ∧
      runActions buffer p s.2 actions = .ok r ∧ m = .goto (cs, r)) ∨
    (∃ actions cs r, http11Next rest s.2.parser.uriRelaxed s.1 c = .done actions cs ∧
      runActions buffer p s.2 actions = .ok r ∧ m = .stop (cs, r.done p)) := by
  unfold http11Step at h
  split at h
  next hnext =>
    cases h
    exact .inl ⟨hnext, rfl⟩
  next actions cs hnext =>
    obtain ⟨r, hr, rfl⟩ := except_map_eq_ok.mp h
    exact .inr (.inl ⟨actions, cs, r, hnext, hr, rfl⟩)
  next actions cs hnext =>
    obtain ⟨r, hr, rfl⟩ := except_map_eq_ok.mp h
    exact .inr (.inr ⟨actions, cs, r, hnext, hr, rfl⟩)

/-- Two machines in one control state. -/
def SameState (s t : Nat × HttpRequestParser) : Prop :=
  s.1 = t.1 ∧ s.2.parser.uriRelaxed = t.2.parser.uriRelaxed

theorem http11Step_related {rest : Http11Rest} {buffer buffer' : Bytes}
    {s t : Nat × HttpRequestParser} {p q : Nat} {c : UInt8} {m n : Move (Nat × HttpRequestParser)}
    (h : SameState s t) (hm : http11Step rest buffer s p c = .ok m)
    (hn : http11Step rest buffer' t q c = .ok n) : m.Related SameState n := by
  obtain ⟨hcs, hrel⟩ := h
  have hnext : http11Next rest s.2.parser.uriRelaxed s.1 c =
      http11Next rest t.2.parser.uriRelaxed t.1 c := by rw [hcs, hrel]
  rcases http11Step_cases hm with
      ⟨h₁, rfl⟩ | ⟨actions, cs, r, h₁, hr, rfl⟩ | ⟨actions, cs, r, h₁, hr, rfl⟩ <;>
    rcases http11Step_cases hn with
      ⟨h₂, rfl⟩ | ⟨actions', cs', r', h₂, hr', rfl⟩ | ⟨actions', cs', r', h₂, hr', rfl⟩ <;>
    rw [hnext, h₂] at h₁ <;> cases h₁
  · trivial
  · exact ⟨rfl, by simp only [(runActions_keeps hr).uriRelaxed, (runActions_keeps hr').uriRelaxed, hrel]⟩
  · refine ⟨rfl, ?_⟩
    show r.parser.uriRelaxed = r'.parser.uriRelaxed
    rw [(runActions_keeps hr).uriRelaxed, (runActions_keeps hr').uriRelaxed, hrel]

/-- No final state without `done`. -/
def Transition.Continues : Transition → Bool
  | .goto _ target => target < httpParserFirstFinal
  | .fail | .done .. => true

theorem http11Table_continues : ∀ row ∈ http11Table, ∀ e ∈ row.2, e.2.Continues = true := by
  decide

theorem lookup_mem {α β : Type*} [BEq α] [LawfulBEq α] {k : α} {v : β} :
    ∀ {l : List (α × β)}, l.lookup k = some v → (k, v) ∈ l := by
  intro l
  induction l with
  | nil => intro h; cases h
  | cons e l ih =>
      obtain ⟨k', v'⟩ := e
      intro h
      rw [List.lookup_cons] at h
      split at h
      next hk =>
        cases h
        rw [eq_of_beq hk]
        exact List.mem_cons_self
      next => exact List.mem_cons_of_mem _ (ih h)

/-- Where a transition comes from: an entry of the state's row, or the states left out. -/
theorem http11Next_cases {rest : Http11Rest} {relaxed : Bool} {cs : Nat} {c : UInt8}
    {t : Transition} (h : http11Next rest relaxed cs c = t) :
    t = .fail ∨ (∃ row ∈ http11Table, row.1 = cs ∧ ∃ e ∈ row.2, e.1.has relaxed c = true ∧ e.2 = t) ∨
    (http11Table.lookup cs = none ∧ rest.next relaxed cs c = t) := by
  unfold http11Next at h
  split at h
  next row hrow =>
    cases hfind : row.find? fun e => e.1.has relaxed c with
    | none =>
        rw [hfind] at h
        exact .inl h.symm
    | some e =>
        rw [hfind] at h
        exact .inr (.inl ⟨_, lookup_mem hrow, rfl, e, List.mem_of_find?_eq_some hfind,
          List.find?_some (p := fun e : CharClass × Transition => e.1.has relaxed c) hfind, h⟩)
  next hrow => exact .inr (.inr ⟨hrow, h⟩)

theorem http11Next_goto_lt {rest : Http11Rest} {relaxed : Bool} {cs target : Nat} {c : UInt8}
    {actions : List Action} (h : http11Next rest relaxed cs c = .goto actions target) :
    target < httpParserFirstFinal := by
  rcases http11Next_cases h with hfail | ⟨row, hrow, -, e, he, -, heq⟩ | ⟨-, hrest⟩
  · cases hfail
  · have hlt := http11Table_continues row hrow e he
    rw [heq] at hlt
    exact of_decide_eq_true hlt
  · exact rest.goto_lt hrest

theorem httpParserStart_lt : httpParserStart < httpParserFirstFinal := by decide

/-- A scan that is not stopped leaves the machine in a state that is not final. -/
theorem scan_lt_firstFinal {rest : Http11Rest} {buffer xs : Bytes} {s : Nat × HttpRequestParser}
    {p : Nat} {e : Scanned (Nat × HttpRequestParser)} (hs : s.1 < httpParserFirstFinal)
    (h : scan (http11Step rest buffer) s p xs = .ok e) (hstop : e.halt ≠ .stopped) :
    e.state.1 < httpParserFirstFinal := by
  refine (scan_invariant (I := fun s => s.1 < httpParserFirstFinal) ?_ xs hs h).1 hstop
  intro s t p b _ hstep
  rcases http11Step_cases hstep with ⟨-, hm⟩ | ⟨actions, cs, r, hnext, -, hm⟩ | ⟨_, _, _, -, -, hm⟩
  · cases hm
  · cases hm
    exact http11Next_goto_lt hnext
  · cases hm

/-- A scan does not touch the fields that `http_parser_execute` itself keeps. -/
theorem scan_keeps {rest : Http11Rest} {buffer xs : Bytes} {s : Nat × HttpRequestParser}
    {p : Nat} {e : Scanned (Nat × HttpRequestParser)}
    (h : scan (http11Step rest buffer) s p xs = .ok e) : s.2.Keeps e.state.2 := by
  have hinv := scan_invariant (I := fun t => s.2.Keeps t.2) (fun t u p b ht hstep => by
    rcases http11Step_cases hstep with ⟨-, hm⟩ | ⟨actions, cs, r, -, hr, hm⟩ | ⟨_, _, _, -, -, hm⟩
    · cases hm
    · cases hm
      exact ht.trans (runActions_keeps hr)
    · cases hm) xs (.refl s.2) h
  by_cases hstop : e.halt = .stopped
  · obtain ⟨t, q, b, ht, hstep, -⟩ := hinv.2 hstop
    rcases http11Step_cases hstep with ⟨-, hm⟩ | ⟨_, _, _, -, -, hm⟩ | ⟨actions, cs, r, -, hr, hm⟩
    · cases hm
    · cases hm
    · injection hm with hm
      rw [hm]
      exact ht.trans ((runActions_keeps hr).trans ⟨rfl, rfl, rfl, rfl⟩)
  · exact hinv.1 hstop

/-- What a call of `http_parser_execute` that returns has done. -/
theorem httpParserExecute_cases {rest : Http11Rest} {r r' : HttpRequestParser} {buffer : Bytes}
    {nread : Nat} (hbuffer : buffer ≠ []) (h : httpParserExecute rest r buffer = .ok (r', nread)) :
    ∃ e, scan (http11Step rest buffer) (r.parser.cs, r) 0 buffer = .ok e ∧ r' = afterScan e ∧
      nread = r.parser.nread + e.pos ∧ r'.parser.WithinBuffer buffer.length := by
  rw [httpParserExecute, if_neg hbuffer, except_bind_eq_ok] at h
  obtain ⟨e, he, h⟩ := h
  split at h
  next hwithin =>
    cases h
    refine ⟨e, he, rfl, ?_, hwithin⟩
    rw [afterScan, (scan_keeps he).nread]
  next => cases h

/-- What an iteration that goes on or ends the loop has done. -/
theorem headerStep_cases {env : Env} {parser parser' : HttpRequestParser} {data data' : Bytes}
    {offset : Int} (hdata : data ≠ [])
    (h : headerStep env parser data = .ok (parser', offset, data')) :
    ∃ e, scan (http11Step env.rest data) (parser.parser.cs, parser) 0 data = .ok e ∧
      parser' = afterScan e ∧ parser'.parser.WithinBuffer data.length ∧
      offset = data.length - (parser.parser.nread + e.pos : Nat) ∧
      data' = data.drop (parser.parser.nread + e.pos) := by
  obtain ⟨⟨r, nread, rest⟩, hexec, heq⟩ := except_map_eq_ok.mp h
  obtain ⟨⟨r', nread'⟩, hexec, heq'⟩ := except_map_eq_ok.mp hexec
  obtain ⟨e, hscan, hr, hnread, hwithin⟩ := httpParserExecute_cases hdata hexec
  cases heq'
  cases heq
  exact ⟨e, hscan, hr, hwithin, by rw [hnread], by rw [hnread]⟩

/-- How the loop gets to a result: its next iteration reads, passes the checks and either ends the
loop or goes on. -/
theorem headerLoop_eq_some {env : Env} {fuel : Nat} {r w : Received}
    (h : headerLoop env fuel r = .ok (some w)) :
    ∃ n bytes stream parser offset data, fuel = n + 1 ∧
      r.stream.read (env.bufferSize - r.data.length) = some (bytes, stream) ∧
      headerStep env r.parser (r.data ++ bytes) = .ok (parser, offset, data) ∧
      parser.hasError = false ∧ offset ≠ env.bufferSize ∧
      ((parser.isFinished = true ∧
          w = ⟨parser, data, stream, r.offsets ++ [(offset, (r.data ++ bytes).length)]⟩) ∨
        (parser.isFinished = false ∧ headerLoop env n ⟨parser, data, stream,
          r.offsets ++ [(offset, (r.data ++ bytes).length)]⟩ = .ok (some w))) := by
  cases fuel with
  | zero => cases h
  | succ n =>
      rw [headerLoop] at h
      split at h
      next => cases h
      next bytes stream hread =>
        obtain ⟨⟨parser, offset, data⟩, hstep, h⟩ := except_bind_eq_ok.mp h
        simp only at h
        split at h
        next => cases h
        next herror =>
          split at h
          next => cases h
          next hoffset =>
            refine ⟨n, bytes, stream, parser, offset, data, rfl, hread, hstep,
              Bool.eq_false_iff.mpr herror, hoffset, ?_⟩
            split at h
            next hfin =>
              cases h
              exact .inl ⟨hfin, rfl⟩
            next hfin => exact .inr ⟨Bool.eq_false_iff.mpr hfin, h⟩

theorem headerLoop_of_nil {env : Env} {r : Received} (h : r.stream.unread = []) (fuel : Nat) :
    headerLoop env fuel r = .ok none := by
  cases fuel with
  | zero => rfl
  | succ n => rw [headerLoop, Stream.read_of_nil h]

theorem isFinished_afterScan {e : Scanned (Nat × HttpRequestParser)}
    (h : (afterScan e).isFinished = true) : httpParserFirstFinal ≤ endState e := by
  have hle : httpParserFirstFinal ≤ (afterScan e).parser.cs := of_decide_eq_true h
  rw [afterScan] at hle
  simp only at hle
  split at hle
  · exact absurd hle (by decide)
  · exact hle

/-- The loop does not touch the body of the request. -/
theorem headerLoop_body {env : Env} {fuel : Nat} : ∀ {r w : Received},
    headerLoop env fuel r = .ok (some w) → w.parser.data.body = r.parser.data.body := by
  induction fuel with
  | zero => intro r w h; cases h
  | succ fuel ih =>
      intro r w h
      obtain ⟨n, bytes, stream, parser, offset, data, hn, hread, hstep, -, -, hcases⟩ :=
        headerLoop_eq_some h
      obtain rfl : fuel = n := Nat.succ.inj hn
      have hne : r.data ++ bytes ≠ [] := by
        have hpos := (Stream.read_conserves hread).2.2.1
        exact List.append_ne_nil_of_right_ne_nil _ (List.length_pos_iff.mp hpos)
      obtain ⟨e, hscan, rfl, -⟩ := headerStep_cases hne hstep
      have hbody : (afterScan e).data.body = r.parser.data.body := (scan_keeps hscan).body
      rcases hcases with ⟨-, rfl⟩ | ⟨-, hloop⟩
      · exact hbody
      · exact (ih hloop).trans hbody

/-- A first read on which the machine comes to its end ends the loop. What is behind the header block
stays in the buffer. -/
theorem recvHeader_of_scan {env : Env} {junk : Junk} {s : Stream} {data : Bytes}
    {e : Scanned (Nat × HttpRequestParser)} (hdata : s.unread.take (s.ready env.bufferSize) = data)
    (hscan : scan (http11Step env.rest data) (httpParserStart, .new junk) 0 data = .ok e)
    (hpos : 0 < e.pos) (herror : (afterScan e).hasError = false)
    (hfin : (afterScan e).isFinished = true)
    (hwithin : (afterScan e).parser.WithinBuffer data.length) : ∃ r,
    recvHeader env junk s = .ok (some r) ∧ r.parser = afterScan e ∧ r.data = data.drop e.pos ∧
      r.stream.unread = s.unread.drop (s.ready env.bufferSize) := by
  have hle := (scan_pos hscan).2
  have hlen : data.length = s.ready env.bufferSize := by
    rw [← hdata, List.length_take]
    exact min_eq_left (ready_le_left ..)
  have hready : s.ready env.bufferSize ≤ env.bufferSize := ready_le ..
  have hread : s.read env.bufferSize =
      some (data, ⟨s.unread.drop (s.ready env.bufferSize), s.cuts.tail⟩) := by
    rw [Stream.read_of_pos (by omega), hdata]
  have hnread : (afterScan e).parser.nread = e.pos := by
    have hkeep : e.state.2.parser.nread = 0 := (scan_keeps hscan).nread
    show e.state.2.parser.nread + e.pos = _
    omega
  have hexec : httpParserExecute env.rest (.new junk) data = .ok (afterScan e, e.pos) := by
    have hnil : data ≠ [] := List.ne_nil_of_length_pos (by omega)
    rw [httpParserExecute, if_neg hnil]
    show Except.bind (scan _ (httpParserStart, HttpRequestParser.new junk) 0 _) _ = _
    rw [hscan, Except.bind, if_pos hwithin, hnread]
  have hstep : headerStep env (.new junk) data =
      .ok (afterScan e, (data.length : Int) - e.pos, data.drop e.pos) := by
    rw [headerStep, HttpRequestParser.execute, hexec, Except.map, Except.map]
  have hoffset : ((data.length : Int) - e.pos) ≠ env.bufferSize := by omega
  refine ⟨⟨afterScan e, data.drop e.pos, ⟨s.unread.drop (s.ready env.bufferSize), s.cuts.tail⟩,
    [((data.length : Int) - e.pos, data.length)]⟩, ?_, rfl, rfl, rfl⟩
  rw [recvHeader, headerLoop]
  simp only [List.length_nil, Nat.sub_zero, hread, List.nil_append, hstep, Except.bind, herror,
    Bool.false_eq_true, if_false, if_neg hoffset, hfin, if_true]

/-- A header block that is received in one read is scanned to its end in the first iteration. -/
theorem scan_of_recvHeader_whole {env : Env} {junk : Junk} {block : Bytes} {whole : Received}
    (hne : block ≠ []) (hlen : block.length ≤ env.bufferSize)
    (h : recvHeader env junk (.ofPieces [block]) = .ok (some whole)) (hdata : whole.data = []) :
    ∃ e, scan (http11Step env.rest block) (httpParserStart, .new junk) 0 block = .ok e ∧
      e.pos = block.length ∧ e.halt = .stopped ∧ whole.parser = afterScan e ∧
      (afterScan e).hasError = false ∧ (afterScan e).isFinished = true ∧
      (afterScan e).parser.WithinBuffer block.length := by
  obtain ⟨n, bytes, stream, parser, offset, data, hn, hread, hstep, herror, -, hcases⟩ :=
    headerLoop_eq_some h
  have hpiece : Stream.read (.ofPieces [block]) env.bufferSize = some (block, ⟨[], []⟩) :=
    Stream.read_piece (by simp [Stream.ofPieces]) rfl hne hlen (hlen.trans env.bufferSize_le)
  simp only [List.length_nil, Nat.sub_zero, hpiece] at hread
  cases hread
  rw [List.nil_append] at hstep
  obtain ⟨e, hscan, rfl, hwithin, -, rfl⟩ := headerStep_cases hne hstep
  rcases hcases with ⟨hfin, rfl⟩ | ⟨-, hloop⟩
  · have hpos : block.length ≤ (HttpRequestParser.new junk).parser.nread + e.pos :=
      List.drop_eq_nil_iff.mp hdata
    have hle := (scan_pos hscan).2
    have hnread : (HttpRequestParser.new junk).parser.nread = 0 := rfl
    refine ⟨e, hscan, by omega, ?_, rfl, herror, hfin, hwithin⟩
    by_contra hstop
    have hlt := scan_lt_firstFinal (s := (httpParserStart, .new junk)) httpParserStart_lt hscan hstop
    have hfinal := isFinished_afterScan hfin
    rw [endState] at hfinal
    split at hfinal
    · exact absurd hfinal (by decide)
    · omega
  · rw [headerLoop_of_nil rfl] at hloop
    cases hloop

end Http

end Saturn
