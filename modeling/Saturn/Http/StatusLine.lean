import Saturn.Http.FixedLength
import Saturn.Http.HeaderLoop

/-!
# The status line of a response

What the response parser makes of a status line, and that nothing behind the line changes it.
-/

namespace Saturn

namespace Http

/-- What the parser makes of the status line. An empty reason is read with the CR as its one
character. -/
def ResponseBlock.line (b : ResponseBlock) : HttpResponse :=
  { HttpResponse.new with
    version := if b.minor = 49 then 0x11 else 0x10
    status := longToInt (strtol 10 b.status)
    reason := if b.reason = [] then [13] else b.reason }

/-- Two responses with one status line and one flag `close`. -/
structure SameLine (d d' : HttpResponse) : Prop where
  version : d'.version = d.version
  status : d'.status = d.status
  reason : d'.reason = d.reason
  close : d'.close = d.close

theorem SameLine.trans {d d' d'' : HttpResponse} (h : SameLine d d') (h' : SameLine d' d'') :
    SameLine d d'' :=
  ⟨h'.version.trans h.version, h'.status.trans h.status, h'.reason.trans h.reason,
    h'.close.trans h.close⟩

section Strtol

theorem digitValue_lt_iff (c : UInt8) : digitValue c < 10 ↔ isDigit c = true :=
  forall_byte (P := fun c => digitValue c < 10 ↔ isDigit c = true) (by decide +kernel) c

theorem not_sign_of_digit {c : UInt8} (h : isDigit c = true) :
    Client.isSpace c = false ∧ c ≠ 45 ∧ c ≠ 43 := by
  revert h
  exact forall_byte (P := fun c => isDigit c = true → Client.isSpace c = false ∧ c ≠ 45 ∧ c ≠ 43)
    (by decide +kernel) c

/-- `strtol` on digits, and on what begins with them. -/
theorem strtol_append {ds rest : Bytes} (hne : ds ≠ []) (hds : ds.all isDigit = true)
    (hrest : ∀ c ∈ rest.head?, isDigit c = false) :
    strtol 10 (ds ++ rest) = min (digitsValue 10 ds : Int) (2 ^ 63 - 1) := by
  obtain ⟨c, w, rfl⟩ := List.exists_cons_of_ne_nil hne
  have hdigit : ∀ a ∈ c :: w, isDigit a = true := List.all_eq_true.mp hds
  obtain ⟨hspace, hminus, hplus⟩ := not_sign_of_digit (hdigit c List.mem_cons_self)
  have htake : (c :: (w ++ rest)).takeWhile (fun c => digitValue c < 10) = c :: w := by
    have hall : ∀ a ∈ c :: w, decide (digitValue a < 10) = true := fun a ha =>
      decide_eq_true ((digitValue_lt_iff a).mpr (hdigit a ha))
    rw [← List.cons_append, List.takeWhile_append_of_pos hall]
    cases rest with
    | nil => simp
    | cons a rest =>
        have hno : ¬ digitValue a < 10 := by simp [digitValue_lt_iff, hrest a rfl]
        simp [hno]
  rw [strtol, List.cons_append, List.dropWhile_cons_of_neg (by simp [hspace])]
  simp [hminus, hplus, htake]

theorem strtol_digits {ds : Bytes} (hne : ds ≠ []) (hds : ds.all isDigit = true) :
    strtol 10 ds = min (digitsValue 10 ds : Int) (2 ^ 63 - 1) := by
  have h := @strtol_append ds [] hne hds (by simp)
  rwa [List.append_nil] at h

/-- A status comes back from the digits that are written for it. -/
theorem status_digits {status : Int} (hlow : -2 ^ 31 ≤ status) (hhigh : status < 2 ^ 31) :
    longToInt (strtol 10 (digits (status % 2 ^ 32).toNat)) = status := by
  have hvalue : digitsValue 10 (digits (status % 2 ^ 32).toNat) = (status % 2 ^ 32).toNat := by
    refine Eq.trans (List.foldl_ext _ _ _ fun m c hc => ?_) (foldl_digits _)
    rw [digitValue, if_pos (List.all_eq_true.mp (all_isDigit_digits _) c hc)]
  have hstrtol := strtol_digits (digits_ne_nil (status % 2 ^ 32).toNat) (all_isDigit_digits _)
  rw [hvalue] at hstrtol
  rw [hstrtol, longToInt, Int.bmod_def]
  split <;> omega

end Strtol

namespace Client

/-- The machine in the status line, of which it has made `d`. -/
def InLine (cs : Nat) (d : HttpResponse) (Q : HttpclientParser → Nat → Prop)
    (s : Nat × HttpResponseParser) (p : Nat) : Prop := s.1 = cs ∧ s.2.data = d ∧ Q s.2.parser p

section Line

variable {buf w : Bytes} {c : UInt8} {cs cs' cs₁ : Nat} {d d' : HttpResponse}
  {Q : HttpclientParser → Nat → Prop}

/-- A token from its mark on, which no action ends. -/
theorem line_token (hmark : next cs c = some (.goto [.mark] cs₁)) (hw : reads cs₁ w = some cs') :
    Passes (step buf) buf (InLine cs d AnyMarks) (c :: w)
      (InLine cs' d fun parser p => Spans buf parser.mark (c :: w) p) := by
  rintro ⟨u, r⟩ p tail hbuf ⟨rfl, rfl, -⟩
  have hstep : step buf (u, r) p c = .ok (.goto (cs₁, { r with parser.mark := p })) := by
    rw [step, hmark]
    rfl
  have hlength : p + (c :: w).length = p + 1 + w.length := by
    rw [List.length_cons]
    omega
  refine ⟨(cs', { r with parser.mark := p }), ?_, rfl, rfl, rfl, tail, hbuf.symm⟩
  rw [List.cons_append, scan_cons_goto _ hstep, scan_reads hw, hlength]

/-- The byte behind a token, at which something is made of it. -/
theorem line_write (a : Action) (hnext : next cs c = some (.goto [a] cs'))
    (hrun : ∀ r p, r.data = d → Spans buf r.parser.mark w p → [c] <+: buf.drop p →
      ∃ r', a.run buf p r = .ok r' ∧ r'.data = d') :
    Passes (step buf) buf (InLine cs d fun parser p => Spans buf parser.mark w p) [c]
      (InLine cs' d' AnyMarks) := by
  refine Passes.of_step ?_
  rintro ⟨_, r⟩ p tail hbuf ⟨rfl, hdata, hspans⟩
  obtain ⟨r', hr', hdata'⟩ := hrun r p hdata hspans ⟨tail, hbuf.symm⟩
  refine ⟨(cs', r'), ?_, rfl, hdata', trivial⟩
  simp only [step, hnext, runActions, hr', Except.bind, Except.map]

/-- Bytes that a state reads without leaving it. -/
theorem reads_run {ok : UInt8 → Bool} (h : ∀ c, ok c = true → next cs c = some (.goto [] cs))
    (hw : w.all ok = true) : reads cs w = some cs := by
  induction w with
  | nil => rfl
  | cons c w ih =>
      rw [List.all_cons, Bool.and_eq_true] at hw
      rw [reads, h c hw.1]
      exact ih hw.2

theorem run_httpVersion {minor : UInt8} (hminor : minor = 48 ∨ minor = 49) (r : HttpResponseParser)
    {p : Nat} (hspans : Spans buf r.parser.mark (ascii "HTTP/1." ++ [minor]) p) :
    ∃ r', Action.run buf p r .httpVersion = .ok r' ∧
      r'.data = { r.data with version := if minor = 49 then 0x11 else 0x10 } := by
  obtain ⟨hlen, tail, htail⟩ := hspans
  have hlength : lenFrom r.parser.mark p = 8 := by
    rw [← hlen, lenFrom_add]
    rfl
  have hcompare : ∀ t, strncmpEq (buf.drop r.parser.mark) t 8 =
      strncmpEq (ascii "HTTP/1." ++ [minor]) t 8 := fun t => by
    rw [← htail, strncmpEq_append (Nat.le_refl 8)]
  rw [Action.run, onResponseVersion, hlength, hcompare, hcompare]
  rcases hminor with rfl | rfl
  · exact ⟨_, rfl, rfl⟩
  · exact ⟨_, rfl, rfl⟩

theorem line_version {minor : UInt8} (hminor : minor = 48 ∨ minor = 49) :
    Passes (step buf) buf (InLine httpclientParserStart d AnyMarks) (ascii "HTTP/1." ++ [minor, 32])
      (InLine 16 { d with version := if minor = 49 then 0x11 else 0x10 } AnyMarks) := by
  have hreads : reads 8 (ascii "TTP/1." ++ [minor]) = some 15 := by
    rcases hminor with rfl | rfl <;> decide
  have htoken : Passes (step buf) buf (InLine httpclientParserStart d AnyMarks)
      (ascii "HTTP/1." ++ [minor])
      (InLine 15 d fun parser p => Spans buf parser.mark (ascii "HTTP/1." ++ [minor]) p) :=
    line_token (by decide) hreads
  have hword : ascii "HTTP/1." ++ [minor, 32] = ascii "HTTP/1." ++ [minor] ++ [32] := by simp
  rw [hword]
  refine htoken.append (line_write .httpVersion (by decide) fun r p hdata hspans _ => ?_)
  rw [← hdata]
  exact run_httpVersion hminor r hspans

theorem line_status {status : Bytes} (hne : status ≠ []) (hall : status.all isDigit = true) :
    Passes (step buf) buf (InLine 16 d AnyMarks) (status ++ [32])
      (InLine 18 { d with status := longToInt (strtol 10 status) } AnyMarks) := by
  obtain ⟨c, w, rfl⟩ := List.exists_cons_of_ne_nil hne
  have hcons := hall
  rw [List.all_cons, Bool.and_eq_true] at hcons
  refine (line_token (next_digit c hcons.1).1
    (reads_run (fun c hc => (next_digit c hc).2) hcons.2)).append
    (line_write .statusCode (by decide) fun r p hdata hspans hspace => ?_)
  refine ⟨_, rfl, ?_⟩
  obtain ⟨hlen, hpre⟩ := hspans
  -- the number ends at the blank
  obtain ⟨tail, htail⟩ := append_prefix_drop hpre (hlen ▸ hspace)
  have hstatus : strtol 10 (buf.drop r.parser.mark) = strtol 10 (c :: w) := by
    rw [← htail, List.append_assoc, strtol_append hne hall (by simp [isDigit]), strtol_digits hne hall]
  simp only [onResponseStatus, hstatus, hdata]

theorem line_reason (hmax : buf.length ≤ stringMaxSize) {reason : Bytes}
    (hall : reason.all isContentChar = true) :
    Passes (step buf) buf (InLine 18 d AnyMarks) (reason ++ crlf)
      (InLine 20 { d with reason := if reason = [] then [13] else reason } AnyMarks) := by
  have hrun : ∀ {v : Bytes} (r : HttpResponseParser) (p : Nat), r.data = d →
      Spans buf r.parser.mark v p → ∃ r', Action.run buf p r .reasonPhrase = .ok r' ∧
        r'.data = { d with reason := v } := by
    rintro v r p rfl hspans
    refine ⟨{ r with data.reason := v }, ?_, rfl⟩
    rw [Action.run, onResponseReason, hspans.makeString hmax]
    rfl
  cases reason with
  | nil =>
      have htoken : Passes (step buf) buf (InLine 18 d AnyMarks) [13]
          (InLine 19 d fun parser p => Spans buf parser.mark [13] p) :=
        line_token (by decide) rfl
      exact htoken.append (line_write .reasonPhrase (by decide) fun r p hdata hspans _ =>
        hrun r p hdata hspans)
  | cons c w =>
      have hcons := hall
      rw [List.all_cons, Bool.and_eq_true] at hcons
      have hend : Passes (step buf) buf (InLine 24 { d with reason := c :: w } AnyMarks) [10]
          (InLine 20 { d with reason := c :: w } AnyMarks) := by
        rintro ⟨_, r⟩ p tail - ⟨rfl, hdata, -⟩
        refine ⟨(20, r), ?_, rfl, hdata, trivial⟩
        exact scan_reads (w := [10]) (by decide) r p tail
      refine (line_token (next_reason c hcons.1).1
        (reads_run (fun c hc => (next_reason c hc).2) hcons.2)).append
        (Passes.append (line_write .reasonPhrase (by decide) fun r p hdata hspans _ =>
          hrun r p hdata hspans) hend)

/-- The parser behind the status line. -/
theorem passes_statusLine (hmax : buf.length ≤ stringMaxSize) {b : ResponseBlock}
    (hb : b.WellFormed) :
    Passes (step buf) buf (InLine httpclientParserStart .new AnyMarks) b.statusLine
      (InLine 20 b.line AnyMarks) :=
  (line_version hb.minor).append ((line_status hb.status_ne hb.status).append
    (line_reason hmax hb.reason))

end Line

/-! ## Behind the line -/

section Fields

variable {buf : Bytes} {s t : Nat × HttpResponseParser} {r r' : HttpResponseParser}

/-- The states behind the status line. -/
def behindLine (cs : Nat) : Bool := cs == 3 || 20 ≤ cs

/-- The actions that make something of the status line. -/
def ofLine : Action → Bool
  | .httpVersion | .statusCode | .reasonPhrase => true
  | _ => false

/-- The transition stays behind the status line, and does nothing to what that has set. -/
def staysBehind : Transition → Bool
  | .goto actions cs => behindLine cs && actions.all fun a => !ofLine a
  | .done actions _ => actions.all fun a => !ofLine a

theorem staysBehind_next {cs : Nat} {c : UInt8} {t : Transition} (h : behindLine cs = true)
    (hnext : next cs c = some t) : staysBehind t = true := by
  have htable : ∀ row ∈ table, behindLine row.1 = true →
      row.2.all (fun e => staysBehind e.2) = true := by decide +kernel
  rw [next, Option.bind_eq_some_iff] at hnext
  obtain ⟨row, hrow, hfind⟩ := hnext
  obtain ⟨e, he, rfl⟩ := Option.map_eq_some_iff.mp hfind
  exact List.all_eq_true.mp (htable _ (lookup_mem hrow) h) e (List.mem_of_find?_eq_some he)

theorem Action.run_sameLine {p : Nat} {a : Action} (ha : ofLine a = false)
    (h : a.run buf p r = .ok r') : SameLine r.data r'.data := by
  cases a with
  | httpVersion | statusCode | reasonPhrase => cases ha
  | writeValue =>
      obtain ⟨_, rfl⟩ := onResponseHttpField_eq_ok h
      exact ⟨rfl, rfl, rfl, rfl⟩
  | mark | startValue | startField | writeField | writeContentLen | writeConnectionClose |
      chunkSize | transChunked =>
      obtain rfl := Except.ok.inj h
      exact ⟨rfl, rfl, rfl, rfl⟩

theorem runActions_sameLine {p : Nat} {actions : List Action}
    (hall : (actions.all fun a => !ofLine a) = true) (h : runActions buf p r actions = .ok r') :
    SameLine r.data r'.data := by
  induction actions generalizing r with
  | nil =>
      cases h
      exact ⟨rfl, rfl, rfl, rfl⟩
  | cons a actions ih =>
      rw [List.all_cons, Bool.and_eq_true, Bool.not_eq_true'] at hall
      obtain ⟨r₁, hr₁, hrest⟩ := except_bind_eq_ok.mp h
      exact (Action.run_sameLine hall.1 hr₁).trans (ih hall.2 hrest)

/-- Whatever stands behind the status line, the scan leaves the line as it is. -/
theorem scan_sameLine (hs : behindLine s.1 = true) {p : Nat} {xs : Bytes}
    {e : Scanned (Nat × HttpResponseParser)} (h : scan (step buf) s p xs = .ok e) :
    SameLine s.2.data e.state.2.data := by
  obtain ⟨hgo, hstop⟩ := scan_invariant
    (I := fun t => behindLine t.1 = true ∧ SameLine s.2.data t.2.data)
    (fun t u q b hI hstep => by
      rcases step_cases hstep with ⟨-, hm⟩ | ⟨actions, cs, r, hnext, hr, hm⟩ | ⟨_, _, _, -, -, hm⟩
      · cases hm
      · obtain rfl := Move.goto.inj hm
        have hstay := staysBehind_next hI.1 hnext
        rw [staysBehind, Bool.and_eq_true] at hstay
        exact ⟨hstay.1, hI.2.trans (runActions_sameLine hstay.2 hr)⟩
      · cases hm) xs ⟨hs, rfl, rfl, rfl, rfl⟩ h
  by_cases hhalt : e.halt = .stopped
  · obtain ⟨t, q, b, hI, hstep, -⟩ := hstop hhalt
    rcases step_cases hstep with ⟨-, hm⟩ | ⟨_, _, _, -, -, hm⟩ | ⟨actions, cs, r, hnext, hr, hm⟩
    · cases hm
    · cases hm
    · rw [Move.stop.inj hm]
      have hsame : SameLine t.2.data r.data := runActions_sameLine (staysBehind_next hI.1 hnext) hr
      exact hI.2.trans hsame
  · exact (hgo hhalt).2

end Fields

/-- What the parser makes of a well-formed block, status line and fields. -/
theorem scan_blockLine {b : ResponseBlock} (hb : b.WellFormed) (hplain : b.NotChunked)
    (hlast : b.LastSays)
    (hlength : ∀ f ∈ b.fields, f.Named "content-length" → f.value ≠ []) (rest : Bytes)
    (hmax : (b.bytes ++ rest).length ≤ stringMaxSize) : ∃ r,
    scan (step (b.bytes ++ rest)) (httpclientParserStart, .new) 0 (b.bytes ++ rest) =
        .ok ⟨(httpclientParserFirstFinal, r), b.bytes.length, .stopped⟩ ∧
      Reading b.headers r b.bytes.length ∧ SameLine b.line r.data := by
  obtain ⟨r, hscan, hreading⟩ := scan_block hb hplain hlast hlength rest hmax
  refine ⟨r, hscan, hreading, ?_⟩
  have hbytes : (b.bytes ++ rest).drop 0 =
      b.statusLine ++ (b.fields.flatMap FieldLine.bytes ++ crlf ++ rest) := by
    simp only [List.drop_zero, ResponseBlock.bytes, List.append_assoc]
  obtain ⟨⟨cs, q⟩, hline, rfl, hq, -⟩ :=
    passes_statusLine hmax hb (httpclientParserStart, .new) 0 _ hbytes ⟨rfl, rfl, trivial⟩
  rw [← hbytes, List.drop_zero, hscan] at hline
  have hsame := scan_sameLine (s := (20, q)) rfl hline.symm
  rwa [hq] at hsame

end Client

end Http

end Saturn
