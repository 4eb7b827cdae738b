import Mathlib.Data.List.TakeWhile
import Saturn.Http.HeaderBlock
import Saturn.Http.ResponseBlock

/-!
# The parser on a header block

The response parser goes through a well-formed header block token by token; the assertions of the
triples say what it has made of the fields so far.
-/

namespace Saturn

namespace Http

namespace Client

/-- The parser at position `p`, with the headers that it has set so far. -/
structure Reading (m : MapType) (r : HttpResponseParser) (p : Nat) : Prop where
  headers : r.data.headers = m
  body : r.data.body = []
  error : r.error = 0
  chunked : r.parser.chunked = false
  marked : MarkedAt r p

/-- The machine in a state of `I`, between two actions. -/
def At (I : Nat → Prop) (m : MapType) (Q : HttpclientParser → Nat → Prop)
    (s : Nat × HttpResponseParser) (p : Nat) : Prop := I s.1 ∧ Reading m s.2 p ∧ Q s.2.parser p

/-- Nothing is known of the marks. -/
def AnyMarks : HttpclientParser → Nat → Prop := fun _ _ => True

/-- `w` stands in the buffer from `start` to `p`. -/
def Spans (buf : Bytes) (start : Nat) (w : Bytes) (p : Nat) : Prop :=
  start + w.length = p ∧ w <+: buf.drop start

/-- The field that is being read is `name`. -/
def FieldIs (buf name : Bytes) (parser : HttpclientParser) : Prop :=
  parser.fieldLen ≠ 0 ∧ makeString buf parser.fieldStart parser.fieldLen = .ok name

/-- The bytes that lead from state to state without an action. -/
def reads : Nat → Bytes → Option Nat
  | cs, [] => some cs
  | cs, c :: w =>
    match next cs c with
    | some (.goto [] cs) => reads cs w
    | _ => none

/-- The bytes of a word, where the states say how much of it has been read. -/
theorem reads_word {ok : UInt8 → Bool} {In : Bytes → Nat → Prop}
    (hnext : ∀ {w cs c}, In w cs → ok c = true →
      ∃ cs', next cs c = some (.goto [] cs') ∧ In (w ++ [c]) cs') (w : Bytes) :
    ∀ {v : Bytes} {cs : Nat}, In v cs → w.all ok = true →
      ∃ cs', reads cs w = some cs' ∧ In (v ++ w) cs' := by
  induction w with
  | nil => exact fun {v cs} h _ => ⟨cs, rfl, by rwa [List.append_nil]⟩
  | cons c w ih =>
      intro v cs h hall
      rw [List.all_cons, Bool.and_eq_true] at hall
      obtain ⟨cs₁, hgoto, h₁⟩ := hnext h hall.1
      obtain ⟨cs', hreads, h'⟩ := ih h₁ hall.2
      rw [List.append_assoc] at h'
      exact ⟨cs', by rw [reads, hgoto]; exact hreads, h'⟩

section Tokens

variable {buf v w name : Bytes} {start p : Nat} {c : UInt8} {m m' : MapType} {I J : Nat → Prop}
  {Q Q' : HttpclientParser → Nat → Prop} {r : HttpResponseParser}

theorem Reading.mono (h : Reading m r p) {q : Nat} (hpq : p ≤ q) : Reading m r q :=
  { h with marked := h.marked.mono hpq }

theorem Spans.append (h : Spans buf start v p) (hw : w <+: buf.drop p) :
    Spans buf start (v ++ w) (p + w.length) := by
  obtain ⟨rfl, hv⟩ := h
  exact ⟨by rw [List.length_append, Nat.add_assoc], append_prefix_drop hv hw⟩

theorem spans_singleton (h : [c] <+: buf.drop p) : Spans buf p [c] (p + 1) := ⟨rfl, h⟩

theorem Spans.makeString (h : Spans buf start w p) (hmax : buf.length ≤ stringMaxSize) :
    makeString buf start (lenFrom start p) = .ok w := by
  obtain ⟨rfl, hpre⟩ := h
  exact makeString_of_prefix hpre hmax

/-- One byte, with its actions. -/
theorem passes_goto
    (h : ∀ cs, I cs → ∃ actions cs', next cs c = some (.goto actions cs') ∧ J cs' ∧
      ∀ r p, [c] <+: buf.drop p → Reading m r p → Q r.parser p →
        ∃ r', runActions buf p r actions = .ok r' ∧ Reading m' r' (p + 1) ∧
          Q' r'.parser (p + 1)) :
    Passes (step buf) buf (At I m Q) [c] (At J m' Q') := by
  refine Passes.of_step ?_
  rintro ⟨cs, r⟩ p tail hbuf ⟨hI, hreading, hQ⟩
  obtain ⟨actions, cs', hnext, hJ, hrun⟩ := h cs hI
  obtain ⟨r', hr', hreading', hQ'⟩ := hrun r p ⟨tail, hbuf.symm⟩ hreading hQ
  refine ⟨(cs', r'), ?_, hJ, hreading', hQ'⟩
  simp only [step, hnext, hr', Except.map]

theorem scan_reads {cs cs' : Nat} (h : reads cs w = some cs') (r : HttpResponseParser) (p : Nat)
    (tail : Bytes) :
    scan (step buf) (cs, r) p (w ++ tail) = scan (step buf) (cs', r) (p + w.length) tail := by
  induction w generalizing cs p with
  | nil =>
      cases h
      rfl
  | cons c w ih =>
      rw [reads] at h
      split at h
      · rename_i cs₁ hnext
        have hstep : step buf (cs, r) p c = .ok (.goto (cs₁, r)) := by
          rw [step, hnext]
          rfl
        rw [List.cons_append, scan_cons_goto _ hstep, ih h (p + 1), List.length_cons]
        congr 1
        omega
      · cases h

/-- Bytes without an action. -/
theorem passes_reads (h : ∀ cs, I cs → ∃ cs', reads cs w = some cs' ∧ J cs')
    (hQ : ∀ parser p, w <+: buf.drop p → Q parser p → Q' parser (p + w.length)) :
    Passes (step buf) buf (At I m Q) w (At J m Q') := by
  rintro ⟨cs, r⟩ p tail hbuf ⟨hI, hreading, hQr⟩
  obtain ⟨cs', hreads, hJ⟩ := h cs hI
  refine ⟨(cs', r), scan_reads hreads r p tail, hJ, hreading.mono (by omega), ?_⟩
  exact hQ r.parser p ⟨tail, hbuf.symm⟩ hQr

end Tokens

section Lines

variable {buf name w : Bytes} {c : UInt8} {m : MapType}

/-- The first byte of a token, at which `mark` is set. -/
theorem passes_mark {I J : Nat → Prop} {Q : HttpclientParser → Prop} {a : Action}
    (ha : a = .mark ∨ a = .startValue)
    (hQ : ∀ (parser : HttpclientParser) (p : Nat), Q parser → Q { parser with mark := p })
    (h : ∀ cs, I cs → ∃ cs', next cs c = some (.goto [a] cs') ∧ J cs') :
    Passes (step buf) buf (At I m fun parser _ => Q parser) [c]
      (At J m fun parser p => Q parser ∧ Spans buf parser.mark [c] p) := by
  refine passes_goto fun cs hI => ?_
  obtain ⟨cs', hnext, hJ⟩ := h cs hI
  refine ⟨[a], cs', hnext, hJ, fun r p hc hreading hQr => ?_⟩
  refine ⟨{ r with parser.mark := p }, ?_, ?_, hQ _ p hQr, spans_singleton hc⟩
  · rcases ha with rfl | rfl
    · rfl
    · rfl
  · exact { hreading with
      marked := ⟨Nat.le_succ p, hreading.marked.fieldStart.trans (Nat.le_succ p),
        hreading.marked.fieldLen.trans (Nat.le_succ p)⟩ }

/-- The rest of a token behind its mark. -/
theorem passes_token {ok : UInt8 → Bool} (In : Bytes → Nat → Prop) {Q : HttpclientParser → Prop}
    (hnext : ∀ {w cs c}, In w cs → ok c = true →
      ∃ cs', next cs c = some (.goto [] cs') ∧ In (w ++ [c]) cs') (get : HttpclientParser → Nat)
    {v w : Bytes} (hall : w.all ok = true) :
    Passes (step buf) buf (At (In v) m fun parser p => Q parser ∧ Spans buf (get parser) v p) w
      (At (In (v ++ w)) m fun parser p => Q parser ∧ Spans buf (get parser) (v ++ w) p) :=
  passes_reads (fun _ h => reads_word hnext w h hall)
    fun _ _ hw h => ⟨h.1, h.2.append hw⟩

/-- The name of a field, with the colon. -/
theorem passes_name (hmax : buf.length ≤ stringMaxSize) (hne : name ≠ [])
    (h : name.all isTokenChar = true) :
    Passes (step buf) buf (At AtLine m AnyMarks) (name ++ [58])
      (At (AtValue name) m fun parser _ => FieldIs buf name parser) := by
  have htoken : name.all isToken = true := by
    rw [List.all_eq_true] at h ⊢
    exact fun c hc => isToken_of_tokenChar (h c hc)
  obtain ⟨c, w, rfl⟩ := List.exists_cons_of_ne_nil hne
  rw [List.all_cons, Bool.and_eq_true] at htoken
  have hfirst : Passes (step buf) buf (At AtLine m AnyMarks) [c]
      (At (InName [c]) m fun parser p => True ∧ Spans buf parser.fieldStart [c] p) := by
    refine passes_goto fun cs hline => ?_
    obtain ⟨actions, cs', hnext, hin, hactions⟩ := hline.first htoken.1
    refine ⟨actions, cs', hnext, hin, fun r p hc hreading _ => ?_⟩
    have hmarked := hreading.marked.mono (Nat.le_succ p)
    simp only [List.mem_cons, List.not_mem_nil, or_false] at hactions
    rcases hactions with rfl | rfl | rfl
    · exact ⟨{ r with parser.fieldStart := p }, rfl, ⟨hreading.headers, hreading.body,
        hreading.error, hreading.chunked, hmarked.mark, Nat.le_succ p, hmarked.fieldLen⟩, trivial,
        spans_singleton hc⟩
    · exact ⟨{ r with parser.close := true, parser.fieldStart := p }, rfl, ⟨hreading.headers,
        hreading.body, hreading.error, hreading.chunked, hmarked.mark, Nat.le_succ p,
        hmarked.fieldLen⟩, trivial, spans_singleton hc⟩
    · exact ⟨{ r with parser.mark := p, parser.fieldStart := p }, rfl, ⟨hreading.headers,
        hreading.body, hreading.error, hreading.chunked, Nat.le_succ p, Nat.le_succ p,
        hmarked.fieldLen⟩, trivial, spans_singleton hc⟩
  have hrest : Passes (step buf) buf
      (At (InName [c]) m fun parser p => True ∧ Spans buf parser.fieldStart [c] p) w
      (At (InName ([c] ++ w)) m fun parser p => True ∧ Spans buf parser.fieldStart ([c] ++ w) p) :=
    passes_token InName InName.snoc HttpclientParser.fieldStart htoken.2
  refine (Passes.cons hfirst hrest).append (passes_goto fun cs hname => ?_)
  obtain ⟨cs', hnext, hvalue⟩ := hname.colon
  refine ⟨_, cs', hnext, hvalue, fun r p hc hreading hspans => ⟨_, rfl, ?_, ?_, ?_⟩⟩
  · have hlen : lenFrom r.parser.fieldStart p ≤ p := lenFrom_le hreading.marked.fieldStart
    exact { hreading with
      marked := ⟨hreading.marked.mark.trans (Nat.le_succ p),
        hreading.marked.fieldStart.trans (Nat.le_succ p), hlen.trans (Nat.le_succ p)⟩ }
  · have hlen : lenFrom r.parser.fieldStart p = w.length + 1 := by
      rw [← hspans.2.1, lenFrom_add]
      rfl
    simp only [hlen]
    exact Nat.succ_ne_zero _
  · exact hspans.2.makeString hmax

theorem Reading.setMark {r : HttpResponseParser} {p : Nat} (h : Reading m r p) :
    Reading m { r with parser.mark := p } (p + 1) :=
  { h with
    marked := ⟨Nat.le_succ p, h.marked.fieldStart.trans (Nat.le_succ p),
      h.marked.fieldLen.trans (Nat.le_succ p)⟩ }

/-- The blanks in front of a value. -/
theorem passes_blanks {blanks : Bytes} (h : blanks.all isBlank = true) :
    Passes (step buf) buf (At (AtValue name) m fun parser _ => FieldIs buf name parser) blanks
      (At (AtValue name) m fun parser _ => FieldIs buf name parser) := by
  induction blanks with
  | nil => exact Passes.nil fun _ _ h => h
  | cons c blanks ih =>
      rw [List.all_cons, Bool.and_eq_true] at h
      refine Passes.cons (passes_goto fun cs hvalue => ?_) (ih h.2)
      exact ⟨[.startValue], cs, hvalue.blank h.1, hvalue, fun r p _ hreading hfield =>
        ⟨_, rfl, hreading.setMark, hfield⟩⟩

/-- The action sets the field to the bytes behind its mark. -/
theorem run_writeValue (hmax : buf.length ≤ stringMaxSize) {r : HttpResponseParser} {p : Nat}
    (hreading : Reading m r p) (hfield : FieldIs buf name r.parser)
    (hspans : Spans buf r.parser.mark w p) :
    ∃ r', runActions buf p r [.writeValue] = .ok r' ∧ Reading (m.set name w) r' (p + 1) := by
  have hmarked := hreading.marked.mono (Nat.le_succ p)
  refine ⟨{ r with data.headers := m.set name w }, ?_, rfl, hreading.body, hreading.error,
    hreading.chunked, hmarked.mark, hmarked.fieldStart, hmarked.fieldLen⟩
  rw [runActions, Action.run, onResponseHttpField, if_neg hfield.1, hfield.2,
    hspans.makeString hmax, hreading.headers]
  rfl

theorem passes_lineEnd {J : Nat → Prop} :
    Passes (step buf) buf (At (BeforeLf J) m AnyMarks) [10] (At J m AnyMarks) := by
  refine passes_goto fun cs hend => ?_
  obtain ⟨cs', hnext, hline⟩ := hend
  exact ⟨[], cs', hnext, hline, fun r p _ hreading _ =>
    ⟨r, rfl, hreading.mono (Nat.le_succ p), trivial⟩⟩

/-- A value, with the end of the line. -/
theorem passes_value (hmax : buf.length ≤ stringMaxSize) (hne : w ≠ [])
    (hall : w.all isContentChar = true) (hfirst : ∀ c ∈ w.head?, isBlank c = false)
    (hplain : name.map toLower = ascii "transfer-encoding" → w.map toLower ≠ ascii "chunked")
    {J : Nat → Prop} (hJ : ∀ {cs}, AtEnd cs → J cs) :
    Passes (step buf) buf (At (AtValue name) m fun parser _ => FieldIs buf name parser) (w ++ crlf)
      (At J (m.set name w) AnyMarks) := by
  obtain ⟨c, v, rfl⟩ := List.exists_cons_of_ne_nil hne
  have hcons := hall
  rw [List.all_cons, Bool.and_eq_true] at hcons
  have hmark : Passes (step buf) buf (At (AtValue name) m fun parser _ => FieldIs buf name parser)
      [c] (At (InValue name [c]) m fun parser p =>
        FieldIs buf name parser ∧ Spans buf parser.mark [c] p) :=
    passes_mark (Or.inr rfl) (fun _ _ hfield => hfield)
      fun _ hvalue => hvalue.first hcons.1 (hfirst c rfl)
  have hrest : Passes (step buf) buf (At (InValue name [c]) m fun parser p =>
        FieldIs buf name parser ∧ Spans buf parser.mark [c] p) v
      (At (InValue name ([c] ++ v)) m fun parser p =>
        FieldIs buf name parser ∧ Spans buf parser.mark ([c] ++ v) p) :=
    passes_token (InValue name) InValue.snoc HttpclientParser.mark hcons.2
  have hcr : Passes (step buf) buf
      (At (InValue name (c :: v)) m fun parser p =>
        FieldIs buf name parser ∧ Spans buf parser.mark (c :: v) p) [13]
      (At (BeforeLf J) (m.set name (c :: v)) AnyMarks) := by
    refine passes_goto fun cs hin => ?_
    obtain ⟨actions, cs', hnext, ⟨cs'', hlf, hend⟩, hactions⟩ := hin.cr hplain
    refine ⟨actions, cs', hnext, ⟨cs'', hlf, hJ hend⟩, fun r p _ hreading ⟨hfield, hspans⟩ => ?_⟩
    rcases hactions with rfl | rfl
    · obtain ⟨r', hrun, hreading'⟩ := run_writeValue hmax hreading hfield hspans
      exact ⟨r', hrun, hreading', trivial⟩
    · -- the length is read as well
      have hlength : Reading m { r with
          parser.contentLen := longToInt (strtol 10 (buf.drop r.parser.mark)) } p :=
        ⟨hreading.headers, hreading.body, hreading.error, hreading.chunked, hreading.marked.mark,
          hreading.marked.fieldStart, hreading.marked.fieldLen⟩
      obtain ⟨r', hrun, hreading'⟩ := run_writeValue hmax hlength hfield hspans
      exact ⟨r', hrun, hreading', trivial⟩
  exact (Passes.cons hmark hrest).append (Passes.cons hcr passes_lineEnd)

theorem passes_empty (hmax : buf.length ≤ stringMaxSize) {J : Nat → Prop}
    (hcr : ∀ {cs}, AtValue name cs →
      ∃ cs', next cs 13 = some (.goto [.startValue, .writeValue] cs') ∧ BeforeLf J cs') :
    Passes (step buf) buf (At (AtValue name) m fun parser _ => FieldIs buf name parser) crlf
      (At J (m.set name []) AnyMarks) := by
  refine Passes.cons (passes_goto fun cs hvalue => ?_) passes_lineEnd
  obtain ⟨cs', hnext, hend⟩ := hcr hvalue
  refine ⟨[.startValue, .writeValue], cs', hnext, hend, fun r p _ hreading hfield => ?_⟩
  have hmarked : Reading m { r with parser.mark := p } p :=
    ⟨hreading.headers, hreading.body, hreading.error, hreading.chunked, Nat.le_refl p,
      hreading.marked.fieldStart, hreading.marked.fieldLen⟩
  obtain ⟨r', hrun, hreading'⟩ := run_writeValue hmax hmarked hfield ⟨rfl, List.nil_prefix⟩
  exact ⟨r', hrun, hreading', trivial⟩

end Lines

theorem caseFold_of_not_mem {s : Bytes} (h : 0 ∉ s) : caseFold s = s.map toLower := by
  have hcstr : cstr s = s := by
    rw [cstr, List.takeWhile_eq_self_iff]
    intro c hc
    rw [decide_eq_true_iff]
    rintro rfl
    exact h hc
  rw [caseFold, hcstr]

section Fields

variable {buf : Bytes} {f : FieldLine} {m : MapType}

/-- Names are compared letter by letter. -/
theorem named_of_map (h : f.WellFormed) {name : String}
    (hname : f.name.map toLower = caseFold (ascii name)) : f.Named name := by
  have hno : 0 ∉ f.name := fun hmem => absurd (List.all_eq_true.mp h.token 0 hmem) (by decide)
  rw [FieldLine.Named, caseFold_of_not_mem hno, hname]

/-- One field, where the value or else the empty line end leads to a state of `J`. -/
theorem passes_field (hmax : buf.length ≤ stringMaxSize) (h : f.WellFormed)
    (hplain : f.Named "transfer-encoding" → caseFold f.value ≠ caseFold (ascii "chunked"))
    {J : Nat → Prop} (hJ : ∀ {cs}, AtEnd cs → J cs)
    (hempty : f.value = [] → ∀ {cs}, AtValue f.name cs →
      ∃ cs', next cs 13 = some (.goto [.startValue, .writeValue] cs') ∧ BeforeLf J cs') :
    Passes (step buf) buf (At AtLine m AnyMarks) f.bytes (At J (m.set f.name f.value) AnyMarks) := by
  refine (passes_name hmax h.name_ne h.token).append ((passes_blanks h.blanks).append ?_)
  by_cases hvalue : f.value = []
  · rw [hvalue]
    exact passes_empty hmax (hempty hvalue)
  · refine passes_value hmax hvalue h.content h.first (fun hname hchunked => ?_) hJ
    have hno : 0 ∉ f.value := fun hmem => absurd (List.all_eq_true.mp h.content 0 hmem) (by decide)
    refine hplain (named_of_map h hname) ?_
    rw [caseFold_of_not_mem hno, hchunked]
    rfl

theorem passes_fields (hmax : buf.length ≤ stringMaxSize) {fields : List FieldLine}
    (h : ∀ f ∈ fields, f.WellFormed)
    (hplain : ∀ f ∈ fields, f.Named "transfer-encoding" →
      caseFold f.value ≠ caseFold (ascii "chunked"))
    (hlength : ∀ f ∈ fields, f.Named "content-length" → f.value ≠ []) :
    Passes (step buf) buf (At AtLine m AnyMarks) (fields.flatMap FieldLine.bytes)
      (At AtLine (m.setAll (fields.map fun f => (f.name, f.value))) AnyMarks) := by
  induction fields generalizing m with
  | nil => exact Passes.nil fun _ _ h => h
  | cons f fields ih =>
      have hf := h f List.mem_cons_self
      have hfirst : Passes (step buf) buf (At AtLine m AnyMarks) f.bytes
          (At AtLine (m.set f.name f.value) AnyMarks) := by
        refine passes_field hmax hf (hplain f List.mem_cons_self) Or.inl fun hvalue _ hat => ?_
        obtain ⟨cs', hnext, hline, -⟩ := hat.cr fun hname =>
          hlength f List.mem_cons_self (named_of_map hf hname) hvalue
        exact ⟨cs', hnext, hline⟩
      exact hfirst.append (ih (fun g hg => h g (List.mem_cons_of_mem _ hg))
        (fun g hg => hplain g (List.mem_cons_of_mem _ hg))
        fun g hg => hlength g (List.mem_cons_of_mem _ hg))

/-- The fields of a block, behind the last of which the block may end. -/
theorem passes_blockFields (hmax : buf.length ≤ stringMaxSize) {b : ResponseBlock}
    (hb : b.WellFormed) (hplain : b.NotChunked) (hlast : b.LastSays)
    (hlength : ∀ f ∈ b.fields, f.Named "content-length" → f.value ≠ []) :
    Passes (step buf) buf (At AtEnd [] AnyMarks) (b.fields.flatMap FieldLine.bytes)
      (At AtEnd b.headers AnyMarks) := by
  rw [ResponseBlock.LastSays] at hlast
  rw [ResponseBlock.headers]
  have hfields := hb.fields
  rw [ResponseBlock.NotChunked] at hplain
  rcases List.eq_nil_or_concat' b.fields with hnil | ⟨fields, f, hconcat⟩
  · rw [hnil]
    exact Passes.nil fun _ _ h => h
  · rw [hconcat] at hfields hplain hlast hlength ⊢
    have hmem : f ∈ fields ++ [f] := List.mem_append_right _ (List.mem_singleton_self f)
    have hf := hfields f hmem
    rw [List.flatMap_append, List.map_append, MapType.setAll_append]
    have hothers : Passes (step buf) buf (At AtLine [] AnyMarks) (fields.flatMap FieldLine.bytes)
        (At AtLine (MapType.setAll [] (fields.map fun f => (f.name, f.value))) AnyMarks) :=
      passes_fields hmax (fun g hg => hfields g (List.mem_append_left _ hg))
        (fun g hg => hplain g (List.mem_append_left _ hg))
        fun g hg => hlength g (List.mem_append_left _ hg)
    have hend : Passes (step buf) buf
        (At AtLine (MapType.setAll [] (fields.map fun f => (f.name, f.value))) AnyMarks)
        ([f].flatMap FieldLine.bytes)
        (At AtEnd (MapType.setAll (MapType.setAll [] (fields.map fun f => (f.name, f.value)))
          ([f].map fun f => (f.name, f.value))) AnyMarks) := by
      rw [List.flatMap_cons, List.flatMap_nil, List.append_nil]
      refine passes_field hmax hf (hplain f hmem) id fun hvalue _ hat => ?_
      have hsays := hlast f (by simp)
      obtain ⟨cs', hnext, -, hline⟩ := hat.cr fun hname =>
        hlength f hmem (named_of_map hf hname) hvalue
      exact ⟨cs', hnext, hline
        (fun hname => hsays (Or.inl (named_of_map hf hname)) hvalue)
        fun hname => hsays (Or.inr (named_of_map hf hname)) hvalue⟩
    exact Passes.append (fun s p tail hbuf hat => hothers s p tail hbuf ⟨Or.inl hat.1, hat.2⟩) hend

end Fields

section Block

variable {buf : Bytes} {b : ResponseBlock}

theorem next_digit (c : UInt8) (hc : isDigit c = true) :
    next 16 c = some (.goto [.mark] 17) ∧ next 17 c = some (.goto [] 17) := by
  revert hc
  exact forall_byte (P := fun c => isDigit c = true →
    next 16 c = some (.goto [.mark] 17) ∧ next 17 c = some (.goto [] 17)) (by decide +kernel) c

theorem next_reason (c : UInt8) (hc : isContentChar c = true) :
    next 18 c = some (.goto [.mark] 19) ∧ next 19 c = some (.goto [] 19) := by
  revert hc
  exact forall_byte (P := fun c => isContentChar c = true →
    next 18 c = some (.goto [.mark] 19) ∧ next 19 c = some (.goto [] 19)) (by decide +kernel) c

/-- The word behind a mark, in one state. -/
theorem passes_run {ok : UInt8 → Bool} {cs cs' : Nat} {w : Bytes}
    (hfirst : ∀ c, ok c = true → next cs c = some (.goto [.mark] cs'))
    (hnext : ∀ c, ok c = true → next cs' c = some (.goto [] cs')) (hne : w ≠ [])
    (hall : w.all ok = true) :
    Passes (step buf) buf (At (· = cs) [] AnyMarks) w
      (At (· = cs') [] fun parser p => True ∧ Spans buf parser.mark w p) := by
  obtain ⟨c, v, rfl⟩ := List.exists_cons_of_ne_nil hne
  rw [List.all_cons, Bool.and_eq_true] at hall
  have hmark : Passes (step buf) buf (At (· = cs) [] fun _ _ => True) [c]
      (At (· = cs') [] fun parser p => True ∧ Spans buf parser.mark [c] p) := by
    refine passes_mark (Or.inl rfl) (fun _ _ _ => trivial) ?_
    rintro _ rfl
    exact ⟨cs', hfirst c hall.1, rfl⟩
  have hrest : Passes (step buf) buf
      (At (· = cs') [] fun parser p => True ∧ Spans buf parser.mark [c] p) v
      (At (· = cs') [] fun parser p => True ∧ Spans buf parser.mark ([c] ++ v) p) := by
    refine passes_token (fun _ cs => cs = cs') (fun hcs hc => ?_) HttpclientParser.mark hall.2
    rw [hcs]
    exact ⟨cs', hnext _ hc, rfl⟩
  exact Passes.cons hmark hrest

/-- The protocol and the blank behind it: no version but 1.0 and 1.1 is here. -/
theorem passes_version (hminor : b.minor = 48 ∨ b.minor = 49) :
    Passes (step buf) buf (At (· = httpclientParserStart) [] AnyMarks)
      (ascii "HTTP/1." ++ [b.minor, 32]) (At (· = 16) [] AnyMarks) := by
  have hmark : Passes (step buf) buf (At (· = httpclientParserStart) [] fun _ _ => True) [72]
      (At (· = 8) [] fun parser p => True ∧ Spans buf parser.mark [72] p) := by
    refine passes_mark (Or.inl rfl) (fun _ _ _ => trivial) ?_
    rintro _ rfl
    exact ⟨8, by decide, rfl⟩
  have hrest : Passes (step buf) buf
      (At (· = 8) [] fun parser p => True ∧ Spans buf parser.mark [72] p)
      (ascii "TTP/1." ++ [b.minor])
      (At (· = 15) [] fun parser p =>
        True ∧ Spans buf parser.mark ([72] ++ (ascii "TTP/1." ++ [b.minor])) p) := by
    refine passes_reads ?_ fun _ _ hw h => ⟨trivial, h.2.append hw⟩
    rintro _ rfl
    refine ⟨15, ?_, rfl⟩
    rcases hminor with h | h
    · rw [h]
      decide
    · rw [h]
      decide
  have hspace : Passes (step buf) buf
      (At (· = 15) [] fun parser p =>
        True ∧ Spans buf parser.mark ([72] ++ (ascii "TTP/1." ++ [b.minor])) p) [32]
      (At (· = 16) [] AnyMarks) := by
    refine passes_goto ?_
    rintro _ rfl
    refine ⟨[.httpVersion], 16, by decide, rfl, fun r p _ hreading ⟨_, hspans⟩ => ?_⟩
    obtain ⟨hlen, tail, htail⟩ := hspans
    have hlength : lenFrom r.parser.mark p = 8 := by
      rw [← hlen, lenFrom_add]
      rfl
    have hkept := hreading.mono (Nat.le_succ p)
    rcases hminor with h | h
    · refine ⟨{ r with data.version := 0x10 }, ?_, ⟨hkept.headers, hkept.body, hkept.error,
        hkept.chunked, hkept.marked.mark, hkept.marked.fieldStart, hkept.marked.fieldLen⟩, trivial⟩
      have hno : strncmpEq (buf.drop r.parser.mark) (ascii "HTTP/1.1") 8 = false := by
        rw [← htail, h, strncmpEq_append (by decide)]
        decide
      have hyes : strncmpEq (buf.drop r.parser.mark) (ascii "HTTP/1.0") 8 = true := by
        rw [← htail, h, strncmpEq_append (by decide)]
        decide
      rw [runActions, Action.run, onResponseVersion, hlength, hno, hyes]
      rfl
    · refine ⟨{ r with data.version := 0x11 }, ?_, ⟨hkept.headers, hkept.body, hkept.error,
        hkept.chunked, hkept.marked.mark, hkept.marked.fieldStart, hkept.marked.fieldLen⟩, trivial⟩
      have hyes : strncmpEq (buf.drop r.parser.mark) (ascii "HTTP/1.1") 8 = true := by
        rw [← htail, h, strncmpEq_append (by decide)]
        decide
      rw [runActions, Action.run, onResponseVersion, hlength, hyes]
      rfl
  have hword : ascii "HTTP/1." ++ [b.minor, 32] =
      [72] ++ (ascii "TTP/1." ++ [b.minor]) ++ [32] := rfl
  rw [hword]
  exact (hmark.append hrest).append hspace

theorem passes_status (hne : b.status ≠ []) (hall : b.status.all isDigit = true) :
    Passes (step buf) buf (At (· = 16) [] AnyMarks) (b.status ++ [32])
      (At (· = 18) [] AnyMarks) := by
  refine (passes_run (fun c hc => (next_digit c hc).1) (fun c hc => (next_digit c hc).2) hne
    hall).append (passes_goto ?_)
  rintro _ rfl
  refine ⟨[.statusCode], 18, by decide, rfl, fun r p _ hreading _ => ⟨_, rfl, ?_, trivial⟩⟩
  have hkept := hreading.mono (Nat.le_succ p)
  exact ⟨hkept.headers, hkept.body, hkept.error, hkept.chunked, hkept.marked.mark,
    hkept.marked.fieldStart, hkept.marked.fieldLen⟩

theorem run_reasonPhrase (hmax : buf.length ≤ stringMaxSize) {r : HttpResponseParser} {p : Nat}
    {w : Bytes} (hreading : Reading [] r p) (hspans : Spans buf r.parser.mark w p) :
    ∃ r', runActions buf p r [.reasonPhrase] = .ok r' ∧ Reading [] r' (p + 1) := by
  have hkept := hreading.mono (Nat.le_succ p)
  refine ⟨{ r with data.reason := w }, ?_, hkept.headers, hkept.body, hkept.error, hkept.chunked,
    hkept.marked.mark, hkept.marked.fieldStart, hkept.marked.fieldLen⟩
  rw [runActions, Action.run, onResponseReason, hspans.makeString hmax]
  rfl

/-- The end of the status line. An empty reason is read with the CR as its one character. -/
theorem passes_reason (hmax : buf.length ≤ stringMaxSize)
    (hall : b.reason.all isContentChar = true) :
    Passes (step buf) buf (At (· = 18) [] AnyMarks) (b.reason ++ crlf) (At AtEnd [] AnyMarks) := by
  by_cases hreason : b.reason = []
  · rw [hreason]
    have hcr : Passes (step buf) buf (At (· = 18) [] fun _ _ => True) [13]
        (At (· = 19) [] fun parser p => True ∧ Spans buf parser.mark [13] p) := by
      refine passes_mark (Or.inl rfl) (fun _ _ _ => trivial) ?_
      rintro _ rfl
      exact ⟨19, by decide, rfl⟩
    refine Passes.cons hcr (passes_goto ?_)
    rintro _ rfl
    refine ⟨[.reasonPhrase], 20, by decide, Or.inl rfl,
      fun r p _ hreading ⟨_, hspans⟩ => ?_⟩
    obtain ⟨r', hrun, hreading'⟩ := run_reasonPhrase hmax hreading hspans
    exact ⟨r', hrun, hreading', trivial⟩
  · refine (passes_run (fun c hc => (next_reason c hc).1) (fun c hc => (next_reason c hc).2)
      hreason hall).append (Passes.cons (passes_goto ?_) passes_lineEnd)
    rintro _ rfl
    refine ⟨[.reasonPhrase], 24, by decide, ⟨20, by decide, Or.inl rfl⟩,
      fun r p _ hreading ⟨_, hspans⟩ => ?_⟩
    obtain ⟨r', hrun, hreading'⟩ := run_reasonPhrase hmax hreading hspans
    exact ⟨r', hrun, hreading', trivial⟩

variable (buf) in
/-- The empty line behind the fields: the machine stops. -/
theorem scan_emptyLine {m : MapType} {s : Nat × HttpResponseParser} {p : Nat} (tail : Bytes)
    (h : At AtEnd m AnyMarks s p) : ∃ r,
    scan (step buf) s p (crlf ++ tail) = .ok ⟨(httpclientParserFirstFinal, r), p + 2, .stopped⟩ ∧
      Reading m r (p + 2) := by
  obtain ⟨cs, r⟩ := s
  obtain ⟨hline, hreading, -⟩ := h
  have hkept := hreading.mono (Nat.le_add_right p 2)
  rcases hline with hcs | hcs <;> simp only at hcs <;> subst hcs
  · refine ⟨{ r with parser.bodyStart := p + 2 }, ?_, hkept.headers, hkept.body, hkept.error,
      hkept.chunked, hkept.marked.mark, hkept.marked.fieldStart, hkept.marked.fieldLen⟩
    have hcr : step buf (20, r) p 13 = .ok (.goto (3, r)) := rfl
    have hlf : step buf (3, r) (p + 1) 10 =
        .ok (.stop (120, { r with parser.bodyStart := p + 2 })) := rfl
    exact (scan_cons_goto _ hcr).trans (scan_cons_stop _ hlf)
  · refine ⟨{ r with parser.close := true, parser.bodyStart := p + 2 }, ?_, hkept.headers,
      hkept.body, hkept.error, hkept.chunked, hkept.marked.mark, hkept.marked.fieldStart,
      hkept.marked.fieldLen⟩
    have hcr : step buf (43, r) p 13 = .ok (.goto (3, { r with parser.close := true })) := rfl
    have hlf : step buf (3, { r with parser.close := true }) (p + 1) 10 =
        .ok (.stop (120, { r with parser.close := true, parser.bodyStart := p + 2 })) := rfl
    exact (scan_cons_goto _ hcr).trans (scan_cons_stop _ hlf)

/-- The parser takes a well-formed block that makes nothing chunked to its end. -/
theorem scan_block (hb : b.WellFormed) (hplain : b.NotChunked) (hlast : b.LastSays)
    (hlength : ∀ f ∈ b.fields, f.Named "content-length" → f.value ≠ []) (rest : Bytes)
    (hmax : (b.bytes ++ rest).length ≤ stringMaxSize) : ∃ r,
    scan (step (b.bytes ++ rest)) (httpclientParserStart, .new) 0 (b.bytes ++ rest) =
        .ok ⟨(httpclientParserFirstFinal, r), b.bytes.length, .stopped⟩ ∧
      Reading b.headers r b.bytes.length := by
  have hlines : Passes (step (b.bytes ++ rest)) (b.bytes ++ rest)
      (At (· = httpclientParserStart) [] AnyMarks)
      (b.statusLine ++ b.fields.flatMap FieldLine.bytes) (At AtEnd b.headers AnyMarks) := by
    have hstatus := (passes_version hb.minor).append
      ((passes_status hb.status_ne hb.status).append (passes_reason hmax hb.reason))
    exact hstatus.append (passes_blockFields hmax hb hplain hlast hlength)
  obtain ⟨s, hscan, hline⟩ := hlines (httpclientParserStart, .new) 0 (crlf ++ rest)
    (by rw [List.drop_zero, ResponseBlock.bytes, List.append_assoc])
    ⟨rfl, ⟨rfl, rfl, rfl, rfl, marked_init .new⟩, trivial⟩
  obtain ⟨r, hend, hreading⟩ := scan_emptyLine (b.bytes ++ rest) rest hline
  have hlen : b.bytes.length =
      0 + (b.statusLine ++ b.fields.flatMap FieldLine.bytes).length + 2 := by
    rw [ResponseBlock.bytes, List.length_append, Nat.zero_add]
    rfl
  have hbytes : b.bytes ++ rest =
      (b.statusLine ++ b.fields.flatMap FieldLine.bytes) ++ (crlf ++ rest) := by
    rw [ResponseBlock.bytes, List.append_assoc]
  refine ⟨r, ?_, by rw [hlen]; exact hreading⟩
  rw [hlen]
  exact (congrArg (scan (step (b.bytes ++ rest)) (httpclientParserStart, .new) 0) hbytes).trans
    (hscan.trans hend)

end Block

end Client

end Http

end Saturn
