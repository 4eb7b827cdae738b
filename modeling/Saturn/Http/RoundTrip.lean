import Saturn.Http.KeepAlive
import Saturn.Http.MessageLength
import Saturn.Http.MethodToken

/-!
# A request that is written and read

`recvRequest` reads what `HttpRequest::dump` writes. The parser is followed token by token, with
triples whose assertions say what it has made of the request so far.
-/

namespace Saturn

namespace Http

/-- The parser at position `p`, with what it has made of the request so far. -/
structure Upto (relaxed : Bool) (d : HttpRequest) (r : HttpRequestParser) (p : Nat) : Prop where
  data : r.data = d
  error : r.error = 0
  start : r.parser.cs = httpParserStart
  nread : r.parser.nread = 0
  uriRelaxed : r.parser.uriRelaxed = relaxed
  mark : r.parser.mark ≤ p
  fieldStart : r.parser.fieldStart ≤ p
  fieldLen : r.parser.fieldLen ≤ p

/-- The machine in state `cs`, between two actions. -/
def At (relaxed : Bool) (cs : Nat) (d : HttpRequest) (Q : HttpParser → Nat → Prop)
    (s : Nat × HttpRequestParser) (p : Nat) : Prop :=
  s.1 = cs ∧ Upto relaxed d s.2 p ∧ Q s.2.parser p

/-- Nothing is known of the marks. -/
def AnyMarks : HttpParser → Nat → Prop := fun _ _ => True

/-- The token that began at a mark ends at the position. -/
def Token (buf : Bytes) (get : HttpParser → Nat) (token : Bytes) (parser : HttpParser) (p : Nat) :
    Prop :=
  get parser + token.length = p ∧ token <+: buf.drop (get parser)

/-- The name of the field that is being read. -/
def Field (buf : Bytes) (name : Bytes) (parser : HttpParser) (_p : Nat) : Prop :=
  parser.fieldLen ≠ 0 ∧ makeString buf parser.fieldStart parser.fieldLen = .ok name

section Tokens

variable {rest : Http11Rest} {buf : Bytes} {relaxed : Bool} {d d' : HttpRequest}
  {Q Q' : HttpParser → Nat → Prop}

theorem Upto.mono {r : HttpRequestParser} {p q : Nat} (h : Upto relaxed d r p) (hpq : p ≤ q) :
    Upto relaxed d r q :=
  { h with
    mark := h.mark.trans hpq
    fieldStart := h.fieldStart.trans hpq
    fieldLen := h.fieldLen.trans hpq }

/-- One byte, with its actions. -/
theorem passes_goto {cs cs' : Nat} {c : UInt8} {actions : List Action}
    (hnext : http11Next rest relaxed cs c = .goto actions cs')
    (hrun : ∀ r p, c :: [] <+: buf.drop p → Upto relaxed d r p → Q r.parser p →
      ∃ r', runActions buf p r actions = .ok r' ∧ Upto relaxed d' r' (p + 1) ∧
        Q' r'.parser (p + 1)) :
    Passes (http11Step rest buf) buf (At relaxed cs d Q) [c] (At relaxed cs' d' Q') := by
  refine Passes.of_step ?_
  rintro ⟨_, r⟩ p tail hbuf ⟨rfl, hupto, hQ⟩
  obtain ⟨r', hr', hupto', hQ'⟩ := hrun r p ⟨tail, hbuf.symm⟩ hupto hQ
  refine ⟨(cs', r'), ?_, rfl, hupto', hQ'⟩
  rw [← hupto.uriRelaxed] at hnext
  simp only [http11Step, hnext, hr', Except.map]

/-- Bytes without an action. -/
theorem passes_reads {cs cs' : Nat} {w : Bytes} (h : reads rest relaxed cs w = some cs')
    (hQ : ∀ parser p, w <+: buf.drop p → Q parser p → Q' parser (p + w.length)) :
    Passes (http11Step rest buf) buf (At relaxed cs d Q) w (At relaxed cs' d Q') := by
  rintro ⟨_, r⟩ p tail hbuf ⟨rfl, hupto, hQ'⟩
  refine ⟨(cs', r), scan_reads hupto.uriRelaxed h p tail, rfl, hupto.mono (by omega), ?_⟩
  exact hQ r.parser p ⟨tail, hbuf.symm⟩ hQ'

/-- The actions that set a mark. -/
def Action.Marks (a : Action) (get : HttpParser → Nat) : Prop :=
  (a = .mark ∨ a = .startValue) ∧ get = HttpParser.mark ∨
  a = .startQuery ∧ get = HttpParser.queryStart ∨ a = .startField ∧ get = HttpParser.fieldStart

variable (buf) in
theorem Action.Marks.run {a : Action} {get : HttpParser → Nat} (h : a.Marks get)
    {r : HttpRequestParser} {p : Nat} (hupto : Upto relaxed d r p) : ∃ r',
    runActions buf p r [a] = .ok r' ∧ r'.parser = a.onParser p r.parser ∧ get r'.parser = p ∧
      Upto relaxed d r' p := by
  obtain ⟨hdata, herror, hstart, hnread, hrelaxed, hmark, hfield, hlen⟩ := hupto
  rcases h with ⟨rfl | rfl, rfl⟩ | ⟨rfl, rfl⟩ | ⟨rfl, rfl⟩
  all_goals
    refine ⟨_, rfl, rfl, rfl, ?_⟩
    exact ⟨hdata, herror, hstart, hnread, hrelaxed, by simp only; omega, by simp only; omega,
      by simp only; omega⟩

/-- A token, from the mark at its first byte on. -/
theorem passes_mark {a : Action} {get : HttpParser → Nat} (ha : a.Marks get) {cs cs₁ cs₂ : Nat}
    {c : UInt8} {w : Bytes} (hfirst : http11Next rest relaxed cs c = .goto [a] cs₁)
    (hw : reads rest relaxed cs₁ w = some cs₂)
    (hQ : ∀ parser p, Q parser p → Q (a.onParser p parser) (p + 1))
    (hQw : ∀ parser p, Q parser p → Q parser (p + w.length)) :
    Passes (http11Step rest buf) buf (At relaxed cs d Q) (c :: w)
      (At relaxed cs₂ d fun parser p => Q parser p ∧ Token buf get (c :: w) parser p) := by
  refine Passes.cons (J := At relaxed cs₁ d fun parser p => Q parser p ∧ Token buf get [c] parser p)
    (passes_goto hfirst fun r p hc hupto hQr => ?_) (passes_reads hw ?_)
  · obtain ⟨r', hrun, hparser, hget, hupto'⟩ := ha.run buf hupto
    refine ⟨r', hrun, hupto'.mono (Nat.le_succ p), ?_, ?_, ?_⟩
    · rw [hparser]
      exact hQ _ _ hQr
    · rw [hget]
      rfl
    · rw [hget]
      exact hc
  · rintro parser p hw' ⟨hQp, rfl, hc⟩
    refine ⟨hQw _ _ hQp, by simp only [List.length_cons, List.length_nil]; omega, ?_⟩
    exact append_prefix_drop hc hw'

theorem Token.snoc {get : HttpParser → Nat} {token : Bytes} {parser : HttpParser} {p : Nat}
    {c : UInt8} (h : Token buf get token parser p) (hc : [c] <+: buf.drop p) :
    token ++ [c] <+: buf.drop (get parser) := by
  obtain ⟨rfl, htoken⟩ := h
  exact append_prefix_drop htoken hc

theorem Token.makeString {get : HttpParser → Nat} {token : Bytes} {parser : HttpParser} {p : Nat}
    (h : Token buf get token parser p) (hmax : buf.length ≤ stringMaxSize) :
    makeString buf (get parser) (lenFrom (get parser) p) = .ok token := by
  obtain ⟨rfl, hpre⟩ := h
  exact makeString_of_prefix hpre hmax

/-- The actions that copy a token into the request. -/
def Action.Saves (a : Action) (get : HttpParser → Nat) (put : Bytes → HttpRequest → HttpRequest) :
    Prop :=
  a = .requestPath ∧ get = HttpParser.mark ∧ (put = fun s d => { d with path := s }) ∨
  a = .queryString ∧ get = HttpParser.queryStart ∧ (put = fun s d => { d with query := s }) ∨
  a = .fragment ∧ get = HttpParser.mark ∧ (put = fun s d => { d with fragment := s })

theorem Action.Saves.run {a : Action} {get : HttpParser → Nat}
    {put : Bytes → HttpRequest → HttpRequest} (h : a.Saves get put) {r : HttpRequestParser} {p : Nat}
    {token : Bytes}
    (htoken : makeString buf (get r.parser) (lenFrom (get r.parser) p) = .ok token) :
    a.run buf p r = .ok { r with data := put token r.data } := by
  rcases h with ⟨rfl, rfl, rfl⟩ | ⟨rfl, rfl, rfl⟩ | ⟨rfl, rfl, rfl⟩
  · rw [Action.run, onRequestPath, htoken]
    rfl
  · rw [Action.run, onRequestQuery, htoken]
    rfl
  · rw [Action.run, onRequestFragment, htoken]
    rfl

/-- The byte behind a token that is copied into the request. -/
theorem passes_save {a : Action} {get : HttpParser → Nat}
    {put : Bytes → HttpRequest → HttpRequest} (ha : a.Saves get put)
    (hmax : buf.length ≤ stringMaxSize) {cs cs' : Nat} {c : UInt8} {token : Bytes}
    (hnext : http11Next rest relaxed cs c = .goto [a] cs' ∨
      http11Next rest relaxed cs c = .goto [a, .requestUri] cs') :
    Passes (http11Step rest buf) buf
      (At relaxed cs d fun parser p => Q parser p ∧ Token buf get token parser p) [c]
      (At relaxed cs' (put token d) AnyMarks) := by
  have hrun : ∀ r p, Upto relaxed d r p → Token buf get token r.parser p →
      a.run buf p r = .ok { r with data := put token d } ∧
        Upto relaxed (put token d) { r with data := put token d } (p + 1) := by
    intro r p hupto htoken
    refine ⟨?_, ?_⟩
    · rw [ha.run (htoken.makeString hmax), hupto.data]
    · exact { hupto.mono (Nat.le_succ p) with data := rfl }
  rcases hnext with hnext | hnext
  · refine passes_goto hnext fun r p _ hupto ⟨_, htoken⟩ => ?_
    obtain ⟨heq, hupto'⟩ := hrun r p hupto htoken
    refine ⟨_, ?_, hupto', trivial⟩
    rw [runActions, heq]
    rfl
  · refine passes_goto hnext fun r p _ hupto ⟨_, htoken⟩ => ?_
    obtain ⟨heq, hupto'⟩ := hrun r p hupto htoken
    refine ⟨_, ?_, hupto', trivial⟩
    rw [runActions, heq]
    rfl

end Tokens

/-! ## The request line -/

section RequestLine

/-- What ends a path, and the state behind it. -/
def pathEnds : List (UInt8 × Nat) := [(32, 4), (35, 20), (63, 29)]

/-- What ends a query. -/
def queryEnds : List (UInt8 × Nat) := [(32, 4), (35, 20)]

variable {rest : Http11Rest} {buf : Bytes} {relaxed : Bool} {d : HttpRequest}

theorem charsToHttpMethod_toString {m : HttpMethod} (h : m ≠ .invalidMethod) :
    charsToHttpMethod (httpMethodToString m ++ [32]) = m := by
  have hmap : ∀ e ∈ httpMethodMap,
      charsToHttpMethod (ascii e.2 ++ [32]) = e.1 ∧ httpMethodMap.lookup e.1 = some e.2 := by
    decide
  have hmem : ∃ e ∈ httpMethodMap, e.1 = m := by
    cases m <;> first | exact absurd rfl h | decide
  obtain ⟨e, he, rfl⟩ := hmem
  obtain ⟨hfound, hlookup⟩ := hmap e he
  rw [httpMethodToString, hlookup]
  exact hfound

variable (rest buf relaxed) in
theorem passes_method (m : HttpMethod) (h : isMethodName (httpMethodToString m) = true) :
    Passes (http11Step rest buf) buf (At relaxed httpParserStart d AnyMarks)
      (httpMethodToString m ++ [32]) (At relaxed 3 { d with method := m } AnyMarks) := by
  have hvalid : m ≠ .invalidMethod := fun heq => by
    rw [heq] at h
    exact absurd h (by decide)
  rintro ⟨_, r⟩ p tail hbuf ⟨rfl, hupto, -⟩
  have hfound : charsToHttpMethod (buf.drop p) = m := by
    rw [hbuf, charsToHttpMethod_append (List.mem_append_right _ List.mem_cons_self)]
    exact charsToHttpMethod_toString hvalid
  have hcallback : onRequestMethod { r with parser.mark := p } buf p (httpMethodToString m).length =
      .ok { r with parser.mark := p, data.method := m } := by
    simp only [onRequestMethod, hfound, if_neg hvalid]
  refine ⟨(3, { r with parser.mark := p, data.method := m }), ?_, rfl, ?_, trivial⟩
  · rw [List.append_assoc, List.singleton_append, scan_method h, hcallback, List.length_append]
    rfl
  · rw [List.length_append, List.length_singleton]
    have hmono := hupto.mono (Nat.le_add_right p ((httpMethodToString m).length + 1))
    have hdata : r.data = d := hupto.data
    exact { hmono with data := by simp only [hdata], mark := Nat.le_add_right p _ }

theorem passes_path (hmax : buf.length ≤ stringMaxSize) {path : Bytes}
    (h : IsPath rest relaxed path) {c : UInt8} {cs : Nat}
    (hend : (c, cs) ∈ pathEnds) :
    Passes (http11Step rest buf) buf (At relaxed 3 d AnyMarks) (path ++ [c])
      (At relaxed cs { d with path } AnyMarks) := by
  obtain ⟨b, w, cs₁, cs₂, rfl, hfirst, hw, hspace, hhash, hmark⟩ := h
  refine (passes_mark (Or.inl ⟨Or.inl rfl, rfl⟩) hfirst hw (fun _ _ _ => trivial)
    fun _ _ _ => trivial).append (passes_save (Or.inl ⟨rfl, rfl, rfl⟩) hmax ?_)
  simp only [pathEnds, List.mem_cons, Prod.mk.injEq, List.not_mem_nil, or_false] at hend
  rcases hend with ⟨rfl, rfl⟩ | ⟨rfl, rfl⟩ | ⟨rfl, rfl⟩
  · exact Or.inr hspace
  · exact Or.inr hhash
  · exact Or.inl hmark

theorem passes_query (hmax : buf.length ≤ stringMaxSize) {query : Bytes} (hne : query ≠ [])
    (h : isWord (isQueryChar relaxed) query = true) {c : UInt8} {cs : Nat}
    (hend : (c, cs) ∈ queryEnds) :
    Passes (http11Step rest buf) buf (At relaxed 29 d AnyMarks) (query ++ [c])
      (At relaxed cs { d with query } AnyMarks) := by
  obtain ⟨b, w, cs₁, rfl, hfirst, hw⟩ := reads_query_first rest hne h
  refine (passes_mark (Or.inr (Or.inl ⟨rfl, rfl⟩)) hfirst hw (fun _ _ _ => trivial)
    fun _ _ _ => trivial).append (passes_save (Or.inr (Or.inl ⟨rfl, rfl, rfl⟩)) hmax ?_)
  simp only [queryEnds, List.mem_cons, Prod.mk.injEq, List.not_mem_nil, or_false] at hend
  rcases hend with ⟨rfl, rfl⟩ | ⟨rfl, rfl⟩
  · exact Or.inr rfl
  · exact Or.inr rfl

theorem passes_fragment (hmax : buf.length ≤ stringMaxSize) {fragment : Bytes} (hne : fragment ≠ [])
    (h : isWord (isQueryChar relaxed) fragment = true) :
    Passes (http11Step rest buf) buf (At relaxed 20 d AnyMarks) (fragment ++ [32])
      (At relaxed 4 { d with fragment } AnyMarks) := by
  obtain ⟨b, w, cs₁, rfl, hfirst, hw⟩ := reads_fragment_first rest hne h
  exact (passes_mark (Or.inl ⟨Or.inl rfl, rfl⟩) hfirst hw (fun _ _ _ => trivial)
    fun _ _ _ => trivial).append
      (passes_save (Or.inr (Or.inr ⟨rfl, rfl, rfl⟩)) hmax (Or.inl rfl))

/-- The target, with the space behind it. -/
theorem passes_target (hmax : buf.length ≤ stringMaxSize) {r : HttpRequest}
    (hpath : IsPath rest relaxed r.path) (hquery : isWord (isQueryChar relaxed) r.query = true)
    (hfragment : isWord (isQueryChar relaxed) r.fragment = true) :
    Passes (http11Step rest buf) buf
      (At relaxed 3 { d with query := [], fragment := [] } AnyMarks) (r.target ++ [32])
      (At relaxed 4 { d with path := r.path, query := r.query, fragment := r.fragment }
        AnyMarks) := by
  have hspace : (32, 4) ∈ queryEnds := by decide
  have hhash : (35, 20) ∈ queryEnds := by decide
  have hpspace : (32, 4) ∈ pathEnds := by decide
  have hphash : (35, 20) ∈ pathEnds := by decide
  have hpmark : (63, 29) ∈ pathEnds := by decide
  rw [HttpRequest.target]
  by_cases hqnil : r.query = [] <;> by_cases hfnil : r.fragment = []
  · rw [if_pos hqnil, if_pos hfnil, hqnil, hfnil]
    have h := passes_path (d := { d with query := [], fragment := [] }) hmax hpath hpspace
    simpa using h
  · rw [if_pos hqnil, if_neg hfnil, hqnil]
    have h := (passes_path (d := { d with query := [], fragment := [] }) hmax hpath hphash).append
      (passes_fragment hmax hfnil hfragment)
    simpa [ascii] using h
  · rw [if_neg hqnil, if_pos hfnil, hfnil]
    have h := (passes_path (d := { d with query := [], fragment := [] }) hmax hpath hpmark).append
      (passes_query hmax hqnil hquery hspace)
    simpa [ascii] using h
  · rw [if_neg hqnil, if_neg hfnil]
    have h := ((passes_path (d := { d with query := [], fragment := [] }) hmax hpath hpmark).append
      (passes_query hmax hqnil hquery hhash)).append (passes_fragment hmax hfnil hfragment)
    simpa [ascii] using h

/-- What `dump` writes for the versions that the parser knows. -/
theorem httpVersion_cases {version : UInt8} (h : version = 0x10 ∨ version = 0x11) :
    httpVersion version = ascii "HTTP/1.0" ∧ version = 0x10 ∨
      httpVersion version = ascii "HTTP/1.1" ∧ version = 0x11 := by
  rcases h with rfl | rfl
  · exact Or.inl ⟨by decide, rfl⟩
  · exact Or.inr ⟨by decide, rfl⟩

theorem passes_version {version : UInt8} (h : version = 0x10 ∨ version = 0x11) :
    Passes (http11Step rest buf) buf (At relaxed 4 d AnyMarks) (httpVersion version ++ crlf)
      (At relaxed 13 { d with version } AnyMarks) := by
  have hrun {r : HttpRequestParser} {p : Nat} {tail : Bytes} {minor : UInt8}
      (hlen : r.parser.mark + 8 = p)
      (htail : [72, 84, 84, 80, 47, 49, 46, minor, 13] ++ tail = buf.drop r.parser.mark) (t : Bytes) :
      strncmpEq (buf.drop r.parser.mark) t (lenFrom r.parser.mark p) =
        strncmpEq [72, 84, 84, 80, 47, 49, 46, minor, 13] t 8 := by
    have hle : lenFrom r.parser.mark p = 8 := by rw [← hlen, lenFrom_add]
    rw [hle, ← htail, strncmpEq_append (Nat.le_succ 8)]
  have hline {minor : UInt8} (hminor : minor = 48 ∧ version = 0x10 ∨ minor = 49 ∧ version = 0x11) :
      Passes (http11Step rest buf) buf (At relaxed 4 d AnyMarks)
        ([72, 84, 84, 80, 47, 49, 46, minor] ++ ([13] ++ [10]))
        (At relaxed 13 { d with version } AnyMarks) := by
    have hw : reads rest relaxed 5 [84, 84, 80, 47, 49, 46, minor] = some 12 := by
      rcases hminor with ⟨rfl, -⟩ | ⟨rfl, -⟩ <;> rfl
    refine (passes_mark (Or.inl ⟨Or.inl rfl, rfl⟩) rfl hw (fun _ _ _ => trivial)
      fun _ _ _ => trivial).append (Passes.append (J := At relaxed 17 { d with version } AnyMarks)
        (passes_goto rfl ?_) (passes_reads rfl fun _ _ _ _ => trivial))
    rintro r p hc hupto ⟨-, htoken⟩
    obtain ⟨tail, htail⟩ := htoken.snoc hc
    refine ⟨{ r with data.version := version }, ?_,
      { hupto.mono (Nat.le_succ p) with data := by simp only [hupto.data] }, trivial⟩
    rw [runActions, Action.run, onRequestVersion, hrun htoken.1 htail, hrun htoken.1 htail]
    rcases hminor with ⟨rfl, rfl⟩ | ⟨rfl, rfl⟩ <;> rfl
  rcases httpVersion_cases h with ⟨heq, hv⟩ | ⟨heq, hv⟩
  · rw [heq]
    exact hline (Or.inl ⟨rfl, hv⟩)
  · rw [heq]
    exact hline (Or.inr ⟨rfl, hv⟩)

end RequestLine

/-! ## The header fields -/

section Fields

/-- No control character, and no blank at its beginning. -/
def isFieldValue (v : Bytes) : Bool :=
  (v.all fun c => 32 ≤ c && c != 127) && v.head? != some 32

variable {rest : Http11Rest} {buf : Bytes} {relaxed : Bool} {d : HttpRequest}

/-- The machine takes every token for a name, and begins no blank or end of line with it. -/
theorem isFieldName_of_token {c : UInt8} (h : isTokenChar c = true) :
    isFieldName c = true ∧ c ≠ 10 ∧ c ≠ 13 :=
  forall_byte (P := fun c => isTokenChar c = true → isFieldName c = true ∧ c ≠ 10 ∧ c ≠ 13)
    (by decide +kernel) c h

theorem next_name_first {c : UInt8} (h : isTokenChar c = true) :
    http11Next rest relaxed 13 c = .goto [.startField] 14 := by
  have hname := isFieldName_of_token h
  rw [http11Next_of_lookup rfl]
  simp [rowNext_cons, CharClass.has, hname]

theorem next_name {c : UInt8} (h : isTokenChar c = true) :
    http11Next rest relaxed 14 c = .goto [] 14 := by
  have hname := isFieldName_of_token h
  rw [http11Next_of_lookup rfl]
  simp [rowNext_cons, CharClass.has, hname]

theorem value_ne {c : UInt8} (h : (32 ≤ c && c != 127) = true) :
    c ≠ 0 ∧ c ≠ 9 ∧ c ≠ 10 ∧ c ≠ 13 ∧ c ≠ 127 := by
  refine ⟨?_, ?_, ?_, ?_, ?_⟩
  all_goals
    rintro rfl
    cases h

theorem next_value_first {c : UInt8} (h : (32 ≤ c && c != 127) = true) (hblank : c ≠ 32) :
    http11Next rest relaxed 15 c = .goto [.startValue] 16 := by
  have hne := value_ne h
  rw [http11Next_of_lookup rfl]
  simp [rowNext_cons, CharClass.has, hne, hblank]

theorem next_value {c : UInt8} (h : (32 ≤ c && c != 127) = true) :
    http11Next rest relaxed 16 c = .goto [] 16 := by
  have hne := value_ne h
  rw [http11Next_of_lookup rfl]
  simp [rowNext_cons, CharClass.has, hne]

/-- A state that goes round on the bytes of a token reads them. -/
theorem reads_all {ok : UInt8 → Bool} {u : Nat}
    (hok : ∀ c, ok c = true → http11Next rest relaxed u c = .goto [] u) {w : Bytes}
    (hw : w.all ok = true) : reads rest relaxed u w = some u := by
  induction w with
  | nil => rfl
  | cons c w ih =>
      rw [List.all_cons, Bool.and_eq_true] at hw
      rw [reads_cons (hok c hw.1)]
      exact ih hw.2

/-- The name of a field, with the colon. -/
theorem passes_name (hmax : buf.length ≤ stringMaxSize) {name : Bytes} (hne : name ≠ [])
    (h : name.all isTokenChar = true) :
    Passes (http11Step rest buf) buf (At relaxed 13 d AnyMarks) (name ++ [58])
      (At relaxed 15 d (Field buf name)) := by
  obtain ⟨c, w, rfl⟩ := List.exists_cons_of_ne_nil hne
  rw [List.all_cons, Bool.and_eq_true] at h
  have hw : reads rest relaxed 14 w = some 14 := reads_all (fun _ hc => next_name hc) h.2
  refine (passes_mark (Or.inr (Or.inr ⟨rfl, rfl⟩)) (next_name_first h.1) hw
    (fun _ _ _ => trivial) fun _ _ _ => trivial).append (passes_goto rfl ?_)
  rintro r p hc hupto ⟨-, htoken⟩
  have hname := htoken.makeString hmax
  have hlen : lenFrom r.parser.fieldStart p = (c :: w).length := by
    rw [← htoken.1, lenFrom_add]
  refine ⟨_, rfl, { hupto.mono (Nat.le_succ p) with fieldLen := ?_ }, ?_, hname⟩
  · have hpos := htoken.1
    simp only [hlen]
    omega
  · simp only [hlen, List.length_cons]
    omega

/-- The blank that `dump` writes behind the name of its own fields. -/
theorem passes_blank {name : Bytes} :
    Passes (http11Step rest buf) buf (At relaxed 15 d (Field buf name)) [32]
      (At relaxed 15 d (Field buf name)) := by
  refine passes_goto rfl fun r p _ hupto hname => ?_
  obtain ⟨r', hrun, hparser, -, hupto'⟩ :=
    Action.Marks.run buf (a := .startValue) (Or.inl ⟨Or.inr rfl, rfl⟩) hupto
  exact ⟨r', hrun, hupto'.mono (Nat.le_succ p), by rw [hparser]; exact hname⟩

/-- The end of a value: the field is set. -/
theorem run_writeValue {r : HttpRequestParser} {p : Nat} {name v : Bytes}
    (hname : Field buf name r.parser p) (hupto : Upto relaxed d r p)
    (hv : makeString buf r.parser.mark (lenFrom r.parser.mark p) = .ok v) : ∃ r',
    runActions buf p r [.writeValue] = .ok r' ∧
      Upto relaxed { d with headers := d.headers.set name v } r' (p + 1) := by
  refine ⟨{ r with data.headers := d.headers.set name v }, ?_,
    { hupto.mono (Nat.le_succ p) with data := by simp only [hupto.data] }⟩
  rw [runActions, Action.run, onRequestHttpField, if_neg hname.1, hname.2, hv, hupto.data]
  rfl

/-- The value of a field, with the end of the line. -/
theorem passes_value (hmax : buf.length ≤ stringMaxSize) {name v : Bytes}
    (h : isFieldValue v = true) :
    Passes (http11Step rest buf) buf (At relaxed 15 d (Field buf name)) (v ++ crlf)
      (At relaxed 13 { d with headers := d.headers.set name v } AnyMarks) := by
  have hend : Passes (http11Step rest buf) buf
      (At relaxed 17 { d with headers := d.headers.set name v } AnyMarks) [10]
      (At relaxed 13 { d with headers := d.headers.set name v } AnyMarks) :=
    passes_reads rfl fun _ _ _ _ => trivial
  rw [isFieldValue, Bool.and_eq_true, bne_iff_ne] at h
  obtain ⟨hall, hhead⟩ := h
  cases v with
  | nil =>
      refine Passes.cons (passes_goto rfl fun r p _ hupto hname => ?_) hend
      obtain ⟨r₁, hrun₁, hparser, hmark, hupto₁⟩ :=
        Action.Marks.run buf (a := .startValue) (Or.inl ⟨Or.inr rfl, rfl⟩) hupto
      have hname₁ : Field buf name r₁.parser p := by
        rw [hparser]
        exact hname
      have hempty : makeString buf r₁.parser.mark (lenFrom r₁.parser.mark p) = .ok [] := by
        rw [hmark, lenFrom, if_pos (Nat.le_refl p), Nat.sub_self, makeString, if_neg (Nat.not_lt_zero _)]
        rfl
      obtain ⟨r', hrun, hupto'⟩ := run_writeValue hname₁ hupto₁ hempty
      refine ⟨r', ?_, hupto', trivial⟩
      cases hrun₁
      exact hrun
  | cons c w =>
      rw [List.all_cons, Bool.and_eq_true] at hall
      have hc : c ≠ 32 := fun heq => hhead (by rw [heq]; rfl)
      have hw : reads rest relaxed 16 w = some 16 :=
        reads_all (fun _ hc => next_value hc) hall.2
      refine (passes_mark (Or.inl ⟨Or.inr rfl, rfl⟩) (next_value_first hall.1 hc) hw
        (fun _ _ hname => hname) fun _ _ hname => hname).append (Passes.cons (passes_goto rfl ?_) hend)
      rintro r p - hupto ⟨hname, htoken⟩
      obtain ⟨r', hrun, hupto'⟩ := run_writeValue hname hupto (htoken.makeString hmax)
      exact ⟨r', hrun, hupto', trivial⟩

theorem passes_field (hmax : buf.length ≤ stringMaxSize) {name sep v : Bytes} (hne : name ≠ [])
    (hname : name.all isTokenChar = true) (hsep : sep = [] ∨ sep = [32])
    (hv : isFieldValue v = true) :
    Passes (http11Step rest buf) buf (At relaxed 13 d AnyMarks) (name ++ [58] ++ sep ++ v ++ crlf)
      (At relaxed 13 { d with headers := d.headers.set name v } AnyMarks) := by
  have hblank : Passes (http11Step rest buf) buf (At relaxed 15 d (Field buf name)) sep
      (At relaxed 15 d (Field buf name)) := by
    rcases hsep with rfl | rfl
    · exact Passes.nil fun _ _ h => h
    · exact passes_blank
  rw [List.append_assoc _ v]
  exact ((passes_name hmax hne hname).append hblank).append (passes_value hmax hv)

theorem passes_mapFields (hmax : buf.length ≤ stringMaxSize) {m : MapType}
    (hname : ∀ e ∈ m, e.1 ≠ [] ∧ e.1.all isTokenChar = true)
    (hconn : ∀ e ∈ m, caseFold e.1 ≠ caseFold (ascii "connection"))
    (hv : ∀ e ∈ m, isFieldValue e.2 = true) :
    Passes (http11Step rest buf) buf (At relaxed 13 d AnyMarks) (mapFields (ascii ":") m)
      (At relaxed 13 { d with headers := d.headers.setAll m } AnyMarks) := by
  induction m generalizing d with
  | nil => exact Passes.nil fun _ _ h => h
  | cons e m ih =>
      rw [mapFields, List.flatMap_cons, if_neg (hconn e List.mem_cons_self)]
      have hfirst : Passes (http11Step rest buf) buf (At relaxed 13 d AnyMarks)
          (e.1 ++ [58] ++ [] ++ e.2 ++ crlf)
          (At relaxed 13 { d with headers := d.headers.set e.1 e.2 } AnyMarks) := passes_field hmax
        (hname e List.mem_cons_self).1 (hname e List.mem_cons_self).2 (Or.inl rfl)
        (hv e List.mem_cons_self)
      have hothers := ih (d := { d with headers := d.headers.set e.1 e.2 })
        (fun f hf => hname f (List.mem_cons_of_mem _ hf))
        (fun f hf => hconn f (List.mem_cons_of_mem _ hf))
        fun f hf => hv f (List.mem_cons_of_mem _ hf)
      rw [List.append_nil] at hfirst
      exact hfirst.append hothers

end Fields

/-! ## The whole request -/

/-- The value of `connection`. -/
def connectionValue (close : Bool) : Bytes := ascii (if close then "close" else "keep-alive")

/-- The fields that `dump` writes. -/
def sentFields (r : HttpRequest) : MapType :=
  (ascii "connection", connectionValue r.close) ::
    (r.headers ++ if r.body = [] then [] else [(ascii "content-length", digits r.body.length)])

/-- What the parser makes of the header block. -/
def parsed (r : HttpRequest) : HttpRequest :=
  { HttpRequest.new with
    method := r.method
    version := r.version
    path := r.path
    query := r.query
    fragment := r.fragment
    headers := MapType.setAll [] (sentFields r) }

/-- A request that `dump` can write as one: a method, a path, a query and a fragment of the grammar,
where the path is one that no scheme stands before, and header fields of its own. -/
structure Serialisable (rest : Http11Rest) (relaxed : Bool) (r : HttpRequest) : Prop where
  version : r.version = 0x10 ∨ r.version = 0x11
  method : isMethodName (httpMethodToString r.method) = true
  path : IsPath rest relaxed r.path
  query : isWord (isQueryChar relaxed) r.query = true
  fragment : isWord (isQueryChar relaxed) r.fragment = true
  sorted : r.headers.Sorted
  token : ∀ e ∈ r.headers, e.1 ≠ [] ∧ e.1.all isTokenChar = true
  ownConnection : ∀ e ∈ r.headers, caseFold e.1 ≠ caseFold (ascii "connection")
  ownLength : ∀ e ∈ r.headers, caseFold e.1 ≠ caseFold (ascii "content-length")
  value : ∀ e ∈ r.headers, isFieldValue e.2 = true
  body_lt : r.body.length < 2 ^ 31

section Request

variable {rest : Http11Rest} {buf : Bytes} {relaxed : Bool} {r : HttpRequest}

theorem headers_parsed (r : HttpRequest) : (parsed r).headers =
    MapType.setAll (MapType.setAll (MapType.set [] (ascii "connection") (connectionValue r.close))
      r.headers) (if r.body = [] then [] else [(ascii "content-length", digits r.body.length)]) := by
  rw [parsed, sentFields, MapType.setAll_cons, MapType.setAll_append]

theorem isFieldValue_digits (n : Nat) : isFieldValue (digits n) = true := by
  have hclass : ∀ c, isDigit c = true → (32 ≤ c && c != 127) = true ∧ c ≠ 32 := fun c =>
    forall_byte (P := fun c => isDigit c = true → (32 ≤ c && c != 127) = true ∧ c ≠ 32)
      (by decide +kernel) c
  have hdigits := all_isDigit_digits n
  rw [List.all_eq_true] at hdigits
  rw [isFieldValue, Bool.and_eq_true, List.all_eq_true, bne_iff_ne]
  refine ⟨fun c hc => (hclass c (hdigits c hc)).1, fun hhead => ?_⟩
  exact (hclass 32 (hdigits 32 (List.mem_of_mem_head? hhead))).2 rfl

theorem passes_startLine (h : Serialisable rest relaxed r) (hmax : buf.length ≤ stringMaxSize) :
    Passes (http11Step rest buf) buf (At relaxed httpParserStart .new AnyMarks) r.startLine
      (At relaxed 13 { parsed r with headers := [] } AnyMarks) := by
  have hmethod := passes_method rest buf relaxed (d := .new) r.method h.method
  have htarget := passes_target (d := { HttpRequest.new with method := r.method }) hmax h.path h.query
    h.fragment
  have hline : r.startLine = httpMethodToString r.method ++ [32] ++ (r.target ++ [32]) ++
      (httpVersion r.version ++ crlf) := by
    simp only [HttpRequest.startLine, List.append_assoc]
    rfl
  rw [hline]
  exact (hmethod.append htarget).append (passes_version h.version)

theorem passes_headerBlock (h : Serialisable rest relaxed r) (hmax : buf.length ≤ stringMaxSize) :
    Passes (http11Step rest buf) buf (At relaxed 13 { parsed r with headers := [] } AnyMarks)
      r.headerBlock (At relaxed 13 (parsed r) AnyMarks) := by
  have hconnection {d : HttpRequest} : Passes (http11Step rest buf) buf (At relaxed 13 d AnyMarks)
      (connectionField r.close) (At relaxed 13 { d with
        headers := d.headers.set (ascii "connection") (connectionValue r.close) } AnyMarks) := by
    have hname : ascii "connection: " = ascii "connection" ++ [58] ++ [32] := by decide
    have hvalue : isFieldValue (connectionValue r.close) = true := by
      cases r.close <;> decide
    rw [connectionField, hname]
    exact passes_field hmax (by decide) (by decide) (Or.inr rfl) hvalue
  have hlength {d : HttpRequest} : Passes (http11Step rest buf) buf (At relaxed 13 d AnyMarks)
      (lengthField r.body) (At relaxed 13 { d with
        headers := d.headers.setAll
          (if r.body = [] then [] else [(ascii "content-length", digits r.body.length)]) }
        AnyMarks) := by
    have hname : ascii "content-length: " = ascii "content-length" ++ [58] ++ [32] := by decide
    rw [lengthField, hname]
    split
    · exact Passes.nil fun _ _ h => h
    · exact passes_field hmax (by decide) (by decide) (Or.inr rfl) (isFieldValue_digits _)
  have hfields := (hconnection (d := { parsed r with headers := [] })).append
    (passes_mapFields hmax h.token h.ownConnection h.value)
  have hall := hfields.append hlength
  simp only [← headers_parsed] at hall
  exact hall

variable (rest buf) in
/-- The machine is done behind the empty line. -/
theorem scan_emptyLine {d : HttpRequest} {s : Nat × HttpRequestParser} {p : Nat}
    (h : At relaxed 13 d AnyMarks s p) : ∃ t, scan (http11Step rest buf) s p crlf =
      .ok ⟨(httpParserFirstFinal, t), p + 2, .stopped⟩ ∧ Upto relaxed d t p ∧
        t.parser.bodyStart ≤ p + 2 := by
  obtain ⟨cs, r⟩ := s
  obtain ⟨rfl, hupto, -⟩ := h
  have hstart : http11Step rest buf (13, r) p 13 =
      .ok (.goto (18, { r with parser.fieldStart := p })) := rfl
  have hdone : http11Step rest buf (18, { r with parser.fieldStart := p }) (p + 1) 10 =
      .ok (.stop (348, HttpRequestParser.done { r with parser.fieldStart := p } (p + 1))) := rfl
  refine ⟨HttpRequestParser.done { r with parser.fieldStart := p } (p + 1), ?_, ?_, ?_⟩
  · rw [crlf, scan_cons_goto _ hstart, scan_cons_stop _ hdone]
    rfl
  · exact { hupto with fieldStart := Nat.le_refl p }
  · have hmark : r.parser.mark ≤ p := hupto.mark
    simp only [HttpRequestParser.done]
    split <;> omega

/-- A block that the machine goes through to the end is received. -/
theorem recvHeader_of_upto {env : Env} {junk : Junk} {block : Bytes} {d : HttpRequest}
    {t : HttpRequestParser} {p : Nat} (hlen : block.length ≤ env.bufferSize)
    (hscan : scan (http11Step env.rest block) (httpParserStart, .new junk) 0 block =
      .ok ⟨(httpParserFirstFinal, t), block.length, .stopped⟩)
    (hupto : Upto relaxed d t p) (hp : p < block.length)
    (hbody : t.parser.bodyStart ≤ block.length) : ∃ w,
    recvHeader env junk (.ofPieces [block]) = .ok (some w) ∧ w.data = [] ∧ w.parser.data = d := by
  obtain ⟨hdata, herror, hstart, hnread, -, hmark, hfield, hfieldLen⟩ := hupto
  have hbound := hlen.trans env.bufferSize_le
  have hready : Stream.ready (.ofPieces [block]) env.bufferSize = block.length := by
    simp only [Stream.ready, Stream.ofPieces, Http.ready, List.flatten_cons, List.flatten_nil,
      List.append_nil, List.map_cons, List.headD_cons]
    omega
  have htake : (Stream.ofPieces [block]).unread.take
      (Stream.ready (.ofPieces [block]) env.bufferSize) = block := by
    have hunread : (Stream.ofPieces [block]).unread = block := List.append_nil _
    rw [hready, hunread, List.take_length]
  have hcs : (afterScan ⟨(httpParserFirstFinal, t), block.length, .stopped⟩).parser.cs =
      httpParserFirstFinal := by
    simp only [afterScan, hstart]
    rfl
  have hnoError : (afterScan ⟨(httpParserFirstFinal, t), block.length, .stopped⟩).hasError =
      false := by
    have hzero : (afterScan ⟨(httpParserFirstFinal, t), block.length, .stopped⟩).error = 0 := herror
    rw [HttpRequestParser.hasError, hcs, hzero]
    rfl
  have hfin : (afterScan ⟨(httpParserFirstFinal, t), block.length, .stopped⟩).isFinished = true := by
    rw [HttpRequestParser.isFinished, hcs]
    rfl
  have hwithin : (afterScan ⟨(httpParserFirstFinal, t), block.length, .stopped⟩).parser.WithinBuffer
      block.length := by
    simp only [HttpParser.WithinBuffer, afterScan]
    omega
  obtain ⟨w, hrecv, hparser, hrest, -⟩ :=
    recvHeader_of_scan htake hscan (Nat.zero_lt_of_lt hp) hnoError hfin hwithin
  refine ⟨w, hrecv, ?_, ?_⟩
  · rw [hrest, List.drop_length]
  · rw [hparser]
    exact hdata

/-- The header block that `dump` writes is accepted. -/
theorem recvHeader_head {env : Env} {junk : Junk} (h : Serialisable env.rest junk.uriRelaxed r)
    (hlen : r.head.length ≤ env.bufferSize) : ∃ w,
    recvHeader env junk (.ofPieces [r.head]) = .ok (some w) ∧ w.data = [] ∧
      w.parser.data = parsed r := by
  have hmax : r.head.length ≤ stringMaxSize :=
    hlen.trans (env.bufferSize_le.trans (by decide))
  have hinit : At junk.uriRelaxed httpParserStart .new AnyMarks
      (httpParserStart, HttpRequestParser.new junk) 0 :=
    ⟨rfl, ⟨rfl, rfl, rfl, rfl, rfl, Nat.le_refl 0, Nat.le_refl 0, Nat.le_refl 0⟩, trivial⟩
  have hhead : r.head.drop 0 = r.startLine ++ r.headerBlock ++ crlf := List.drop_zero
  obtain ⟨s, hscan, hs⟩ := ((passes_startLine h hmax).append
    (passes_headerBlock h hmax)) _ 0 crlf hhead hinit
  obtain ⟨t, hend, hupto, hbody⟩ := scan_emptyLine env.rest r.head hs
  have hlength : r.head.length = 0 + (r.startLine ++ r.headerBlock).length + 2 := by
    rw [HttpRequest.head, List.length_append, Nat.zero_add]
    rfl
  rw [← hlength] at hend hbody
  have hwhole := hscan.trans hend
  rw [← HttpRequest.head] at hwhole
  exact recvHeader_of_upto hlen hwhole hupto (by omega) hbody

theorem lookup_connection (h : Serialisable rest relaxed r) :
    MapType.lookup (parsed r).headers (ascii "connection") = some (connectionValue r.close) := by
  have hne : caseFold (ascii "content-length") ≠ caseFold (ascii "connection") := by decide
  have hlength : ∀ e ∈ (if r.body = [] then [] else [(ascii "content-length", digits r.body.length)]),
      caseFold e.1 ≠ caseFold (ascii "connection") := by
    intro e he
    split at he
    · cases he
    · rw [List.mem_singleton.mp he]
      exact hne
  rw [headers_parsed, MapType.lookup_setAll_of_ne hlength,
    MapType.lookup_setAll_of_ne h.ownConnection, MapType.lookup_set_self _ _ rfl]

theorem lookup_contentLength (h : Serialisable rest relaxed r) :
    MapType.lookup (parsed r).headers (ascii "content-length") =
      if r.body = [] then none else some (digits r.body.length) := by
  have hne : caseFold (ascii "connection") ≠ caseFold (ascii "content-length") := by decide
  rw [headers_parsed]
  split
  · rw [MapType.setAll_nil, MapType.lookup_setAll_of_ne h.ownLength,
      MapType.lookup_set_of_ne _ _ hne]
    rfl
  · rw [MapType.setAll_cons, MapType.setAll_nil, MapType.lookup_set_self _ _ rfl]

end Request

/-- The request as it stands on the connection. -/
def sentMessage (r : HttpRequest) : Message where
  head := r.head
  data := parsed r
  body := r.body

theorem sentMessage_wellFormed {env : Env} {junk : Junk} {r : HttpRequest}
    (h : Serialisable env.rest junk.uriRelaxed r) (hlen : r.head.length ≤ env.bufferSize) :
    (sentMessage r).WellFormed env junk := by
  refine ⟨recvHeader_head h hlen, ?_, h.body_lt⟩
  have hlength := lookup_contentLength h
  by_cases hbody : r.body = []
  · rw [if_pos hbody] at hlength
    exact Or.inl ⟨hbody, hlength⟩
  · rw [if_neg hbody] at hlength
    exact Or.inr ⟨_, hlength, decimal_digits _⟩

/-- `connection` and `content-length`. -/
def isAdded (name : Bytes) : Bool :=
  caseFold name == caseFold (ascii "connection") || caseFold name == caseFold (ascii "content-length")

/-- The request that has been read is the one that was written. -/
structure Survives (r req : HttpRequest) : Prop where
  method : req.method = r.method
  version : req.version = r.version
  path : req.path = r.path
  query : req.query = r.query
  fragment : req.fragment = r.fragment
  close : req.close = r.close
  body : req.body = r.body
  headers : (req.headers.filter fun e => !isAdded e.1) = r.headers

theorem filter_parsed {rest : Http11Rest} {relaxed : Bool} {r : HttpRequest}
    (h : Serialisable rest relaxed r) :
    ((parsed r).headers.filter fun e => !isAdded e.1) = r.headers := by
  have hown : ∀ e ∈ r.headers, ∀ e' : Bytes × Bytes, caseFold e'.1 = caseFold e.1 →
      (!isAdded e'.1) = true := by
    intro e he e' heq
    rw [isAdded, heq, beq_eq_false_iff_ne.mpr (h.ownConnection e he),
      beq_eq_false_iff_ne.mpr (h.ownLength e he)]
    rfl
  have hconnection : ((MapType.set [] (ascii "connection") (connectionValue r.close)).filter
      fun e => !isAdded e.1) = [] := rfl
  have hfields : ((MapType.setAll (MapType.set [] (ascii "connection") (connectionValue r.close))
      r.headers).filter fun e => !isAdded e.1) = r.headers := by
    have hsorted : MapType.Sorted (MapType.set [] (ascii "connection") (connectionValue r.close)) :=
      List.pairwise_singleton _ _
    rw [MapType.filter_setAll hsorted hown, hconnection]
    exact MapType.setAll_of_sorted (m := []) h.sorted
  rw [headers_parsed]
  split
  · exact hfields
  · rw [MapType.setAll_cons, MapType.setAll_nil, MapType.filter_set_of_neg, hfields]
    intro e heq
    rw [isAdded, heq]
    rfl

theorem survives_request {rest : Http11Rest} {relaxed : Bool} {r : HttpRequest}
    (h : Serialisable rest relaxed r) : Survives r (sentMessage r).request := by
  have hget : HttpRequest.getHeader { parsed r with body := r.body } (ascii "connection") =
      connectionValue r.close := by
    rw [HttpRequest.getHeader, lookup_connection h]
    rfl
  have hne : connectionValue r.close ≠ [] := by
    cases r.close <;> decide
  have hclose : (caseFold (connectionValue r.close) != caseFold (ascii "keep-alive")) =
      r.close := by
    cases r.close <;> decide
  have hrequest : (sentMessage r).request = { parsed r with body := r.body, close := r.close } := by
    rw [Message.request, sentMessage, HttpRequest.init, hget, if_neg hne, hclose]
  rw [hrequest]
  exact ⟨rfl, rfl, rfl, rfl, rfl, rfl, rfl, filter_parsed h⟩

/-- A request is received as it was sent, if its header block arrives in one read. -/
theorem recvRequest_dump (env : Env) (junk : Junk) (r : HttpRequest) (s : Stream)
    (h : Serialisable env.rest junk.uriRelaxed r) (hs : s.unread = r.dump)
    (hone : r.head.length ≤ s.ready env.bufferSize) :
    ∃ req t n, recvRequest env junk s = .ok ⟨some (req, t), n⟩ ∧ t.unread = [] ∧
      Survives r req := by
  have hready : s.ready env.bufferSize ≤ s.unread.length := ready_le_left ..
  have hm := sentMessage_wellFormed h (hone.trans (ready_le ..))
  have hbytes : s.unread = (sentMessage r).bytes ++ [] := by
    rw [List.append_nil]
    exact hs
  obtain ⟨t, n, hrecv, ht⟩ := recvRequest_message hm hbytes hone
  refine ⟨_, t, n, hrecv, ?_, survives_request h⟩
  rw [ht, hbytes, List.append_nil, List.drop_eq_nil_iff]
  exact Nat.le_max_right ..

section Hello

/-- A buffer of 4096 bytes. -/
def helloEnv : Env := .plain 4096 plainSize_le

/-- A request with a field and a body. -/
def helloRequest : HttpRequest :=
  { HttpRequest.new with
    headers := [(ascii "host", ascii "www.saturn.top")]
    body := ascii "hello saturn" }

/-- The path could begin with a scheme. -/
def colonRequest : HttpRequest := { helloRequest with path := ascii "a:b" }

theorem helloRequest_serialisable (rest : Http11Rest) (relaxed : Bool) :
    Serialisable rest relaxed helloRequest where
  version := Or.inr rfl
  method := by decide
  path := isPath_of_absolute ⟨[], rfl, rfl, by decide⟩
  query := rfl
  fragment := rfl
  sorted := List.pairwise_singleton _ _
  token := by decide
  ownConnection := by decide
  ownLength := by decide
  value := by decide
  body_lt := by decide

theorem recvRequest_hello :
    ∃ req t n, recvRequest helloEnv ⟨0, false⟩ (.ofPieces [helloRequest.dump]) =
      .ok ⟨some (req, t), n⟩ ∧ t.unread = [] ∧ Survives helloRequest req :=
  recvRequest_dump helloEnv ⟨0, false⟩ helloRequest (.ofPieces [helloRequest.dump])
    (helloRequest_serialisable _ _) (List.append_nil _) (by decide)

/-- A path with a colon in its first segment is read as a scheme and a shorter path. -/
theorem recvRequest_colon :
    IsPathRootless false colonRequest.path ∧
    ∃ req t n, recvRequest helloEnv ⟨0, false⟩ (.ofPieces [colonRequest.dump]) =
      .ok ⟨some (req, t), n⟩ ∧ req.path = ascii "b" ∧ ¬ Survives colonRequest req := by
  refine ⟨⟨by decide, by decide, by decide⟩, { colonRequest with
    path := ascii "b"
    headers := [(ascii "connection", ascii "close"), (ascii "content-length", ascii "12"),
      (ascii "host", ascii "www.saturn.top")] }, ⟨[], []⟩, 12, by decide, rfl, fun h => ?_⟩
  exact absurd h.path (by decide)

end Hello

end Http

end Saturn
