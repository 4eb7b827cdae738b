import Saturn.Http.Message
import Saturn.Misc.Scan

/-!
# The request parser

`http_parser_execute` of the vendored `http11_parser.cc`, with the callbacks that
`HttpRequestParser` installs. The rows of the state machine for the request line with a path, the
header fields and the end of the block are written out. The states of an authority (`//host`) and
of the `<` and `@` requests are a parameter.
-/

namespace Saturn

namespace Http

/-- The actions of `http11_parser.rl`, but `done`. -/
inductive Action
  | mark | startField | writeField | startValue | writeValue
  | requestMethod | requestUri | fragment | startQuery | queryString | httpVersion | requestPath
  | xml | json
  deriving Repr, DecidableEq

/-- Where a byte leads: nowhere, to a state, or to a final state behind the action `done`. -/
inductive Transition
  | fail
  | goto (actions : List Action) (cs : Nat)
  | done (actions : List Action) (cs : Nat)
  deriving Repr, DecidableEq

/-- The characters that a transition is for. -/
inductive CharClass
  | byte (c : UInt8)
  | digit | upper | alpha | xdigit
  /-- `"0" | "1"` -/
  | minor
  /-- The rest of a scheme. -/
  | scheme
  /-- `unreserved | sub_delims` -/
  | segment
  /-- `segment | ":" | "@"` -/
  | pchar
  /-- What the machine takes for a `token`: control characters belong to it. -/
  | fieldName
  | content
  deriving Repr, DecidableEq

/-- `upper` -/
def isUpper (c : UInt8) : Bool := 65 ≤ c && c ≤ 90

/-- `alpha` -/
def isAlpha (c : UInt8) : Bool := isUpper c || (97 ≤ c && c ≤ 122)

/-- `xdigit` -/
def isXdigit (c : UInt8) : Bool := isDigit c || (65 ≤ c && c ≤ 70) || (97 ≤ c && c ≤ 102)

/-- `unreserved | sub_delims`, with `more_delims` when the parser is relaxed. -/
def isSegment (relaxed : Bool) (c : UInt8) : Bool :=
  isAlpha c || isDigit c || c == 33 || c == 36 || (38 ≤ c && c ≤ 46) || c == 59 || c == 61 ||
    c == 95 || c == 126 || (relaxed && (c == 94 || c == 123 || c == 125))

/-- The characters of a header name, as the tables have them. -/
def isFieldName (c : UInt8) : Bool :=
  isAlpha c || isDigit c || (1 ≤ c && c ≤ 8) || (10 ≤ c && c ≤ 31) || c == 33 ||
    (35 ≤ c && c ≤ 39) || c == 42 || c == 43 || c == 45 || c == 46 || (94 ≤ c && c ≤ 96) ||
    c == 124 || c == 126

/-- The character is one of the class. -/
def CharClass.has (relaxed : Bool) : CharClass → UInt8 → Bool
  | .byte b, c => c == b
  | .digit, c => isDigit c
  | .upper, c => isUpper c
  | .alpha, c => isAlpha c
  | .xdigit, c => isXdigit c
  | .minor, c => c == 48 || c == 49
  | .scheme, c => isAlpha c || isDigit c || c == 43 || c == 45 || c == 46
  | .segment, c => isSegment relaxed c
  | .pchar, c => isSegment relaxed c || c == 58 || c == 64
  | .fieldName, c => isFieldName c
  | .content, c => c != 0 && c != 127

/-- What a state does with the next byte: the first class that has it decides. -/
abbrev Row := List (CharClass × Transition)

/-- One more character of a method, which the space ends. -/
def methodRow (cs : Nat) : Row :=
  [(.byte 32, .goto [.requestMethod] 3), (.digit, .goto [] cs), (.upper, .goto [] cs)]

/-- The space, the `#` and the `?` end a path. -/
def pathRow (actions : List Action) (row : Row) : Row :=
  (.byte 32, .goto (actions ++ [.requestPath, .requestUri]) 4) ::
  (.byte 35, .goto (actions ++ [.requestPath, .requestUri]) 20) ::
  (.byte 63, .goto (actions ++ [.requestPath]) 29) :: row

/-- `( pchar | "/" | "?" )*`, for a query or a fragment. -/
def pcharRow (actions : List Action) (cs pct : Nat) : Row :=
  [(.byte 37, .goto actions pct), (.byte 47, .goto actions cs), (.byte 63, .goto actions cs),
   (.pchar, .goto actions cs)]

/-- The space and the `#` end a query. -/
def queryRow (actions : List Action) : Row :=
  (.byte 32, .goto (actions ++ [.queryString, .requestUri]) 4) ::
  (.byte 35, .goto (actions ++ [.queryString, .requestUri]) 20) :: pcharRow actions 30 31

/-- The rows of some states. -/
abbrev Rows := List (Nat × Row)

/-- The states of a method. -/
def methodRows : Rows :=
  [(1, [(.byte 60, .goto [.mark] 194), (.byte 64, .goto [.mark] 198), (.digit, .goto [.mark] 2),
        (.upper, .goto [.mark] 2)]),
   (2, methodRow 175),
   (193, [(.byte 32, .goto [.requestMethod] 3)])]

/-- From the second to the nineteenth character of a method. -/
def methodTailRows : Rows := (List.range 18).map fun i => (175 + i, methodRow (176 + i))

/-- The states of a path. -/
def pathRows : Rows :=
  [(3, pathRow [.mark] [(.byte 37, .goto [.mark] 24), (.byte 47, .goto [.mark] 33),
        (.byte 64, .goto [.mark] 19), (.alpha, .goto [.mark] 173), (.segment, .goto [.mark] 19)]),
   (19, pathRow [] [(.byte 37, .goto [] 24), (.byte 47, .goto [] 26), (.byte 64, .goto [] 19),
        (.segment, .goto [] 19)]),
   (24, [(.xdigit, .goto [] 25)]),
   (25, [(.xdigit, .goto [] 19)]),
   (26, pathRow [] [(.byte 37, .goto [] 27), (.byte 47, .goto [] 26), (.pchar, .goto [] 26)]),
   (27, [(.xdigit, .goto [] 28)]),
   (28, [(.xdigit, .goto [] 26)]),
   (33, pathRow [] [(.byte 37, .goto [] 27), (.byte 47, .goto [] 34), (.pchar, .goto [] 26)]),
   (173, pathRow [] [(.byte 37, .goto [] 24), (.byte 47, .goto [] 26), (.byte 58, .goto [] 174),
        (.byte 64, .goto [] 19), (.scheme, .goto [] 173), (.segment, .goto [] 19)]),
   (174, pathRow [.mark] [(.byte 37, .goto [.mark] 27), (.byte 47, .goto [.mark] 33),
        (.pchar, .goto [.mark] 26)])]

/-- The states of a query. -/
def queryRows : Rows :=
  [(29, queryRow [.startQuery]),
   (30, queryRow []),
   (31, [(.xdigit, .goto [] 32)]),
   (32, [(.xdigit, .goto [] 30)])]

/-- The states of a fragment. -/
def fragmentRows : Rows :=
  [(20, (.byte 32, .goto [.mark, .fragment] 4) :: pcharRow [.mark] 21 22),
   (21, (.byte 32, .goto [.fragment] 4) :: pcharRow [] 21 22),
   (22, [(.xdigit, .goto [] 23)]),
   (23, [(.xdigit, .goto [] 21)])]

/-- The states of the version. -/
def versionRows : Rows :=
  [(4, [(.byte 72, .goto [.mark] 5)]),
   (5, [(.byte 84, .goto [] 6)]),
   (6, [(.byte 84, .goto [] 7)]),
   (7, [(.byte 80, .goto [] 8)]),
   (8, [(.byte 47, .goto [] 9)]),
   (9, [(.byte 49, .goto [] 10)]),
   (10, [(.byte 46, .goto [] 11)]),
   (11, [(.minor, .goto [] 12)]),
   (12, [(.byte 10, .goto [.httpVersion] 13), (.byte 13, .goto [.httpVersion] 17)])]

/-- The header fields and the empty line that ends the block. -/
def fieldRows : Rows :=
  [(13, [(.byte 10, .done [.startField] 348), (.byte 13, .goto [.startField] 18),
        (.fieldName, .goto [.startField] 14)]),
   (14, [(.fieldName, .goto [] 14), (.byte 58, .goto [.writeField] 15)]),
   (15, [(.byte 9, .goto [.startValue] 15), (.byte 32, .goto [.startValue] 15),
        (.byte 10, .goto [.startValue, .writeValue] 13),
        (.byte 13, .goto [.startValue, .writeValue] 17), (.content, .goto [.startValue] 16)]),
   (16, [(.byte 10, .goto [.writeValue] 13), (.byte 13, .goto [.writeValue] 17),
        (.content, .goto [] 16)]),
   (17, [(.byte 10, .goto [] 13)]),
   (18, [(.byte 10, .done [] 348), (.fieldName, .goto [] 14), (.byte 58, .goto [.writeField] 15)]),
   (348, [(.fieldName, .goto [] 14), (.byte 58, .goto [.writeField] 15)])]

/-- The rows of `http_parser_execute`, by state. -/
def http11Table : Rows :=
  methodRows ++ methodTailRows ++ pathRows ++ queryRows ++ fragmentRows ++ versionRows ++ fieldRows

/-- `http_parser_start` -/
def httpParserStart : Nat := 1

/-- `http_parser_first_final` -/
def httpParserFirstFinal : Nat := 348

/-- `http_parser_error` -/
def httpParserError : Nat := 0

/-- The states that `http11Table` leaves out, with what is relied on: a state that is not final
follows unless `done` is carried out, and of the actions only those of paths and sockets occur. -/
structure Http11Rest where
  next : Bool → Nat → UInt8 → Transition
  goto_lt : ∀ {relaxed cs c actions target}, next relaxed cs c = .goto actions target →
    target < httpParserFirstFinal
  actions : ∀ {relaxed cs c actions target}, next relaxed cs c = .goto actions target ∨
    next relaxed cs c = .done actions target →
    ∀ a ∈ actions, a ∈ [Action.mark, .requestPath, .requestUri, .xml, .json]

/-- Refuses every request that needs a state left out. -/
def Http11Rest.refuse : Http11Rest where
  next _ _ _ := .fail
  goto_lt := nofun
  actions h := by rcases h with h | h <;> cases h

/-- The transition of a state on a character. -/
def http11Next (rest : Http11Rest) (relaxed : Bool) (cs : Nat) (c : UInt8) : Transition :=
  match http11Table.lookup cs with
  | some row => ((row.find? fun e => e.1.has relaxed c).map Prod.snd).getD .fail
  | none => rest.next relaxed cs c

/-- `http_parser`. -/
structure HttpParser where
  cs : Nat
  bodyStart : Nat
  nread : Nat
  mark : Nat
  fieldStart : Nat
  fieldLen : Nat
  queryStart : Nat
  xmlSent : Bool
  jsonSent : Bool
  uriRelaxed : Bool
  deriving Repr, DecidableEq

/-- The fields of a new `http_parser` that nothing initialises. -/
structure Junk where
  queryStart : UInt64
  uriRelaxed : Bool
  deriving Repr, DecidableEq

/-- `http_parser_init`. -/
def HttpParser.init (junk : Junk) : HttpParser where
  cs := httpParserStart
  bodyStart := 0
  nread := 0
  mark := 0
  fieldStart := 0
  fieldLen := 0
  queryStart := junk.queryStart.toNat
  xmlSent := false
  jsonSent := false
  uriRelaxed := junk.uriRelaxed

/-- `HttpRequestParser`; `error` is 1000, 1001 or 1002 behind an invalid method, version or
field. -/
structure HttpRequestParser where
  parser : HttpParser
  data : HttpRequest
  error : Nat
  deriving Repr, DecidableEq

/-- `HttpRequestParser::HttpRequestParser` -/
def HttpRequestParser.new (junk : Junk) : HttpRequestParser where
  parser := .init junk
  data := .new
  error := 0

/-- `LEN(AT, FPC)`, a difference of two positions as `size_t`. -/
def lenFrom (start p : Nat) : Nat := if start ≤ p then p - start else p + 2 ^ 64 - start

section Callbacks

variable (r : HttpRequestParser) (buffer : Bytes) (pos length : Nat)

/-- `on_request_method` -/
def onRequestMethod : Except Fault HttpRequestParser :=
  let m := charsToHttpMethod (buffer.drop pos)
  if m = .invalidMethod then
    (makeString buffer pos length).map fun _ => { r with error := 1000 }
  else .ok { r with data.method := m }

/-- `on_request_fragment` -/
def onRequestFragment : Except Fault HttpRequestParser :=
  (makeString buffer pos length).map fun s => { r with data.fragment := s }

/-- `on_request_path` -/
def onRequestPath : Except Fault HttpRequestParser :=
  (makeString buffer pos length).map fun s => { r with data.path := s }

/-- `on_request_query` -/
def onRequestQuery : Except Fault HttpRequestParser :=
  (makeString buffer pos length).map fun s => { r with data.query := s }

/-- `on_request_version` -/
def onRequestVersion : Except Fault HttpRequestParser :=
  if strncmpEq (buffer.drop pos) (ascii "HTTP/1.1") length then .ok { r with data.version := 0x11 }
  else if strncmpEq (buffer.drop pos) (ascii "HTTP/1.0") length then
    .ok { r with data.version := 0x10 }
  else (makeString buffer pos length).map fun _ => { r with error := 1001 }

/-- `on_request_http_field` -/
def onRequestHttpField (field flen value vlen : Nat) : Except Fault HttpRequestParser :=
  if flen = 0 then .ok { r with error := 1002 }
  else (makeString buffer field flen).bind fun name =>
    (makeString buffer value vlen).map fun val =>
      { r with data.headers := r.data.headers.set name val }

end Callbacks

/-- What an action does when the machine is at position `p` of the buffer. -/
def Action.run (buffer : Bytes) (p : Nat) (r : HttpRequestParser) :
    Action → Except Fault HttpRequestParser
  | .mark | .startValue => .ok { r with parser.mark := p }
  | .startField => .ok { r with parser.fieldStart := p }
  | .writeField => .ok { r with parser.fieldLen := lenFrom r.parser.fieldStart p }
  | .writeValue => onRequestHttpField r buffer r.parser.fieldStart r.parser.fieldLen r.parser.mark
      (lenFrom r.parser.mark p)
  | .requestMethod => onRequestMethod r buffer r.parser.mark (lenFrom r.parser.mark p)
  | .requestUri => .ok r
  | .fragment => onRequestFragment r buffer r.parser.mark (lenFrom r.parser.mark p)
  | .startQuery => .ok { r with parser.queryStart := p }
  | .queryString => onRequestQuery r buffer r.parser.queryStart (lenFrom r.parser.queryStart p)
  | .httpVersion => onRequestVersion r buffer r.parser.mark (lenFrom r.parser.mark p)
  | .requestPath => onRequestPath r buffer r.parser.mark (lenFrom r.parser.mark p)
  | .xml => .ok { r with parser.xmlSent := true }
  | .json => .ok { r with parser.jsonSent := true }

/-- The actions of one transition, in their order. -/
def runActions (buffer : Bytes) (p : Nat) :
    HttpRequestParser → List Action → Except Fault HttpRequestParser
  | r, [] => .ok r
  | r, a :: as => (a.run buffer p r).bind fun r => runActions buffer p r as

/-- The action `done`, without its jump behind the byte. -/
def HttpRequestParser.done (r : HttpRequestParser) (p : Nat) : HttpRequestParser :=
  { r with parser.bodyStart :=
      if r.parser.xmlSent || r.parser.jsonSent then r.parser.mark else p + 1 }

/-- The machine with its state `cs`, which `http_parser_execute` keeps in a local variable. -/
def http11Step (rest : Http11Rest) (buffer : Bytes) (s : Nat × HttpRequestParser) (p : Nat)
    (c : UInt8) : Except Fault (Move (Nat × HttpRequestParser)) :=
  match http11Next rest s.2.parser.uriRelaxed s.1 c with
  | .fail => .ok .fail
  | .goto actions cs => (runActions buffer p s.2 actions).map fun r => .goto (cs, r)
  | .done actions cs => (runActions buffer p s.2 actions).map fun r => .stop (cs, r.done p)

/-- The assertions at the end of `http_parser_execute`. -/
def HttpParser.WithinBuffer (parser : HttpParser) (len : Nat) : Prop :=
  parser.nread ≤ len ∧ parser.bodyStart ≤ len ∧ parser.mark < len ∧ parser.fieldLen ≤ len ∧
    parser.fieldStart < len

instance (parser : HttpParser) (len : Nat) : Decidable (parser.WithinBuffer len) :=
  inferInstanceAs (Decidable (_ ∧ _))

/-- The control state after the machine has ended. -/
def endState (e : Scanned (Nat × HttpRequestParser)) : Nat :=
  if e.halt = .failed then httpParserError else e.state.1

/-- What `http_parser_execute` leaves in the parser. -/
def afterScan (e : Scanned (Nat × HttpRequestParser)) : HttpRequestParser :=
  { e.state.2 with
    parser.cs := if e.state.2.parser.cs = httpParserError then httpParserError else endState e
    parser.nread := e.state.2.parser.nread + e.pos }

/-- `http_parser_execute` on the bytes in the buffer. It returns `nread`, which it does not
reset. -/
def httpParserExecute (rest : Http11Rest) (r : HttpRequestParser) (buffer : Bytes) :
    Except Fault (HttpRequestParser × Nat) :=
  if buffer = [] then .ok (r, 0)
  else (scan (http11Step rest buffer) (r.parser.cs, r) 0 buffer).bind fun e =>
    if (afterScan e).parser.WithinBuffer buffer.length then
      .ok (afterScan e, (afterScan e).parser.nread)
    else .error .assertion

/-- `HttpRequestParser::execute`: the bytes that `memmove` keeps come with the count. -/
def HttpRequestParser.execute (rest : Http11Rest) (r : HttpRequestParser) (data : Bytes) :
    Except Fault (HttpRequestParser × Nat × Bytes) :=
  (httpParserExecute rest r data).map fun e => (e.1, e.2, data.drop e.2)

/-- `HttpRequestParser::hasError` -/
def HttpRequestParser.hasError (r : HttpRequestParser) : Bool :=
  r.error != 0 || r.parser.cs == httpParserError

/-- `isFinished() != 0`, asked where `hasError()` is false. -/
def HttpRequestParser.isFinished (r : HttpRequestParser) : Bool :=
  httpParserFirstFinal ≤ r.parser.cs

/-- `HttpRequestParser::getContentLength`. -/
def HttpRequestParser.getContentLength (lexicalCast : LexicalCast) (r : HttpRequestParser) :
    UInt64 :=
  getAs lexicalCast r.data.headers (ascii "content-length") 0

end Http

end Saturn
