import Saturn.Http.Connection
import Saturn.Http.Http11

/-!
# The response parser

`httpclient_parser_execute` of the vendored `httpclient_parser.cc`, with the callbacks that
`HttpResponseParser` installs. All rows of the state machine are written out; its start state takes
a status line as well as the header of a chunk.
-/

namespace Saturn

namespace Http

namespace Client

/-- The actions of `httpclient_parser.rl`, but `done`. -/
inductive Action
  | mark | startField | writeField | startValue | writeContentLen | writeConnectionClose | writeValue
  | reasonPhrase | statusCode | httpVersion | chunkSize | transChunked
  deriving Repr, DecidableEq

/-- Where a byte leads: to a state, or to a final state behind the action `done`. -/
inductive Transition
  | goto (actions : List Action) (cs : Nat)
  | done (actions : List Action) (cs : Nat)
  deriving Repr, DecidableEq

/-- The characters that a transition is for. -/
inductive CharClass
  | byte (c : UInt8)
  /-- A letter, given in lower case, in either case; or another character. -/
  | letter (c : Char)
  | digit | xdigit
  /-- `isspace` -/
  | space
  | token
  /-- Any byte but the end of a line. -/
  | content
  | any
  deriving Repr, DecidableEq

/-- `ascii -- (CTL | tspecials)` -/
def isToken (c : UInt8) : Bool :=
  isAlpha c || isDigit c || c == 33 || (35 ≤ c && c ≤ 39) || c == 42 || c == 43 || c == 45 ||
    c == 46 || (94 ≤ c && c ≤ 96) || c == 124 || c == 126

/-- `isspace` -/
def isSpace (c : UInt8) : Bool := c == 32 || (9 ≤ c && c ≤ 13)

/-- The character is one of the class. -/
def CharClass.has : CharClass → UInt8 → Bool
  | .byte b, c => c == b
  | .letter l, c => c.toNat == l.toNat || l.isAlpha && c.toNat + 32 == l.toNat
  | .digit, c => isDigit c
  | .xdigit, c => isXdigit c
  | .space, c => isSpace c
  | .token, c => isToken c
  | .content, c => c != 10
  | .any, _ => true

/-- What a state does with the next byte: the first class that has it decides. -/
abbrev Row := List (CharClass × Transition)

/-- The rows of some states. -/
abbrev Rows := List (Nat × Row)

/-- The end of a line, and what else there is in a state. -/
def lineRow (lf cr : Transition) (row : Row) : Row := (.byte 10, lf) :: (.byte 13, cr) :: row

/-- What ends the size of a chunk or one of its extensions. -/
def extensionRow (actions : List Action) (row : Row) : Row :=
  lineRow (.done actions 120) (.goto actions 3) ((.byte 59, .goto actions 4) :: row)

/-- `Chunked_Header`, with the first byte of `Response`. -/
def chunkRows : Rows :=
  [(1, [(.byte 72, .goto [.mark] 8), (.xdigit, .goto [.mark] 2)]),
   (2, extensionRow [.chunkSize] [(.xdigit, .goto [] 2)]),
   (3, [(.byte 10, .done [] 120)]),
   (4, [(.token, .goto [.startField] 5)]),
   (5, extensionRow [.writeField, .startValue, .writeValue]
        [(.byte 61, .goto [.writeField, .startValue] 6), (.token, .goto [] 5)]),
   (6, [(.token, .goto [.startValue] 7)]),
   (7, extensionRow [.writeValue] [(.token, .goto [] 7)])]

/-- `Status_Line` -/
def statusRows : Rows :=
  [(8, [(.byte 84, .goto [] 9)]),
   (9, [(.byte 84, .goto [] 10)]),
   (10, [(.byte 80, .goto [] 11)]),
   (11, [(.byte 47, .goto [] 12)]),
   (12, [(.digit, .goto [] 13)]),
   (13, [(.byte 46, .goto [] 14), (.digit, .goto [] 13)]),
   (14, [(.digit, .goto [] 15)]),
   (15, [(.byte 32, .goto [.httpVersion] 16), (.digit, .goto [] 15)]),
   (16, [(.digit, .goto [.mark] 17)]),
   (17, [(.byte 32, .goto [.statusCode] 18), (.digit, .goto [] 17)]),
   (18, [(.content, .goto [.mark] 19)]),
   (19, lineRow (.goto [.reasonPhrase] 20) (.goto [.reasonPhrase] 24) [(.any, .goto [] 19)])]

/-- The first byte of a field. -/
def fieldRow (actions : List Action) (row : Row) : Row :=
  row ++ [(.letter 'c', .goto (actions ++ [.startField]) 25),
    (.letter 't', .goto (actions ++ [.startField]) 44), (.token, .goto (actions ++ [.startField]) 21)]

/-- A byte of the name of a field, with the letters that go on with a name of the grammar. -/
def nameRow (letters : List (Char × Nat)) : Row :=
  letters.map (fun e => (.letter e.1, .goto [] e.2)) ++
    [(.byte 58, .goto [.writeField] 22), (.token, .goto [] 21)]

/-- The first byte of a value. -/
def valueRow (space lf cr : Nat) (row : Row) : Row :=
  lineRow (.goto [.startValue, .writeValue] lf) (.goto [.startValue, .writeValue] cr)
    (row ++ [(.space, .goto [.startValue] space), (.any, .goto [.startValue] 23)])

/-- A byte of a value, with the rows for `chunked`, `close` and the digits of a length. -/
def contentRow (row : Row) : Row :=
  row ++ lineRow (.goto [.writeValue] 20) (.goto [.writeValue] 24) [(.any, .goto [] 23)]

/-- Where the machine looks for a value behind an empty line. -/
def foldRow (space : Nat) (value : CharClass × Transition) (row : Row) : Row :=
  row ++ [(.space, .goto [] space), value]

/-- `fields`, and the empty line that ends the block. -/
def fieldRows : Rows :=
  [(20, fieldRow [] (lineRow (.done [] 120) (.goto [] 3) [])),
   (21, nameRow []),
   (22, valueRow 22 20 24 []),
   (23, contentRow []),
   (24, [(.byte 10, .goto [] 20)])]

/-- `conn_close`: the name of the field, its value, and the value behind an empty line. -/
def connectionRows : Rows :=
  [(25, nameRow [('o', 26)]), (26, nameRow [('n', 27)]), (27, nameRow [('n', 28), ('t', 101)]),
   (28, nameRow [('e', 29)]), (29, nameRow [('c', 30)]), (30, nameRow [('t', 31)]),
   (31, nameRow [('i', 32)]), (32, nameRow [('o', 33)]), (33, nameRow [('n', 34)]),
   (34, (.byte 58, .goto [.writeField] 35) :: nameRow []),
   (35, valueRow 35 36 95 [(.letter 'c', .goto [.startValue] 96)]),
   (36, lineRow (.done [] 122) (.goto [] 89)
        ((.space, .goto [] 37) :: fieldRow [] [(.letter 'c', .goto [.startField] 90)])),
   (37, foldRow 37 (.letter 'c', .goto [] 38) []),
   (38, [(.letter 'l', .goto [] 39)]), (39, [(.letter 'o', .goto [] 40)]),
   (40, [(.letter 's', .goto [] 41)]), (41, [(.letter 'e', .goto [] 42)]),
   (42, lineRow (.goto [] 43) (.goto [] 88) []),
   (43, fieldRow [.writeConnectionClose]
        (lineRow (.done [.writeConnectionClose] 120) (.goto [.writeConnectionClose] 3) [])),
   (88, [(.byte 10, .goto [] 43)]),
   (89, foldRow 37 (.letter 'c', .goto [] 38) [(.byte 10, .done [] 122)]),
   (90, nameRow [('l', 91), ('o', 26)]), (91, nameRow [('o', 92)]), (92, nameRow [('s', 93)]),
   (93, nameRow [('e', 94)]),
   (94, lineRow (.goto [] 43) (.goto [] 88) (nameRow [])),
   (95, foldRow 37 (.letter 'c', .goto [] 38) [(.byte 10, .goto [] 36)]),
   (96, contentRow [(.letter 'l', .goto [] 97)]), (97, contentRow [(.letter 'o', .goto [] 98)]),
   (98, contentRow [(.letter 's', .goto [] 99)]), (99, contentRow [(.letter 'e', .goto [] 100)]),
   (100, contentRow (lineRow (.goto [.writeValue] 43) (.goto [.writeValue] 88) [])),
   (122, foldRow 37 (.letter 'c', .goto [] 38) [])]

/-- `transfer_encoding_chunked` -/
def transferEncodingRows : Rows :=
  [(44, nameRow [('r', 45)]), (45, nameRow [('a', 46)]), (46, nameRow [('n', 47)]),
   (47, nameRow [('s', 48)]), (48, nameRow [('f', 49)]), (49, nameRow [('e', 50)]),
   (50, nameRow [('r', 51)]), (51, nameRow [('-', 52)]), (52, nameRow [('e', 53)]),
   (53, nameRow [('n', 54)]), (54, nameRow [('c', 55)]), (55, nameRow [('o', 56)]),
   (56, nameRow [('d', 57)]), (57, nameRow [('i', 58)]), (58, nameRow [('n', 59)]),
   (59, nameRow [('g', 60)]),
   (60, (.byte 58, .goto [.writeField] 61) :: nameRow []),
   (61, valueRow 61 62 80 [(.letter 'c', .goto [.startValue] 81)]),
   (62, lineRow (.done [] 121) (.goto [] 72)
        ((.space, .goto [] 63) :: fieldRow [] [(.letter 'c', .goto [.startValue, .startField] 73)])),
   (63, foldRow 63 (.letter 'c', .goto [.startValue] 64) []),
   (64, [(.letter 'h', .goto [] 65)]), (65, [(.letter 'u', .goto [] 66)]),
   (66, [(.letter 'n', .goto [] 67)]), (67, [(.letter 'k', .goto [] 68)]),
   (68, [(.letter 'e', .goto [] 69)]), (69, [(.letter 'd', .goto [] 70)]),
   (70, lineRow (.goto [.writeValue, .transChunked] 20) (.goto [.writeValue] 71) []),
   (71, [(.byte 10, .goto [.transChunked] 20)]),
   (72, foldRow 63 (.letter 'c', .goto [.startValue] 64) [(.byte 10, .done [] 121)]),
   (73, nameRow [('h', 74), ('o', 26)]), (74, nameRow [('u', 75)]), (75, nameRow [('n', 76)]),
   (76, nameRow [('k', 77)]), (77, nameRow [('e', 78)]), (78, nameRow [('d', 79)]),
   (79, lineRow (.goto [.writeValue, .transChunked] 20) (.goto [.writeValue] 71) (nameRow [])),
   (80, foldRow 63 (.letter 'c', .goto [.startValue] 64) [(.byte 10, .goto [] 62)]),
   (81, contentRow [(.letter 'h', .goto [] 82)]), (82, contentRow [(.letter 'u', .goto [] 83)]),
   (83, contentRow [(.letter 'n', .goto [] 84)]), (84, contentRow [(.letter 'k', .goto [] 85)]),
   (85, contentRow [(.letter 'e', .goto [] 86)]), (86, contentRow [(.letter 'd', .goto [] 87)]),
   (87, contentRow (lineRow (.goto [.writeValue, .transChunked] 20) (.goto [.writeValue] 71) [])),
   (121, foldRow 63 (.letter 'c', .goto [.startValue] 64) [])]

/-- A digit of a length, which ends with the line. -/
def lengthRow (row : Row) : Row :=
  lineRow (.goto [.writeContentLen, .writeValue] 20) (.goto [.writeContentLen, .writeValue] 24) row

/-- `content_length` -/
def contentLengthRows : Rows :=
  [(101, nameRow [('e', 102)]), (102, nameRow [('n', 103)]), (103, nameRow [('t', 104)]),
   (104, nameRow [('-', 105)]), (105, nameRow [('l', 106)]), (106, nameRow [('e', 107)]),
   (107, nameRow [('n', 108)]), (108, nameRow [('g', 109)]), (109, nameRow [('t', 110)]),
   (110, nameRow [('h', 111)]),
   (111, (.byte 58, .goto [.writeField] 112) :: nameRow []),
   (112, valueRow 112 113 118 [(.digit, .goto [.startValue] 119)]),
   (113, lineRow (.done [] 123) (.goto [] 116)
        ((.space, .goto [] 114) :: fieldRow [] [(.digit, .goto [.startValue, .startField] 117)])),
   (114, foldRow 114 (.digit, .goto [.startValue] 115) []),
   (115, lengthRow [(.digit, .goto [] 115)]),
   (116, foldRow 114 (.digit, .goto [.startValue] 115) [(.byte 10, .done [] 123)]),
   (117, lengthRow ((.digit, .goto [] 117) :: nameRow [])),
   (118, foldRow 114 (.digit, .goto [.startValue] 115) [(.byte 10, .goto [] 113)]),
   (119, contentRow (lengthRow [(.digit, .goto [] 119)])),
   (123, foldRow 114 (.digit, .goto [.startValue] 115) [])]

/-- The rows of `httpclient_parser_execute`, by state. Nothing follows in state 120. -/
def table : Rows :=
  chunkRows ++ statusRows ++ fieldRows ++ connectionRows ++ transferEncodingRows ++ contentLengthRows

/-- The transition of a state on a character. -/
def next (cs : Nat) (c : UInt8) : Option Transition :=
  (table.lookup cs).bind fun row => (row.find? fun e => e.1.has c).map Prod.snd

end Client

/-- The digit that a character stands for, as `strtol` takes it. -/
def digitValue (c : UInt8) : Nat :=
  if isDigit c then c.toNat - 48
  else if 97 ≤ c ∧ c ≤ 122 then c.toNat - 87
  else if 65 ≤ c ∧ c ≤ 90 then c.toNat - 55
  else 36

/-- The number that a string of digits denotes. -/
def digitsValue (base : Nat) (digits : Bytes) : Nat :=
  digits.foldl (fun n c => base * n + digitValue c) 0

/-- The `0x` that `strtol` skips in base 16, where a digit follows. -/
def skipHexPrefix : Bytes → Bytes
  | 48 :: x :: d :: s => if (x = 120 ∨ x = 88) ∧ isXdigit d then d :: s else 48 :: x :: d :: s
  | s => s

/-- `strtol(s, NULL, base)`, with `long` of 64 bits. -/
def strtol (base : Nat) (s : Bytes) : Int :=
  let s := s.dropWhile Client.isSpace
  let negative : Bool := s.head? == some 45
  let s := if negative ∨ s.head? = some 43 then s.tail else s
  let s := if base = 16 then skipHexPrefix s else s
  let n := digitsValue base (s.takeWhile fun c => digitValue c < base)
  if negative then max (-(n : Int)) (-2 ^ 63) else min (n : Int) (2 ^ 63 - 1)

/-- A `long` converted to `int`. -/
def longToInt (n : Int) : Int := n.bmod (2 ^ 32)

/-- `httpclient_parser`. The flags are `int`s of value 0 or 1 in the code. -/
structure HttpclientParser where
  cs : Nat
  bodyStart : Nat
  contentLen : Int
  chunked : Bool
  chunksDone : Bool
  close : Bool
  nread : Nat
  mark : Nat
  fieldStart : Nat
  fieldLen : Nat
  deriving Repr, DecidableEq

/-- `httpclient_parser_start` -/
def httpclientParserStart : Nat := 1

/-- `httpclient_parser_first_final` -/
def httpclientParserFirstFinal : Nat := 120

/-- `httpclient_parser_error` -/
def httpclientParserError : Nat := 0

/-- `httpclient_parser_init`. -/
def HttpclientParser.init : HttpclientParser where
  cs := httpclientParserStart
  bodyStart := 0
  contentLen := -1
  chunked := false
  chunksDone := false
  close := false
  nread := 0
  mark := 0
  fieldStart := 0
  fieldLen := 0

/-- `HttpResponseParser`; `error` is 1001 behind an invalid version. -/
structure HttpResponseParser where
  parser : HttpclientParser
  data : HttpResponse
  error : Nat
  deriving Repr, DecidableEq

/-- `HttpResponseParser::HttpResponseParser` -/
def HttpResponseParser.new : HttpResponseParser where
  parser := .init
  data := .new
  error := 0

section Callbacks

variable (r : HttpResponseParser) (buffer : Bytes) (pos length : Nat)

/-- `on_response_reason` -/
def onResponseReason : Except Fault HttpResponseParser :=
  (makeString buffer pos length).map fun s => { r with data.reason := s }

/-- `on_response_status` -/
def onResponseStatus : HttpResponseParser :=
  { r with data.status := longToInt (strtol 10 (buffer.drop pos)) }

/-- `on_response_version` -/
def onResponseVersion : Except Fault HttpResponseParser :=
  if strncmpEq (buffer.drop pos) (ascii "HTTP/1.1") length then .ok { r with data.version := 0x11 }
  else if strncmpEq (buffer.drop pos) (ascii "HTTP/1.0") length then
    .ok { r with data.version := 0x10 }
  else (makeString buffer pos length).map fun _ => { r with error := 1001 }

/-- `on_response_http_field` -/
def onResponseHttpField (field flen value vlen : Nat) : Except Fault HttpResponseParser :=
  if flen = 0 then .ok r
  else (makeString buffer field flen).bind fun name =>
    (makeString buffer value vlen).map fun val =>
      { r with data.headers := r.data.headers.set name val }

/-- The action `chunk_size`; `on_response_chunk` and `on_response_last_chunk` do nothing. -/
def onChunkSize : HttpResponseParser :=
  let contentLen := longToInt (strtol 16 (buffer.drop pos))
  { r with
    parser.chunked := true
    parser.contentLen := contentLen
    parser.chunksDone := contentLen ≤ 0 }

end Callbacks

namespace Client

/-- What an action does when the machine is at position `p` of the buffer. -/
def Action.run (buffer : Bytes) (p : Nat) (r : HttpResponseParser) :
    Action → Except Fault HttpResponseParser
  | .mark | .startValue => .ok { r with parser.mark := p }
  | .startField => .ok { r with parser.fieldStart := p }
  | .writeField => .ok { r with parser.fieldLen := lenFrom r.parser.fieldStart p }
  | .writeContentLen =>
      .ok { r with parser.contentLen := longToInt (strtol 10 (buffer.drop r.parser.mark)) }
  | .writeConnectionClose => .ok { r with parser.close := true }
  | .writeValue => onResponseHttpField r buffer r.parser.fieldStart r.parser.fieldLen r.parser.mark
      (lenFrom r.parser.mark p)
  | .reasonPhrase => onResponseReason r buffer r.parser.mark (lenFrom r.parser.mark p)
  | .statusCode => .ok (onResponseStatus r buffer r.parser.mark)
  | .httpVersion => onResponseVersion r buffer r.parser.mark (lenFrom r.parser.mark p)
  | .chunkSize => .ok (onChunkSize r buffer r.parser.mark)
  | .transChunked => .ok { r with parser.chunked := true }

/-- The actions of one transition, in their order. -/
def runActions (buffer : Bytes) (p : Nat) :
    HttpResponseParser → List Action → Except Fault HttpResponseParser
  | r, [] => .ok r
  | r, a :: as => (a.run buffer p r).bind fun r => runActions buffer p r as

/-- The machine with its state `cs`, which `httpclient_parser_execute` keeps in a local variable. -/
def step (buffer : Bytes) (s : Nat × HttpResponseParser) (p : Nat) (c : UInt8) :
    Except Fault (Move (Nat × HttpResponseParser)) :=
  match next s.1 c with
  | none => .ok .fail
  | some (.goto actions cs) => (runActions buffer p s.2 actions).map fun r => .goto (cs, r)
  | some (.done actions cs) =>
      (runActions buffer p s.2 actions).map fun r =>
        .stop (cs, { r with parser.bodyStart := p + 1 })

end Client

/-- `httpclient_parser_execute` on the bytes in the buffer, with the `int` it returns. It goes on from
the marks, the count and the start of the body that earlier calls have left; `behind` is what stands
in memory behind the bytes, where a mark of an earlier call can point. -/
def httpclientParserExecute (behind : Bytes) (r : HttpResponseParser) (buffer : Bytes) :
    Except Fault (HttpResponseParser × Int) :=
  -- `pe - p == (int)len - (int)off`
  if toInt32 buffer.length ≠ buffer.length then .error .assertion
  else (scan (Client.step (buffer ++ behind)) (r.parser.cs, r) 0 buffer).bind fun e =>
    let cs := if e.halt = .failed then httpclientParserError else e.state.1
    let nread := e.state.2.parser.nread + e.pos
    let r := { e.state.2 with parser.cs := cs, parser.nread := nread }
    if buffer.length < nread ∨ buffer.length < r.parser.bodyStart then .error .assertion
    else if r.parser.mark < buffer.length ∧ r.parser.fieldLen ≤ buffer.length ∧
        r.parser.fieldStart < buffer.length then
      let nread := if r.parser.bodyStart ≠ 0 then nread + 1 else nread
      .ok ({ r with parser.nread := nread }, toInt32 nread)
    else .ok (r, -1)

/-- `HttpResponseParser::execute`. The count it returns is below zero where the code has a `size_t`
that has wrapped around, and `memmove` then moves bytes in front of the buffer as well. -/
def HttpResponseParser.execute (behind : Bytes) (r : HttpResponseParser) (data : Bytes)
    (chunk : Bool) : Except Fault (HttpResponseParser × Int) :=
  let r := if chunk then { r with parser := .init } else r
  (httpclientParserExecute behind r data).map fun e => (e.1, e.2 - 1)

/-- `HttpResponseParser::hasError` -/
def HttpResponseParser.hasError (r : HttpResponseParser) : Bool :=
  r.error != 0 || r.parser.cs == httpclientParserError

/-- `isFinished() != 0`, asked where `hasError()` is false. -/
def HttpResponseParser.isFinished (r : HttpResponseParser) : Bool :=
  r.parser.cs == httpclientParserFirstFinal

/-- `HttpResponseParser::getContentLength`. -/
def HttpResponseParser.getContentLength (lexicalCast : LexicalCast) (r : HttpResponseParser) :
    UInt64 :=
  getAs lexicalCast r.data.headers (ascii "content-length") 0

end Http

end Saturn
