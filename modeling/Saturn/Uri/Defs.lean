import Saturn.Http.Dump
import Saturn.Http.Httpclient
import Saturn.Misc.Scan

/-!
# URIs

`Uri::Create`, whose body is the state machine that ragel makes of `uri.rl`, and `Uri::dump`. The
rows of the machine are written out in the numbering of `uri.cc`; the states of the authority of a
reference that has no scheme (`//host`) are a parameter. Families of rows are functions, since ragel
unfolds each `dec_octet` and each `h16` of the grammar once more.
-/

namespace Saturn

open Http (Bytes ascii digits isAlpha isDigit isSegment isXdigit longToInt strtol)

/-- The members of `Uri`. -/
structure Uri where
  scheme : Bytes
  userinfo : Bytes
  host : Bytes
  path : Bytes
  query : Bytes
  fragment : Bytes
  port : Int
  deriving Repr, DecidableEq

namespace Uri

/-- `Uri::Uri`. -/
def new : Uri where
  scheme := []
  userinfo := []
  host := []
  path := []
  query := []
  fragment := []
  port := 0

/-- What ends a call that does not return: a string made of a null pointer, or `atoi` of one. -/
inductive Fault
  | logicError
  | nullPointer
  deriving Repr, DecidableEq

/-- The actions of `uri.rl`; `marku` and `markh` are both `mark`. -/
inductive Action
  | mark | saveScheme | savePort | saveUserinfo | saveHost | savePath | saveQuery | saveFragment
  deriving Repr, DecidableEq

/-- The characters that a transition is for. -/
inductive CharClass
  | byte (c : UInt8)
  | digit
  /-- `[0-4]` and `[0-5]` -/
  | upTo4 | upTo5
  | xdigit
  | alpha
  /-- The rest of a scheme. -/
  | scheme
  /-- `unreserved | sub_delims` -/
  | name
  /-- `name | ":"` -/
  | user
  /-- `pchar - ":"`, without the percent sign. -/
  | noColon
  /-- `pchar`, without the percent sign. -/
  | pchar
  /-- `pchar | "/"` -/
  | path
  /-- `pchar | "/" | "?"` -/
  | query
  deriving Repr, DecidableEq

/-- `unreserved | sub_delims` -/
def isName (c : UInt8) : Bool := isSegment false c

/-- `name | "@" | any - ascii` -/
def isNoColon (c : UInt8) : Bool := isName c || c == 64 || 128 ≤ c

/-- The character is one of the class. -/
def CharClass.has : CharClass → UInt8 → Bool
  | .byte b, c => c == b
  | .digit, c => isDigit c
  | .upTo4, c => 48 ≤ c && c ≤ 52
  | .upTo5, c => 48 ≤ c && c ≤ 53
  | .xdigit, c => isXdigit c
  | .alpha, c => isAlpha c
  | .scheme, c => isAlpha c || isDigit c || c == 43 || c == 45 || c == 46
  | .name, c => isName c
  | .user, c => isName c || c == 58
  | .noColon, c => isNoColon c
  | .pchar, c => isNoColon c || c == 58
  | .path, c => isNoColon c || c == 58 || c == 47
  | .query, c => isNoColon c || c == 58 || c == 47 || c == 63

/-- What a state does with the next byte: the first class that has it decides, and the machine stops
at a byte that no class has. -/
abbrev Row := List (CharClass × List Action × Nat)

/-- The rows of some states. -/
abbrev Rows := List (Nat × Row)

/-- Transitions without an action. -/
abbrev Silent := List (CharClass × Nat)

/-- Transitions without actions. -/
def silent (row : Silent) : Row := row.map fun e => (e.1, [], e.2)

/-- Two hexadecimal digits behind a percent sign. -/
def pctRows (cs next : Nat) : Rows :=
  [(cs, silent [(.xdigit, cs + 1)]), (cs + 1, silent [(.xdigit, next)])]

/-! ## The path, the query and the fragment -/

/-- The scheme, and the path of a URI without an authority. -/
def schemeRows : Rows :=
  [(451, (.alpha, [.mark], 508) ::
      silent [(.byte 35, 453), (.byte 37, 3), (.byte 47, 458), (.byte 63, 456), (.noColon, 452)]),
   (508, (.byte 58, [.saveScheme], 509) :: silent [(.scheme, 508), (.byte 35, 453), (.byte 37, 3),
      (.byte 47, 455), (.byte 63, 456), (.noColon, 452)]),
   (509, silent [(.byte 47, 510), (.byte 35, 453), (.byte 37, 5), (.byte 63, 456), (.pchar, 455)]),
   (510, silent [(.byte 47, 511), (.byte 35, 453), (.byte 37, 5), (.byte 63, 456), (.pchar, 455)]),
   (452, silent [(.byte 47, 455), (.byte 35, 453), (.byte 37, 3), (.byte 63, 456), (.noColon, 452)]),
   (455, silent [(.byte 35, 453), (.byte 37, 5), (.byte 63, 456), (.path, 455)]),
   (458, silent [(.byte 47, 459), (.byte 35, 453), (.byte 37, 5), (.byte 63, 456), (.pchar, 455)])] ++
  (pctRows 3 452 ++ pctRows 5 455)

/-- The states of a path. -/
def pathRows : Rows :=
  [(513, (.byte 63, [.savePath], 456) :: (.byte 35, [.savePath], 453) ::
      silent [(.byte 37, 243), (.path, 513)])] ++
  pctRows 243 513

/-- The states of a query. -/
def queryRows : Rows :=
  [(456, [(.byte 35, [.mark, .saveQuery], 453), (.byte 37, [.mark], 7), (.query, [.mark], 457)]),
   (457, (.byte 35, [.saveQuery], 453) :: silent [(.byte 37, 7), (.query, 457)])] ++
  pctRows 7 457

/-- The states of a fragment. -/
def fragmentRows : Rows :=
  [(453, [(.byte 37, [.mark], 1), (.query, [.mark], 454)]),
   (454, silent [(.byte 37, 1), (.query, 454)])] ++
  pctRows 1 454

/-! ## The authority -/

/-- What ends an authority. -/
def delimiters (actions : List Action) : Row :=
  [(.byte 47, actions, 513), (.byte 63, actions ++ [.savePath], 456),
   (.byte 35, actions ++ [.savePath], 453)]

/-- The first character of a `dec_octet`, where `full` is the state behind a complete one. The `2`
of `2 [0-4] digit` in `uri.rl` is the byte 2. -/
def octetStart (literal full one : Nat) : Silent :=
  [(.byte 2, literal), (.byte 48, full), (.byte 49, one), (.byte 50, one + 2), (.digit, one + 1)]

/-- `[0-4] digit` behind the byte 2. -/
def literalRows (cs full : Nat) : Rows :=
  [(cs, silent [(.upTo4, cs + 1)]), (cs + 1, silent [(.digit, full)])]

/-- The states within a `dec_octet`, in rows of the form `row`. -/
def octetRows (full one : Nat) (row : Silent → Row) : Rows :=
  [(one, row [(.digit, one + 1)]),
   (one + 1, row [(.digit, full)]),
   (one + 2, row [(.byte 53, one + 3), (.digit, full)]),
   (one + 3, row [(.upTo5, full)])]

/-- A state within a `reg_name`. -/
def nameRow (loop pct colon : Nat) (at_ : Row) (row : Silent) : Row :=
  delimiters [.saveHost, .mark] ++ (.byte 58, [.saveHost], colon) :: at_ ++
    silent (row ++ [(.byte 37, pct), (.name, loop)])

/-- A `reg_name` that may become an `IPv4address`: `base` is the state behind its first octet. -/
def nameRows (loop pct colon base : Nat) (at_ : Row) : Rows :=
  [(loop, nameRow loop pct colon at_ []),
   (base, nameRow loop pct colon at_ [(.byte 46, base + 1)]),
   (base + 1, nameRow loop pct colon at_ (octetStart 233 (base + 2) (base + 10))),
   (base + 2, nameRow loop pct colon at_ [(.byte 46, base + 3)]),
   (base + 3, nameRow loop pct colon at_ (octetStart 237 (base + 4) (base + 6))),
   (base + 4, nameRow loop pct colon at_ [(.byte 46, base + 5)]),
   (base + 5, nameRow loop pct colon at_ [(.byte 2, 241)])] ++
  (octetRows (base + 4) (base + 6) (fun row => nameRow loop pct colon at_ ((.byte 46, base + 5) :: row)) ++
  (octetRows (base + 2) (base + 10)
    (fun row => nameRow loop pct colon at_ ((.byte 46, base + 3) :: row)) ++
  (octetRows base (base + 14) (fun row => nameRow loop pct colon at_ ((.byte 46, base + 1) :: row)) ++
  pctRows pct loop)))

/-- The first character of a host. -/
def hostStart (loop pct base : Nat) : Row :=
  let row : Silent := (.byte 91, 260) :: octetStart 229 base (base + 14) ++
    [(.byte 37, pct), (.name, loop)]
  row.map fun e => (e.1, [.mark], e.2)

/-- Behind the `]` of an `IP_literal`, or in the last octet of an `IPv4address`. -/
def closedRow (row : Silent) : Row :=
  delimiters [.saveHost, .mark] ++ (.byte 58, [.saveHost], 514) :: silent row

/-- The states of an authority. -/
def authorityRows : Rows :=
  [(511, delimiters [.mark, .saveHost] ++ (.byte 58, [.mark, .saveHost], 521) ::
      (.byte 64, [.mark, .saveUserinfo], 522) :: hostStart 520 253 543),
   (521, delimiters [.mark, .savePort] ++ (.byte 64, [.saveUserinfo], 522) ::
      (.digit, [.mark], 542) :: silent [(.byte 37, 256), (.user, 255)]),
   (542, delimiters [.savePort, .mark] ++ (.byte 64, [.saveUserinfo], 522) ::
      silent [(.digit, 542), (.byte 37, 256), (.user, 255)]),
   (255, (.byte 64, [.saveUserinfo], 522) :: silent [(.byte 37, 256), (.user, 255)]),
   (522, delimiters [.mark, .saveHost] ++ (.byte 58, [.mark, .saveHost], 514) ::
      hostStart 523 258 524),
   (512, closedRow []),
   (514, delimiters [.mark, .savePort] ++ [(.digit, [.mark], 515)]),
   (515, delimiters [.savePort, .mark] ++ silent [(.digit, 515)])] ++
  (pctRows 256 255 ++
  (nameRows 520 253 521 543 [(.byte 64, [.saveUserinfo], 522)] ++
  nameRows 523 258 514 524 []))

/-- An `IPv4address` with a byte 2 in it. -/
def ipv4Rows : Rows :=
  [literalRows 229 231, [(231, silent [(.byte 46, 232)]), (232, silent (octetStart 233 235 249))],
   literalRows 233 235, [(235, silent [(.byte 46, 236)]), (236, silent (octetStart 237 239 245))],
   literalRows 237 239, [(239, silent [(.byte 46, 240)]), (240, silent (octetStart 241 512 516))],
   literalRows 241 512,
   octetRows 239 245 fun row => silent ((.byte 46, 240) :: row),
   octetRows 235 249 fun row => silent ((.byte 46, 236) :: row),
   octetRows 512 516 closedRow].flatten

/-! ## The `IP_literal` -/

/-- Up to four digits of an `h16`, then a colon. -/
def h16Rows (cs next : Nat) : Rows :=
  [(cs, silent [(.xdigit, cs + 1), (.byte 58, next)]),
   (cs + 1, silent [(.xdigit, cs + 2), (.byte 58, next)]),
   (cs + 2, silent [(.xdigit, cs + 3), (.byte 58, next)]),
   (cs + 3, silent [(.byte 58, next)])]

/-- The first character of an `h16` that may become the first octet of an `IPv4address`. -/
def octetOrHex (lead one hex : Nat) : Silent :=
  [(.byte 2, 291), (.byte 48, lead), (.byte 49, one), (.byte 50, one + 3), (.digit, one + 6),
   (.xdigit, hex)]

/-- The states within such an `h16`, with what may follow it. -/
def octetOrHexRows (lead one hex : Nat) (after : Silent) : Rows :=
  [(lead, silent ((.byte 46, 294) :: (.xdigit, lead + 1) :: after)),
   (lead + 1, silent ((.xdigit, lead + 2) :: after)),
   (lead + 2, silent ((.xdigit, lead + 3) :: after)),
   (lead + 3, silent after),
   (one, silent ((.byte 46, 294) :: (.digit, one + 1) :: (.xdigit, lead + 1) :: after)),
   (one + 1, silent ((.byte 46, 294) :: (.digit, one + 2) :: (.xdigit, lead + 2) :: after)),
   (one + 2, silent ((.byte 46, 294) :: (.xdigit, lead + 3) :: after)),
   (one + 3, silent ((.byte 46, 294) :: (.byte 53, one + 5) :: (.digit, one + 4) ::
      (.xdigit, lead + 1) :: after)),
   (one + 4, silent ((.byte 46, 294) :: (.xdigit, lead + 2) :: after)),
   (one + 5, silent ((.byte 46, 294) :: (.upTo5, one + 2) :: (.xdigit, lead + 2) :: after)),
   (one + 6, silent ((.byte 46, 294) :: (.digit, one + 4) :: (.xdigit, lead + 1) :: after)),
   (hex, silent ((.xdigit, lead + 1) :: after))]

/-- The groups in front of a `::`. -/
def groupRows : Rows :=
  [[(260, silent [(.xdigit, 261), (.byte 58, 368), (.byte 118, 447)]),
    (265, silent [(.xdigit, 266), (.byte 58, 363)]),
    (270, silent [(.xdigit, 271), (.byte 58, 358)]),
    (275, silent [(.xdigit, 276), (.byte 58, 353)]),
    (280, silent [(.xdigit, 281), (.byte 58, 348)]),
    (285, silent [(.xdigit, 286), (.byte 58, 335)]),
    (290, silent ((.byte 58, 333) :: octetOrHex 318 326 334))],
   h16Rows 261 265, h16Rows 266 270, h16Rows 271 275, h16Rows 276 280, h16Rows 281 285,
   h16Rows 286 290].flatten

/-- The groups behind it, where their number is fixed. -/
def tailRows : Rows :=
  [[(335, silent (octetOrHex 336 340 347)),
    (348, silent [(.xdigit, 349)]),
    (353, silent [(.xdigit, 354)]),
    (358, silent [(.xdigit, 359)]),
    (363, silent [(.xdigit, 364)])],
   octetOrHexRows 336 340 347 [(.byte 58, 333)],
   h16Rows 349 335, h16Rows 354 348, h16Rows 359 353, h16Rows 364 358].flatten

/-- The groups behind a `::` that stands at the beginning. -/
def leadingRows : Rows :=
  [[(368, silent [(.byte 58, 369)]),
    (369, silent ((.byte 93, 512) :: octetOrHex 370 439 446)),
    (374, silent (octetOrHex 375 431 438)),
    (379, silent (octetOrHex 380 423 430)),
    (384, silent (octetOrHex 385 415 422)),
    (389, silent (octetOrHex 390 407 414)),
    (394, silent (octetOrHex 395 399 406))],
   octetOrHexRows 370 439 446 [(.byte 58, 374), (.byte 93, 512)],
   octetOrHexRows 375 431 438 [(.byte 58, 379), (.byte 93, 512)],
   octetOrHexRows 380 423 430 [(.byte 58, 384), (.byte 93, 512)],
   octetOrHexRows 385 415 422 [(.byte 58, 389), (.byte 93, 512)],
   octetOrHexRows 390 407 414 [(.byte 58, 394), (.byte 93, 512)],
   octetOrHexRows 395 399 406 [(.byte 58, 333), (.byte 93, 512)]].flatten

/-- `ls32`, the last `h16`, and `IPvFuture`. -/
def lastRows : Rows :=
  [[(322, silent [(.xdigit, 323), (.byte 58, 305)]),
    (323, silent [(.xdigit, 324), (.byte 93, 512)]),
    (324, silent [(.xdigit, 325), (.byte 93, 512)]),
    (325, silent [(.xdigit, 305), (.byte 93, 512)]),
    (333, silent [(.xdigit, 323)]),
    (305, silent [(.byte 93, 512)]),
    (447, silent [(.xdigit, 448)]),
    (448, silent [(.byte 46, 449), (.xdigit, 448)]),
    (449, silent [(.user, 450)]),
    (450, silent [(.byte 93, 512), (.user, 450)])],
   octetOrHexRows 318 326 334 [(.byte 58, 322)],
   literalRows 291 293, [(293, silent [(.byte 46, 294)]), (294, silent (octetStart 295 297 314))],
   literalRows 295 297, [(297, silent [(.byte 46, 298)]), (298, silent (octetStart 299 301 310))],
   literalRows 299 301, [(301, silent [(.byte 46, 302)]), (302, silent (octetStart 303 305 306))],
   literalRows 303 305,
   octetRows 297 314 fun row => silent ((.byte 46, 298) :: row),
   octetRows 301 310 fun row => silent ((.byte 46, 302) :: row),
   octetRows 305 306 fun row => silent ((.byte 93, 512) :: row)].flatten

/-! ## `Uri::Create` -/

/-- The rows of `Uri::Create`, by state. -/
def table : Rows :=
  [schemeRows, pathRows, queryRows, fragmentRows, authorityRows, ipv4Rows, groupRows, tailRows,
   leadingRows, lastRows].flatten

/-- `uri_parser_start` -/
def uriParserStart : Nat := 451

/-- `uri_parser_first_final` -/
def uriParserFirstFinal : Nat := 451

/-- The states that `table` leaves out. -/
structure Rest where
  next : Nat → UInt8 → Option (List Action × Nat)
  eof : Nat → List Action

/-- Refuses every URI that needs a state left out. -/
def Rest.refuse : Rest := ⟨fun _ _ => none, fun _ => []⟩

/-- The actions and the state that a byte leads to. -/
def next (rest : Rest) (cs : Nat) (c : UInt8) : Option (List Action × Nat) :=
  match table.lookup cs with
  | some row => (row.find? fun e => e.1.has c).map Prod.snd
  | none => rest.next cs c

/-- The actions at the end of the string. -/
def eofActions (rest : Rest) (cs : Nat) : List Action :=
  if cs = 511 ∨ cs = 522 then [.mark, .saveHost, .savePath]
  else if cs = 514 ∨ cs = 521 then [.mark, .savePort, .savePath]
  else if cs = 515 ∨ cs = 542 then [.savePort, .mark, .savePath]
  else if cs = 513 then [.savePath]
  else if cs = 512 ∨ 516 ≤ cs ∧ cs ≤ 560 then [.saveHost, .mark, .savePath]
  else if cs = 456 then [.mark, .saveQuery]
  else if cs = 457 then [.saveQuery]
  else if cs = 453 then [.mark, .saveFragment]
  else if cs = 454 then [.saveFragment]
  else if (table.lookup cs).isSome then []
  else rest.eof cs

/-- The local variables `mark` and `uri`. -/
structure Parser where
  mark : Option Nat
  uri : Uri
  deriving Repr, DecidableEq

/-- `atoi(s)`. -/
def atoi (s : Bytes) : Int := longToInt (strtol 10 s)

section Actions

variable (buffer : Bytes) (p : Nat) (r : Parser)

/-- `std::string(mark, p - mark)`. -/
def marked : Except Fault Bytes :=
  match r.mark with
  | none => .error .logicError
  | some m => .ok ((buffer.drop m).take (p - m))

/-- One action at position `p`. -/
def Action.run : Action → Except Fault Parser
  | .mark => .ok { r with mark := some p }
  | .saveScheme => (marked buffer p r).map fun s => ⟨none, { r.uri with scheme := s }⟩
  | .savePort =>
      if r.mark = some p then .ok { r with mark := none }
      else match r.mark with
        | none => .error .nullPointer
        | some m => .ok ⟨none, { r.uri with port := atoi (buffer.drop m) }⟩
  | .saveUserinfo =>
      if r.mark = none then .ok r
      else (marked buffer p r).map fun s => ⟨none, { r.uri with userinfo := s }⟩
  | .saveHost =>
      if r.mark = none then .ok r
      else (marked buffer p r).map fun s => { r with uri.host := s }
  | .savePath => (marked buffer p r).map fun s => ⟨none, { r.uri with path := s }⟩
  | .saveQuery => (marked buffer p r).map fun s => ⟨none, { r.uri with query := s }⟩
  | .saveFragment => (marked buffer p r).map fun s => ⟨none, { r.uri with fragment := s }⟩

/-- The actions of one transition, in their order. -/
def runActions : Parser → List Action → Except Fault Parser
  | r, [] => .ok r
  | r, a :: as => (a.run buffer p r).bind fun r => runActions r as

end Actions

/-- The machine with its state `cs` and the local variables. -/
def step (rest : Rest) (buffer : Bytes) (s : Nat × Parser) (p : Nat) (c : UInt8) :
    Except Fault (Move (Nat × Parser)) :=
  match next rest s.1 c with
  | none => .ok .fail
  | some (actions, cs) => (runActions buffer p s.2 actions).map fun r => .goto (cs, r)

/-- `Uri::Create`; `none` stands for `nullptr`. -/
def create (rest : Rest) (uristr : Bytes) : Except Fault (Option Uri) :=
  (scan (step rest uristr) (uriParserStart, ⟨none, .new⟩) 0 uristr).bind fun e =>
    if e.halt = .failed then .ok none
    else (runActions uristr uristr.length e.state.2 (eofActions rest e.state.1)).map fun r =>
      if uriParserFirstFinal ≤ e.state.1 then some r.uri else none

/-! ## Printing -/

/-- `Uri::isDefaultPort` -/
def isDefaultPort (u : Uri) : Bool :=
  if u.port = 0 then true
  else if u.scheme = ascii "http" then u.port = 80
  else if u.scheme = ascii "https" then u.port = 443
  else false

/-- `Uri::getPath` -/
def getPath (u : Uri) : Bytes := if u.path = [] then ascii "/" else u.path

/-- `Uri::getPort` -/
def getPort (u : Uri) : Int :=
  if u.port ≠ 0 then u.port
  else if u.scheme = ascii "http" then 80
  else if u.scheme = ascii "https" then 443
  else u.port

/-- `std::to_string(n)`. -/
def toString (n : Int) : Bytes := if n < 0 then ascii "-" ++ digits n.natAbs else digits n.natAbs

/-- `Uri::dump`. -/
def dump (u : Uri) : Bytes :=
  u.scheme ++ ascii "://" ++ u.userinfo ++ (if u.userinfo = [] then [] else ascii "@") ++ u.host ++
    (if u.isDefaultPort then [] else ascii ":" ++ toString u.port) ++ u.getPath ++
    (if u.query = [] then [] else ascii "?") ++ u.query ++
    (if u.fragment = [] then [] else ascii "#") ++ u.fragment

end Uri

end Saturn
