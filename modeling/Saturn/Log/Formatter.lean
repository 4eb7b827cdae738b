import Saturn.Http.Message

/-!
# `LogFormatter::parseFormat`

The format string is read by index, with `Except` for what an index beyond its end comes to. A pass of
the loop appends one pattern.
-/

namespace Saturn

namespace Log

open Http (Bytes ascii)

/-- What ends `parseFormat` without a result: an index that is not smaller than the length, or more
passes than were allowed for. -/
inductive Fault
  | outOfBounds
  | outOfFuel
  deriving Repr, DecidableEq

/-- The kinds of a date. -/
inductive TimeType
  | iso8601
  | unix
  | unixMillis
  | selfDefined
  deriving Repr, DecidableEq

/-- The classes of the patterns; `text` is `FormatPattern` itself. -/
inductive FormatPattern
  | text (pattern : Bytes)
  | logger
  | time (pattern : Bytes) (type : TimeType)
  | level
  | message
  | file
  | line
  | thread
  | fiber
  | elapse
  deriving Repr, DecidableEq

/-- The type that the constructor of `TimeFormatPattern` picks. -/
def timeType (pattern : Bytes) : TimeType :=
  if pattern = ascii "UNIX" then .unix
  else if pattern = ascii "UNIX_MILLIS" then .unixMillis
  else if pattern = ascii "ISO8601" then .iso8601
  else if pattern = [] then .unix
  else .selfDefined

/-- `TimeFormatPattern(pattern)` -/
def timeFormatPattern (pattern : Bytes) : FormatPattern := .time pattern (timeType pattern)

/-- The members of `LogFormatter`. -/
structure LogFormatter where
  format : Bytes
  patterns : List FormatPattern
  error : Bool
  deriving Repr, DecidableEq

/-- `views[i]` -/
def charAt (views : Bytes) (i : Nat) : Except Fault UInt8 :=
  match views[i]? with
  | some c => .ok c
  | none => .error .outOfBounds

/-- `sv.starts_with(s)` -/
def startsWith (sv : Bytes) (s : String) : Bool := (ascii s).isPrefixOf sv

/-- The branches of the directives but `%d`: the pattern, and what is added to `i`. -/
def directive (sv : Bytes) : Option (FormatPattern × Nat) :=
  if startsWith sv "p" || startsWith sv "level" then
    some (.level, if startsWith sv "p" then 1 else 5)
  else if startsWith sv "m" || startsWith sv "msg" || startsWith sv "message" then
    some (.message, if startsWith sv "message" then 7 else if startsWith sv "msg" then 3 else 1)
  else if startsWith sv "F" || startsWith sv "file" then
    some (.file, if startsWith sv "F" then 1 else 4)
  else if startsWith sv "L" || startsWith sv "line" then
    some (.line, if startsWith sv "L" then 1 else 4)
  else if startsWith sv "t" || startsWith sv "thread" then
    some (.thread, if startsWith sv "thread" then 6 else 1)
  else if startsWith sv "f" || startsWith sv "fiber" then
    some (.fiber, if startsWith sv "fiber" then 5 else 1)
  else if startsWith sv "e" || startsWith sv "elapse" then
    some (.elapse, if startsWith sv "elapse" then 6 else 1)
  else if startsWith sv "c" || startsWith sv "logger" then
    some (.logger, if startsWith sv "c" then 1 else 6)
  else none

/-- The loop that looks for the closing brace from `tmp` on; the first argument is what `views` has from
there on. -/
def closing : Bytes → Nat → Nat
  | [], tmp => tmp
  | c :: rest, tmp => if c = 125 then tmp else closing rest (tmp + 1)

/-- The branch of `%d`: the pattern, and the new `i`. -/
def date (views : Bytes) (i : Nat) : Except Fault (FormatPattern × Nat) :=
  if i + 2 < views.length then do
    if (← charAt views (i + 2)) = 123 then
      let tmp := closing (views.drop (i + 3)) (i + 3)
      if tmp < views.length then
        pure (timeFormatPattern ((views.drop (i + 3)).take (tmp - i - 3)), tmp)
      else pure (timeFormatPattern [], i + 1)
    else pure (timeFormatPattern [], i + 1)
  else pure (timeFormatPattern [], i + 1)

/-- The loop that looks for the next `%` from `tmp` on, with no regard to the end. -/
def percent : Bytes → Nat → Except Fault Nat
  | [], _ => .error .outOfBounds
  | c :: rest, tmp => if c = 37 then .ok tmp else percent rest (tmp + 1)

/-- The code behind the label `plain_str`. -/
def plainStr (views : Bytes) (i : Nat) : Except Fault (FormatPattern × Nat) := do
  let tmp ← percent (views.drop (i + 1)) (i + 1)
  pure (.text ((views.drop i).take (tmp - i)), tmp - 1)

/-- The branches of a `%` that is not the last character. -/
def branch (views : Bytes) (i : Nat) : Except Fault (FormatPattern × Nat) :=
  match directive (views.drop (i + 1)) with
  | some d => pure (d.1, i + d.2)
  | none => if startsWith (views.drop (i + 1)) "d" then date views i else plainStr views i

/-- A pass of the loop: the pattern that it appends, and the `i` that it leaves. -/
def body (views : Bytes) (i : Nat) : Except Fault (FormatPattern × Nat) := do
  if (← charAt views i) = 37 then
    if i < views.length - 1 then branch views i else pure (.text (views.drop i), i)
  else plainStr views i

/-- The loop of `parseFormat` from `i` on, for so many passes. -/
def loop : Nat → Bytes → Nat → Except Fault (List FormatPattern)
  | 0, views, i => if i < views.length then .error .outOfFuel else pure []
  | fuel + 1, views, i =>
    if i < views.length then do
      let r ← body views i
      let patterns ← loop fuel views (r.2 + 1)
      pure (r.1 :: patterns)
    else pure []

/-- `LogFormatter(format)`, which calls `parseFormat`. -/
def parseFormat (format : Bytes) : Except Fault LogFormatter :=
  if format = [] then .ok ⟨format, [], true⟩
  else (loop format.length format 0).map fun patterns => ⟨format, patterns, false⟩

/-- The format has been read without an error. -/
def LogFormatter.isValid (f : LogFormatter) : Bool := !f.error

end Log

end Saturn
