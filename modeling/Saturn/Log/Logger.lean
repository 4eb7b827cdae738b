import Mathlib.Logic.Function.Basic
import Saturn.Log.Formatter
import Saturn.Misc.Run

/-!
# Loggers and the log configuration

`LoggerManager` registers loggers by name. A logger without appenders passes an event on to the logger
that is registered as root. The listener of the `log` variable sets up the loggers of the new value and
takes the others of the old one away. A level is the number of its enumerator.
-/

namespace Saturn

namespace Log

open Http (Bytes ascii cstr)

/-- The members of `LogAppenderConfig`. -/
structure LogAppenderConfig where
  type : Int
  level : Int
  formatter : Bytes
  file : Bytes
  deriving Repr, DecidableEq

/-- The members of `LogConfig`. -/
structure LogConfig where
  name : Bytes
  level : Int
  formatter : Bytes
  appenders : List LogAppenderConfig
  deriving Repr, DecidableEq

/-- `StdoutLogAppender` and `FileLogAppender`. -/
inductive AppenderKind
  | stdout
  | file (filepath : Bytes)
  deriving Repr, DecidableEq

/-- A formatter is given by its format, a null pointer to one is `none`. -/
structure LogAppender where
  kind : AppenderKind
  level : Int
  formatter : Option Bytes
  deriving Repr, DecidableEq

/-- The members of `Logger`. -/
structure Logger where
  name : Bytes
  level : Int
  formatter : Option Bytes
  appenders : List LogAppender
  deriving Repr, DecidableEq

/-- The name of the root logger. -/
def rootName : Bytes := ascii "root"

/-- A new formatter, or a null pointer if it is not valid. -/
def makeFormatter (format : Bytes) : Option Bytes := if format = [] then none else some format

theorem makeFormatter_eq {format : Bytes} {f : LogFormatter} (h : parseFormat format = .ok f) :
    makeFormatter format = if f.isValid then some format else none := by
  unfold parseFormat at h
  unfold makeFormatter
  by_cases hempty : format = []
  · rw [if_pos hempty] at h ⊢
    cases h
    rfl
  · rw [if_neg hempty] at h ⊢
    cases hloop : loop format.length format 0 with
    | error e =>
        rw [hloop] at h
        cases h
    | ok patterns =>
        rw [hloop] at h
        cases h
        rfl

/-- The appender that the listener makes for an entry, if the type is known. -/
def newAppender (ap : LogAppenderConfig) : Option LogAppender :=
  if ap.type = 1 then some ⟨.stdout, ap.level, makeFormatter ap.formatter⟩
  else if ap.type = 2 then some ⟨.file ap.file, ap.level, makeFormatter ap.formatter⟩
  else none

namespace Logger

variable (l : Logger)

/-- `setLevel(level)` -/
def setLevel (level : Int) : Logger := { l with level }

/-- `setFormatter(formatter)` -/
def setFormatter (formatter : Option Bytes) : Logger := { l with formatter }

/-- `clearAppenders()` -/
def clearAppenders : Logger := { l with appenders := [] }

/-- `addAppender(appender)` -/
def addAppender (appender : LogAppender) : Logger := { l with appenders := l.appenders ++ [appender] }

/-- What the listener does with the logger of an entry of the new value. -/
def configure (val : LogConfig) : Logger :=
  (val.appenders.filterMap newAppender).foldl addAppender
    ((l.setLevel val.level).setFormatter (makeFormatter val.formatter)).clearAppenders

end Logger

/-- A pointer to a logger is an index into `loggers`, which has every logger ever created. `registered`
is `m_loggers`, where a pointer may be null, and `value` is the value of the `log` variable. -/
structure State where
  loggers : List Logger
  registered : Bytes → Option (Option Nat)
  value : List LogConfig

/-- How a call of `log` ends: it returns, it throws, it locks the mutex of a logger that it holds, or it
follows a null pointer. -/
inductive Ending
  | returned
  | threw
  | relocked
  | crashed
  | outOfFuel
  deriving Repr, DecidableEq

namespace State

section

variable (s : State)

/-- `m_loggers[key]`, which registers a null pointer under a new key. -/
def index (key : Bytes) : Option Nat × State :=
  match s.registered key with
  | some ptr => (ptr, s)
  | none => (none, { s with registered := Function.update s.registered key (some none) })

/-- `m_loggers.erase(name)` -/
def delLogger (name : Bytes) : State :=
  { s with registered := Function.update s.registered name none }

/-- A change of the logger behind a pointer. -/
def modify (p : Nat) (f : Logger → Logger) : State := { s with loggers := s.loggers.modify p f }

/-- The formatter of the logger that a pointer leads to. -/
def formatterOf (p : Nat) : Option Bytes := s.loggers[p]?.bind (·.formatter)

end

-- `fresh` has the level that is found in the memory of a new logger: the constructor sets none
variable (fresh : Nat → Int) (s : State)

/-- `m_loggers.emplace(name, std::make_shared<Logger>(name))`, which keeps an entry that is there. -/
def emplace (name : Bytes) : State :=
  match s.registered name with
  | some _ => s
  | none =>
    { s with
      loggers := s.loggers ++ [⟨name, fresh s.loggers.length, none, []⟩]
      registered := Function.update s.registered name (some (some s.loggers.length)) }

/-- `getLogger`, which looks for `name.data()` but registers `name`. -/
def getLogger (name : Bytes) : Option Nat × State :=
  if (s.registered (cstr name)).isSome then s.index (cstr name)
  else (s.emplace fresh name).index (cstr name)

/-- `log` of an appender, on behalf of the logger with the name. -/
def appenderLog (name : Bytes) (level : Int) (ap : LogAppender) : Ending × State :=
  if ap.level ≤ level ∧ ap.formatter = none then
    let r := s.getLogger fresh (cstr name)
    match r.1 with
    | some p => (if (r.2.formatterOf p).isSome then .returned else .threw, r.2)
    | none => (.crashed, r.2)
  else (.returned, s)

/-- The loop over the appenders. -/
def appendersLog (name : Bytes) (level : Int) : State → List LogAppender → Ending × State
  | s, [] => (.returned, s)
  | s, ap :: aps =>
    let r := s.appenderLog fresh name level ap
    if r.1 = .returned then appendersLog name level r.2 aps else r

/-- `Logger::log` on the logger `p`, where the thread holds the mutexes of the loggers `held`, for so
many calls within calls. -/
def log : Nat → List Nat → Nat → Int → State → Ending × State
  | 0, _, _, _, s => (.outOfFuel, s)
  | fuel + 1, held, p, level, s =>
    if p ∈ held then (.relocked, s)
    else
      match s.loggers[p]? with
      | none => (.crashed, s)
      | some l =>
        if l.level ≤ level then
          if l.appenders ≠ [] then appendersLog fresh l.name level s l.appenders
          else
            let r := s.getLogger fresh rootName
            match r.1 with
            | some root => log fuel (p :: held) root level r.2
            | none => (.crashed, r.2)
        else (.returned, s)

/-- The loop of the listener over the new value. A null pointer ends the program. -/
def configure (val : LogConfig) : Option State :=
  let r := s.getLogger fresh val.name
  r.1.map fun p => r.2.modify p (·.configure val)

/-- The loop of the listener over the old value. -/
def remove (new : List LogConfig) (val : LogConfig) : Option State :=
  if ∃ val' ∈ new, val'.name = val.name then some s
  else
    let r := s.getLogger fresh val.name
    r.1.map fun p => (r.2.modify p Logger.clearAppenders).delLogger val.name

/-- The listener of `LogIniter`, with the entries of both values in their order. -/
def listener (old new : List LogConfig) : Option State :=
  (run (configure fresh) s new).bind fun t => run (remove fresh · new) t old

/-- `setValue` of the `log` variable. -/
def reload (new : List LogConfig) : Option State :=
  (s.listener fresh s.value new).map fun t => { t with value := new }

end State

/-- The root logger with its appender, and an empty configuration. -/
def init (fresh : Nat → Int) : State where
  loggers := [⟨rootName, fresh 0, none, [⟨.stdout, 2,
    makeFormatter (ascii "%p %F %L thread[%t] fiber:%f %e %c %d\x7bISO8601\x7d %m")⟩]⟩]
  registered := Function.update (fun _ => none) rootName (some (some 0))
  value := []

/-- A new value of the `log` variable, a call of `getLogger`, or one of `log`. -/
inductive Label
  | reload (new : List LogConfig)
  | getLogger (name : Bytes)
  | log (p : Nat) (level : Int)
  deriving Repr, DecidableEq

/-- The step function. A call of `log` that does not end leaves no state. -/
def step (fresh : Nat → Int) (s : State) : Label → Option State
  | .reload new => s.reload fresh new
  | .getLogger name => some (s.getLogger fresh name).2
  | .log p level =>
    let r := s.log fresh 3 [] p level
    if r.1 = .returned ∨ r.1 = .threw then some r.2 else none

end Log

end Saturn
