import Mathlib.Data.List.TakeWhile
import Saturn.Http.Message
import Saturn.Misc.Run

/-!
# Configuration variables

The variables that `Config::add` registers by name, and `loadFromYaml`, which looks them up by the
paths of a document. A thread leaves the lock of the registry between looking a name up and
registering it, and between looking a path up and calling `fromString`.
-/

namespace Saturn

namespace Config

open Http (Bytes cstr ascii)

/-- A `std::string_view`: its characters, and what the memory behind them holds. -/
structure StringView where
  text : Bytes
  behind : Bytes
  deriving Repr, DecidableEq

namespace StringView

/-- The string that is read from `data()`. -/
def data (name : StringView) : Bytes := cstr (name.text ++ name.behind)

/-- The view of a `std::string`. -/
def ofString (s : Bytes) : StringView := ⟨s, [0]⟩

theorem data_ofString (s : Bytes) : (ofString s).data = cstr s := by
  change (s ++ [0]).takeWhile (· ≠ 0) = s.takeWhile (· ≠ 0)
  induction s with
  | nil => rfl
  | cons c s ih => rw [List.cons_append, List.takeWhile_cons, List.takeWhile_cons, ih]

/-- A name that is read as its characters is so read from a `std::string` as well. -/
theorem data_ofString_text {name : StringView} (h : name.data = name.text) :
    (ofString name.text).data = name.text := by
  have hidem : cstr name.data = name.data := List.takeWhile_idem
  rw [h] at hidem
  rw [data_ofString, hidem]

end StringView

/-- A `YAML::Node`. The keys of a map are what `Scalar()` returns for them. -/
inductive Node where
  | null
  | scalar (text : Bytes)
  | sequence (items : List Node)
  | map (entries : List (Bytes × Node))

mutual

/-- What `iterateNodes` appends to the list. -/
def iterateNodes (path : Bytes) : Node → List (Bytes × Node)
  | .map entries => (cstr path, .map entries) :: iterateEntries path entries
  | .null => [(cstr path, .null)]
  | .scalar text => [(cstr path, .scalar text)]
  | .sequence items => [(cstr path, .sequence items)]

/-- The loop of `iterateNodes` over the entries of a map. -/
def iterateEntries (path : Bytes) : List (Bytes × Node) → List (Bytes × Node)
  | [] => []
  | (key, value) :: entries =>
    iterateNodes (if path.isEmpty then key else path ++ ascii "." ++ key) value ++
      iterateEntries path entries

end

/-- What `loadFromYaml` passes to `fromString`. What `operator<<` prints is a parameter. -/
def Node.print (emit : Node → Bytes) : Node → Bytes
  | .scalar text => text
  | node => emit node

/-- A `ConfigVar<T>` behind a `ConfigVarBase*`. The type `T` is `type`; `texts` are the texts that
`fromString` was called with, the last one first. -/
structure ConfigVar (τ : Type*) where
  name : Bytes
  description : Bytes
  type : τ
  texts : List Bytes
  deriving Repr, DecidableEq

variable {τ : Type*}

namespace ConfigVar

/-- A variable that has been given no text. -/
def new (name : StringView) (type : τ) (description : Bytes) : ConfigVar τ :=
  ⟨name.text, description, type, []⟩

/-- `var->fromString(text)` -/
def fromString (var : ConfigVar τ) (text : Bytes) : ConfigVar τ :=
  { var with texts := text :: var.texts }

end ConfigVar

/-- A call of `add<T>` or of `loadFromYaml`. -/
inductive Call (τ : Type*) where
  | add (name : StringView) (type : τ) (description : Bytes)
  | loadFromYaml (root : Node)

/-- The step that a thread takes next. -/
inductive Pc (τ : Type*) where
  | out
  /-- The section of `lookUp<T>`, called by `add`. -/
  | lookUp (name : StringView) (type : τ) (description : Bytes)
  /-- The section of `add`. -/
  | insert (name : StringView) (type : τ) (description : Bytes)
  /-- The section of `lookUp` for the first of these nodes. -/
  | load (nodes : List (Bytes × Node))
  /-- `var->fromString(text)`, before the loop goes on with `nodes`. -/
  | fromString (var : Nat) (text : Bytes) (nodes : List (Bytes × Node))

/-- The first statement of a call. -/
def Call.start : Call τ → Pc τ
  | .add name type description => .lookUp name type description
  | .loadFromYaml root => .load (iterateNodes [] root)

/-- A call of `add` that has returned, and the pointer that it returned. -/
structure Result (τ : Type*) where
  name : StringView
  type : τ
  var : Nat
  deriving Repr, DecidableEq

/-- A pointer to a variable is an index into `heap`, which has every variable ever created. `vars`
is `getVars()`. -/
structure State (τ : Type*) where
  vars : List (Bytes × Nat)
  heap : List (ConfigVar τ)
  threads : List (Pc τ)
  results : List (Result τ)

namespace State

/-- Thread `tid` goes on. -/
def setPc (s : State τ) (tid : Nat) (pc : Pc τ) : State τ :=
  { s with threads := s.threads.set tid pc }

/-- A call of `add` returns. -/
def hand (s : State τ) (r : Result τ) : State τ := { s with results := r :: s.results }

/-- `lookUp(name)` -/
def lookUp (s : State τ) (name : StringView) : Option Nat := s.vars.lookup name.data

/-- `std::dynamic_pointer_cast<ConfigVar<T>>(var)` -/
def cast [DecidableEq τ] (s : State τ) (type : τ) (var : Nat) : Option Nat :=
  match s.heap[var]? with
  | some v => if v.type = type then some var else none
  | none => none

/-- `lookUp<T>(name)` -/
def lookUpAs [DecidableEq τ] (s : State τ) (type : τ) (name : StringView) : Option Nat :=
  (s.lookUp name).bind (s.cast type)

/-- `getVars().emplace(key, var)`, which keeps an entry that is there. -/
def emplace (s : State τ) (key : Bytes) (var : Nat) : State τ :=
  match s.vars.lookup key with
  | some _ => s
  | none => { s with vars := s.vars ++ [(key, var)] }

/-- The section of `add`: a new variable, and its registration. -/
def insert (s : State τ) (name : StringView) (type : τ) (description : Bytes) : State τ :=
  State.emplace { s with heap := s.heap ++ [.new name type description] } name.text s.heap.length

/-- `var->fromString(text)` -/
def fromString (s : State τ) (var : Nat) (text : Bytes) : State τ :=
  { s with heap := s.heap.modify var (·.fromString text) }

/-- The next step of thread `tid`. -/
def move [DecidableEq τ] (emit : Node → Bytes) (s : State τ) (tid : Nat) : Pc τ → Option (State τ)
  | .out => none
  | .lookUp name type description =>
      match s.lookUpAs type name with
      | some var => some ((s.hand ⟨name, type, var⟩).setPc tid .out)
      | none => some (s.setPc tid (.insert name type description))
  | .insert name type description =>
      some (((s.insert name type description).hand ⟨name, type, s.heap.length⟩).setPc tid .out)
  | .load [] => some (s.setPc tid .out)
  | .load ((path, node) :: nodes) =>
      if path.isEmpty then some (s.setPc tid (.load nodes))
      else
        match s.lookUp (.ofString path) with
        | some var => some (s.setPc tid (.fromString var (node.print emit) nodes))
        | none => some (s.setPc tid (.load nodes))
  | .fromString var text nodes => some ((s.fromString var text).setPc tid (.load nodes))

end State

/-- A step: thread `tid` makes a call, or goes on. -/
inductive Label (τ : Type*) where
  | call (tid : Nat) (c : Call τ)
  | move (tid : Nat)

/-- Any number of threads, outside, and no variable. -/
def init (threads : Nat) : State τ where
  vars := []
  heap := []
  threads := List.replicate threads .out
  results := []

/-- The step function. -/
def step [DecidableEq τ] (emit : Node → Bytes) (s : State τ) : Label τ → Option (State τ)
  | .call tid c =>
      match s.threads[tid]? with
      | some .out => some (s.setPc tid c.start)
      | _ => none
  | .move tid =>
      match s.threads[tid]? with
      | some pc => s.move emit tid pc
      | none => none

end Config

end Saturn
