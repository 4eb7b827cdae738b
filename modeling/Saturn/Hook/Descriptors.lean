import Mathlib.Logic.Function.Basic
import Saturn.Hook.FdManager

/-!
# The descriptor hooks

The wrappers of `saturn/hook.cc` that create, close and configure descriptors, over the table of
contexts and what the kernel knows of each descriptor. A call is one step; the thread that makes it
has the hook enabled or not (`t_hook_enable`). The kernel hands out any number that is not open.
-/

namespace Saturn

namespace Hook

/-- An `int` of file status flags. -/
abbrev Flags := BitVec 32

/-- `04000`. -/
def O_NONBLOCK : Flags := BitVec.twoPow 32 11

/-- `(bool)(flags & O_NONBLOCK)` -/
def isNonblock (flags : Flags) : Bool := flags &&& O_NONBLOCK != 0#32

theorem isNonblock_eq (flags : Flags) : isNonblock flags = flags.getLsbD 11 := by
  rw [isNonblock, O_NONBLOCK, BitVec.and_twoPow]
  cases flags.getLsbD 11 <;> rfl

@[simp] theorem isNonblock_or (flags : Flags) : isNonblock (flags ||| O_NONBLOCK) = true := by
  rw [isNonblock_eq]
  simp [O_NONBLOCK]

@[simp] theorem isNonblock_and_not (flags : Flags) :
    isNonblock (flags &&& ~~~O_NONBLOCK) = false := by
  rw [isNonblock_eq]
  simp [O_NONBLOCK]

/-- `SOL_SOCKET`. -/
def SOL_SOCKET : Int := 1

/-- What the kernel knows of an open descriptor. -/
structure File where
  isSocket : Bool
  flags : Flags
  deriving DecidableEq, Repr

/-- `F_SETFL` with `arg`: the kernel takes `O_NONBLOCK` from it, and decides what the other flags
are afterwards. -/
def File.setfl (file : File) (arg others : Flags) : File :=
  { file with flags := if isNonblock arg then others ||| O_NONBLOCK else others &&& ~~~O_NONBLOCK }

/-- `FIONBIO` with `value`. -/
def File.fionbio (file : File) (value : Int) : File :=
  { file with
    flags := if value ≠ 0 then file.flags ||| O_NONBLOCK else file.flags &&& ~~~O_NONBLOCK }

/-- The kernel's descriptors, the table of contexts, and what the program last asked of
`O_NONBLOCK` on each descriptor. -/
structure Process where
  kernel : Int → Option File
  manager : FdManager FdContext
  asked : Int → Bool

namespace Process

/-- `FdManager::GetInstance()->get(fd)`. -/
def get (s : Process) (fd : Int) : Option FdContext :=
  if fd < 0 then none else s.manager.slot fd.toNat

/-- What a call changes of the context of `fd`, if there is one. -/
def setContext (s : Process) (fd : Int) (f : FdContext → FdContext) : Process :=
  match s.get fd with
  | some ctx => { s with manager := s.manager.insert fd.toNat (f ctx) }
  | none => s

/-- The kernel has another file for the number. -/
def setFile (s : Process) (fd : Int) (file : Option File) : Process :=
  { s with kernel := Function.update s.kernel fd file }

/-- What the program has asked for. -/
def ask (s : Process) (fd : Int) (nonblock : Bool) : Process :=
  { s with asked := Function.update s.asked fd nonblock }

/-- `get(fd, true)`, with the part of `FdContext::init` that the kernel sees. -/
def getOrCreate (s : Process) (fd : Int) : Process :=
  if fd < 0 then s
  else
    match s.manager.lookup fd.toNat true with
    | some _ => s
    | none =>
        let s := { s with
          manager := s.manager.insert fd.toNat (.new fd ((s.kernel fd).map File.isSocket)) }
        match s.kernel fd with
        | some file =>
            if file.isSocket ∧ ¬ isNonblock file.flags then
              s.setFile fd (some (file.setfl (file.flags ||| O_NONBLOCK) file.flags))
            else s
        | none => s

/-- The kernel hands out `fd` for a new socket with `flags`. -/
def opened (s : Process) (fd : Int) (flags : Flags) : Process :=
  (s.setFile fd (some ⟨true, flags⟩)).ask fd false

/-- `!ctx || ctx->isClose() || !ctx->isSocket()`, the other way round. -/
def hasSocketContext (s : Process) (fd : Int) : Option FdContext :=
  (s.get fd).filter fun ctx => !ctx.isClosed && ctx.isSocket

/-- `fcntl(fd, F_SETFL, arg)`: what it passes on to the kernel. -/
def setflArg (s : Process) (fd : Int) (arg : Flags) : Flags :=
  match s.hasSocketContext fd with
  | none => arg
  | some ctx => if ctx.sysNonblock then arg ||| O_NONBLOCK else arg &&& ~~~O_NONBLOCK

/-- `fcntl_f(fd, F_GETFL)`: -1 for a descriptor that is not open. -/
def kernelGetfl (s : Process) (fd : Int) : Flags :=
  match s.kernel fd with
  | some file => file.flags
  | none => BitVec.allOnes 32

/-- `fcntl(fd, F_GETFL)`. -/
def getfl (s : Process) (fd : Int) : Flags :=
  match s.hasSocketContext fd with
  | none => s.kernelGetfl fd
  | some ctx =>
      if ctx.userNonblock then s.kernelGetfl fd ||| O_NONBLOCK
      else s.kernelGetfl fd &&& ~~~O_NONBLOCK

end Process

/-- The milliseconds that `setsockopt` stores for a `timeval`. -/
def timevalMs (sec usec : Int) : UInt64 := UInt64.ofInt (sec * 1000 + usec.tdiv 1000)

/-- A call. `hook` is whether the thread has the hook enabled, `iom` whether it has an `IOManager`;
`ret` is what the kernel gives a new socket (number and flags), and `ok` whether the system call
succeeds. -/
inductive Call where
  | socket (hook : Bool) (ret : Option (Int × Flags))
  | accept (hook : Bool) (ret : Option (Int × Flags))
  | close (hook : Bool) (fd : Int)
  | setsockopt (hook : Bool) (fd level optname sec usec : Int)
  | setfl (fd : Int) (arg others : Flags) (ok : Bool)
  | getfl (fd : Int)
  | fionbio (d value : Int) (ok : Bool)

open Process in
/-- The step function. -/
def step (s : Process) : Call → Option Process
  | .socket hook ret =>
      match ret with
      | none => some s
      | some (fd, flags) =>
          if fd < 0 ∨ (s.kernel fd).isSome then none
          else if hook then some ((s.opened fd flags).getOrCreate fd)
          else some (s.opened fd flags)
  | .accept _ ret =>
      match ret with
      | none => some s
      | some (fd, flags) =>
          -- `accept` makes the context whether the hook is enabled or not
          if fd < 0 ∨ (s.kernel fd).isSome then none
          else some ((s.opened fd flags).getOrCreate fd)
  | .close hook fd =>
      let s := if hook ∧ (s.get fd).isSome then { s with manager := s.manager.del fd } else s
      some (s.setFile fd none)
  | .setsockopt hook fd level optname sec usec =>
      if hook ∧ level = SOL_SOCKET ∧ (optname = SO_RCVTIMEO ∨ optname = SO_SNDTIMEO) then
        some (s.setContext fd (·.setTimeout optname (timevalMs sec usec)))
      else some s
  | .setfl fd arg others ok =>
      let pass := s.setflArg fd arg
      let s' := if (s.hasSocketContext fd).isSome then
          s.setContext fd (·.setUserNonblock (isNonblock arg))
        else s
      let s' := s'.ask fd (isNonblock arg)
      match s.kernel fd with
      | some file => some (if ok then s'.setFile fd (some (file.setfl pass others)) else s')
      | none => some s'
  | .getfl _ => some s
  | .fionbio d value ok =>
      let s' := if (s.hasSocketContext d).isSome then
          s.setContext d (·.setUserNonblock (value ≠ 0))
        else s
      let s' := s'.ask d (value ≠ 0)
      match s.kernel d with
      | some file => some (if ok then s'.setFile d (some (file.fionbio value)) else s')
      | none => some s'

/-- No context yet; the kernel has some descriptors that the program did not open itself. -/
def initProcess (kernel : Int → Option File) : Process where
  kernel := kernel
  manager := .init
  asked := fun _ => false

end Hook

end Saturn
