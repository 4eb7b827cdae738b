import Saturn.Misc.Handles
import Saturn.Misc.Run

/-!
# The descriptors of `Socket`

A program's `Socket` objects, and the descriptors that `socket` and `accept` return to them. A call is
one step, but `connect` and `accept` are two, and `send` and `recv` as many as the hooked `io` calls the
kernel: what other fibers do to the object while a call is suspended stands in between. The kernel
decides how each call ends, and returns a number that is not open. An object lives as long as a call of
it is under way.
-/

namespace Saturn

/-- `Socket`; `sock` is `none` where `m_sock` is -1. -/
structure Socket (Address : Type) where
  sock : Option Nat
  family : Nat
  isConnected : Bool
  localAddress : Option Address
  remoteAddress : Option Address
  deriving Repr, DecidableEq

namespace Socket

variable {Address : Type} (o : Socket Address)

/-- `Socket(family, type, protocol)` -/
def new (family : Nat) : Socket Address := ⟨none, family, false, none, none⟩

/-- `getLocalAddress`, where `getsockname` gives `name` for an open descriptor. -/
def getLocalAddress (name : Option Address) : Socket Address :=
  if o.localAddress.isSome || o.sock.isNone then o else { o with localAddress := name }

/-- `getRemoteAddress`, where `getpeername` gives `name` for an open descriptor. -/
def getRemoteAddress (name : Option Address) : Socket Address :=
  if o.remoteAddress.isSome || o.sock.isNone then o else { o with remoteAddress := name }

/-- The descriptor that the functions `send` and `recv` pass to the kernel; they return -1 without a
call if the socket is not connected. -/
def transfer : Option (Option Nat) := if o.isConnected then some o.sock else none

end Socket

/-- The objects of a program, the descriptors that are open, and of these those that `accept` has let
go; the objects in whose `connect` or `accept` a call of the kernel is under way; and the objects in
whose `send` or `recv` a fiber is suspended in `io`, each with the descriptor `io` was called for. -/
structure Sockets (Address : Type) where
  object : Nat → Option (Socket Address)
  opened : List Nat
  lost : List Nat
  connecting : List Nat
  accepting : List Nat
  transferring : List (Nat × Nat)

namespace Sockets

/-- A call of the object `i`, with what the kernel returns in it. -/
inductive Label (Address : Type)
  /-- `CreateTCP`, its variants, and `CreateUnixUDPSocket` -/
  | createTCP (i family : Nat)
  /-- `CreateUDP` and its variants -/
  | createUDP (i family : Nat) (fd : Option Nat)
  | bind (i : Nat) (addr : Address) (fd : Option Nat) (ok : Bool) (name : Option Address)
  | connect (i : Nat) (addr : Address) (fd : Option Nat)
  /-- The end of `::connect` in `connect` -/
  | connected (i : Nat) (ok : Bool) (peer name : Option Address)
  | close (i : Nat)
  | accept (i : Nat)
  /-- The end of `::accept` in `accept`; `known` is what `init` finds out about the descriptor, and `j`
  the object that is returned. -/
  | accepted (i : Nat) (fd : Option Nat) (known : Bool) (j : Nat) (name peer : Option Address)
  | getLocalAddress (i : Nat) (name : Option Address)
  | getRemoteAddress (i : Nat) (name : Option Address)
  /-- `send` or `recv`, to the end or, where the kernel says `EAGAIN`, until `io` yields. -/
  | transfer (i : Nat) (again : Bool)
  /-- `io` goes on in a `send` or `recv` of `i` and calls the kernel for `fd` once more. -/
  | retry (i fd : Nat) (again : Bool)
  /-- It goes on and returns, as the timer has gone off. -/
  | giveUp (i fd : Nat)
  /-- `~Socket` -/
  | destroy (i : Nat)

section Model

variable {Address : Type} (familyOf : Address → Nat) (s : Sockets Address)

/-- No object has been created. -/
def start : Sockets Address := ⟨fun _ => none, [], [], [], [], []⟩

/-- The object `i` is `o`. -/
def put (i : Nat) (o : Socket Address) : Sockets Address :=
  { s with object := Function.update s.object i (some o) }

/-- `if(!isValid()) newSock()`, where `socket` returns `fd`. -/
def newSock (o : Socket Address) (fd : Option Nat) : Option (Sockets Address × Socket Address) :=
  match o.sock, fd with
  | none, some fd =>
    if fd ∈ s.opened then none
    else some ({ s with opened := fd :: s.opened }, { o with sock := some fd })
  | _, _ => some (s, o)

/-- `Socket::close` -/
def closeSock (i : Nat) (o : Socket Address) : Sockets Address :=
  match o.sock with
  | some fd => { s.put i { o with isConnected := false, sock := none } with
      opened := s.opened.erase fd }
  | none => s.put i { o with isConnected := false }

/-- `bind` behind `newSock`. -/
def bound (o : Socket Address) (addr : Address) (ok : Bool) (name : Option Address) : Socket Address :=
  if o.sock.isNone || familyOf addr != o.family || !ok then o else o.getLocalAddress name

/-- A new object, of which `newSock` is called or not. -/
def create (i family : Nat) : Option (Sockets Address) :=
  if (s.object i).isSome then none else some (s.put i (.new family))

/-- A new UDP object, which counts as connected. -/
def createUDP (i family : Nat) (fd : Option Nat) : Option (Sockets Address) :=
  if (s.object i).isSome then none
  else (s.newSock (.new family) fd).map fun r => r.1.put i { r.2 with isConnected := true }

/-- `connect`, up to the call of `::connect`. -/
def connect (i : Nat) (o : Socket Address) (addr : Address) (fd : Option Nat) :
    Option (Sockets Address) :=
  (s.newSock { o with remoteAddress := some addr } fd).map fun r =>
    if r.2.sock.isNone || familyOf addr != r.2.family then r.1.put i r.2
    else { r.1.put i r.2 with connecting := i :: s.connecting }

/-- `connect` behind the call of `::connect`. -/
def connected (i : Nat) (o : Socket Address) (ok : Bool) (peer name : Option Address) :
    Sockets Address :=
  if ok then
    s.put i ((({ o with isConnected := true }).getRemoteAddress peer).getLocalAddress name)
  else s.closeSock i o

/-- `accept` behind the call of `::accept`, which has returned a descriptor. -/
def accepted (o : Socket Address) (fd : Nat) (known : Bool) (j : Nat) (name peer : Option Address) :
    Option (Sockets Address) :=
  if fd ∈ s.opened then none
  else if !known then some { s with opened := fd :: s.opened, lost := fd :: s.lost }
  else if (s.object j).isSome then none
  else
    some ({ s with opened := fd :: s.opened }.put j
      ((({ Socket.new o.family with sock := some fd, isConnected := true }).getLocalAddress
        name).getRemoteAddress peer))

/-- `send` and `recv`, up to where they return or `io` yields. -/
def transfer (i : Nat) (o : Socket Address) (again : Bool) : Option (Sockets Address) :=
  if again then
    match o.transfer with
    | some (some fd) => some { s with transferring := (i, fd) :: s.transferring }
    | _ => none
  else some s

/-- A call of the program, or of one of its fibers that goes on. -/
def step : Label Address → Option (Sockets Address)
  | .createTCP i family => s.create i family
  | .createUDP i family fd => s.createUDP i family fd
  | .bind i addr fd ok name =>
    (s.object i).bind fun o => (s.newSock o fd).map fun r => r.1.put i (bound familyOf r.2 addr ok name)
  | .connect i addr fd => (s.object i).bind fun o => s.connect familyOf i o addr fd
  | .connected i ok peer name =>
    if i ∈ s.connecting then
      (s.object i).map fun o =>
        { s with connecting := s.connecting.erase i }.connected i o ok peer name
    else none
  | .close i => (s.object i).map fun o => s.closeSock i o
  | .accept i => (s.object i).map fun _ => { s with accepting := i :: s.accepting }
  | .accepted i fd known j name peer =>
    if i ∈ s.accepting then
      (s.object i).bind fun o =>
        match fd with
        | none => some { s with accepting := s.accepting.erase i }
        | some fd => { s with accepting := s.accepting.erase i }.accepted o fd known j name peer
    else none
  | .getLocalAddress i name => (s.object i).map fun o => s.put i (o.getLocalAddress name)
  | .getRemoteAddress i name => (s.object i).map fun o => s.put i (o.getRemoteAddress name)
  | .transfer i again => (s.object i).bind fun o => s.transfer i o again
  | .retry i fd again =>
    if (i, fd) ∈ s.transferring then
      some (if again then s else { s with transferring := s.transferring.erase (i, fd) })
    else none
  | .giveUp i fd =>
    if (i, fd) ∈ s.transferring then
      some { s with transferring := s.transferring.erase (i, fd) }
    else none
  | .destroy i =>
    if i ∈ s.connecting ∨ i ∈ s.accepting ∨ ∃ e ∈ s.transferring, e.1 = i then none
    else (s.object i).map fun o =>
      { s.closeSock i o with object := Function.update s.object i none }

/-- Who holds which descriptor. -/
def handles : Handles Nat Nat where
  held i := (s.object i).bind Socket.sock
  opened := s.opened
  lost := s.lost

end Model

section Steps

variable {Address : Type} {familyOf : Address → Nat} {s t : Sockets Address} {i : Nat}
  {o o' : Socket Address} {fd : Option Nat}

@[simp] theorem sock_getLocalAddress (name : Option Address) :
    (o.getLocalAddress name).sock = o.sock := by
  rw [Socket.getLocalAddress]
  split <;> rfl

@[simp] theorem sock_getRemoteAddress (name : Option Address) :
    (o.getRemoteAddress name).sock = o.sock := by
  rw [Socket.getRemoteAddress]
  split <;> rfl

@[simp] theorem sock_bound (addr : Address) (ok : Bool) (name : Option Address) :
    (bound familyOf o addr ok name).sock = o.sock := by
  rw [bound]
  split <;> simp

theorem handles_put (s : Sockets Address) (i : Nat) (o : Socket Address) :
    (s.put i o).handles = { s.handles with held := Function.update s.handles.held i o.sock } := by
  simp only [handles, put, Handles.mk.injEq, and_true]
  funext j
  by_cases hj : j = i <;> simp [hj]

/-- The object keeps what it has. -/
theorem step_keep (hi : s.handles.held i = o.sock) : (s.put i o).handles = s.handles := by
  rw [handles_put, ← hi, Function.update_eq_self]

theorem held_of_object (h : s.object i = some o) : s.handles.held i = o.sock := by
  simp [handles, h]

/-- `newSock` acquires a descriptor where there is none. -/
theorem step_newSock (hi : s.handles.held i = o.sock) (h : s.newSock o fd = some (t, o'))
    {p : Socket Address} (hp : p.sock = o'.sock) :
    Handles.Step s.handles (t.put i p).handles := by
  unfold newSock at h
  split at h
  · rename_i fd hnone
    split at h
    · cases h
    · rename_i hfresh
      cases h
      rw [handles_put, hp]
      exact .acquire i fd (hi.trans hnone) hfresh
  · cases h
    rw [step_keep (hi.trans hp.symm)]
    exact .keep

theorem step_closeSock (h : s.object i = some o) :
    Handles.Step s.handles (s.closeSock i o).handles := by
  have hi := held_of_object h
  unfold closeSock
  split
  · rename_i fd hfd
    have heq : Sockets.handles { s.put i { o with isConnected := false, sock := none } with
        opened := s.opened.erase fd } =
        { (s.put i { o with isConnected := false, sock := none }).handles with
          opened := s.opened.erase fd } := rfl
    rw [heq, handles_put]
    exact .release i fd (hi.trans hfd)
  · have hput : (s.put i { o with isConnected := false }).handles = s.handles := step_keep hi
    rw [hput]
    exact .keep

theorem step_connected (h : s.object i = some o) (ok : Bool) (peer name : Option Address) :
    Handles.Step s.handles (s.connected i o ok peer name).handles := by
  unfold connected
  split
  · rw [step_keep (by simpa using held_of_object h)]
    exact .keep
  · exact step_closeSock h

theorem step_accepted {fd j : Nat} {known : Bool} {name peer : Option Address}
    (h : s.accepted o fd known j name peer = some t) : Handles.Step s.handles t.handles := by
  unfold accepted at h
  split at h
  · cases h
  rename_i hfresh
  split at h
  · cases h
    exact .lose fd hfresh
  split at h
  · cases h
  · rename_i hnone
    cases h
    rw [handles_put, sock_getRemoteAddress, sock_getLocalAddress]
    have hj : s.object j = none := by simpa using hnone
    have hheld : s.handles.held j = none := by simp [handles, hj]
    exact .acquire j fd hheld hfresh

theorem step_destroy (h : s.object i = some o) :
    Handles.Step s.handles
      (handles { s.closeSock i o with object := Function.update s.object i none }) := by
  have hclose := step_closeSock h
  have hheld : (handles { s.closeSock i o with object := Function.update s.object i none }).held =
      (s.closeSock i o).handles.held := by
    funext j
    unfold closeSock
    split <;> by_cases hj : j = i <;> simp [handles, put, *]
  have heq : handles { s.closeSock i o with object := Function.update s.object i none } =
      (s.closeSock i o).handles := by
    simp only [handles, Handles.mk.injEq, and_true] at hheld ⊢
    exact hheld
  rw [heq]
  exact hclose

/-- `send` and `recv` change nothing but which fibers are suspended in them. -/
theorem transfer_spec {again : Bool} (h : s.transfer i o again = some t) :
    t = s ∨ ∃ fd, o.transfer = some (some fd) ∧
      t = { s with transferring := (i, fd) :: s.transferring } := by
  unfold transfer at h
  split at h
  · split at h
    · rename_i fd hfd
      exact Or.inr ⟨fd, hfd, (Option.some.inj h).symm⟩
    · cases h
  · exact Or.inl (Option.some.inj h).symm

theorem handles_transfer {again : Bool} (h : s.transfer i o again = some t) :
    t.handles = s.handles := by
  rcases transfer_spec h with rfl | ⟨fd, -, rfl⟩
  · rfl
  · rfl

/-- Every call does one thing to the descriptors at most. -/
theorem step_handles {l : Label Address} (h : step familyOf s l = some t) :
    Handles.Step s.handles t.handles := by
  cases l with
  | createTCP i family =>
      simp only [step, create, Option.ite_none_left_eq_some, Option.some.injEq] at h
      obtain ⟨hnone, rfl⟩ := h
      rw [step_keep (by simp [handles, Option.not_isSome_iff_eq_none.mp hnone, Socket.new])]
      exact .keep
  | createUDP i family fd =>
      simp only [step, createUDP, Option.ite_none_left_eq_some] at h
      obtain ⟨⟨u, o⟩, hnew, rfl⟩ := Option.map_eq_some_iff.mp h.2
      exact step_newSock (by simp [handles, Option.not_isSome_iff_eq_none.mp h.1, Socket.new]) hnew
        rfl
  | bind i addr fd ok name =>
      obtain ⟨o, ho, h⟩ := Option.bind_eq_some_iff.mp h
      obtain ⟨⟨u, o'⟩, hnew, rfl⟩ := Option.map_eq_some_iff.mp h
      exact step_newSock (held_of_object ho) hnew (sock_bound ..)
  | connect i addr fd =>
      obtain ⟨o, ho, h⟩ := Option.bind_eq_some_iff.mp h
      obtain ⟨⟨u, o'⟩, hnew, rfl⟩ := Option.map_eq_some_iff.mp h
      have hput : Handles.Step s.handles (u.put i o').handles :=
        step_newSock (o := { o with remoteAddress := some addr })
          (by simpa using held_of_object ho) hnew rfl
      simp only
      split <;> exact hput
  | connected i ok peer name =>
      simp only [step, Option.ite_none_right_eq_some] at h
      obtain ⟨o, ho, rfl⟩ := Option.map_eq_some_iff.mp h.2
      exact step_connected (s := { s with connecting := s.connecting.erase i }) ho ok peer name
  | close i =>
      obtain ⟨o, ho, rfl⟩ := Option.map_eq_some_iff.mp h
      exact step_closeSock ho
  | accept i =>
      obtain ⟨o, ho, rfl⟩ := Option.map_eq_some_iff.mp h
      exact .keep
  | accepted i fd known j name peer =>
      simp only [step, Option.ite_none_right_eq_some] at h
      obtain ⟨o, ho, h⟩ := Option.bind_eq_some_iff.mp h.2
      cases fd with
      | none =>
          cases h
          exact .keep
      | some fd => exact step_accepted (s := { s with accepting := s.accepting.erase i }) h
  | getLocalAddress i name =>
      obtain ⟨o, ho, rfl⟩ := Option.map_eq_some_iff.mp h
      rw [step_keep (by rw [sock_getLocalAddress]; exact held_of_object ho)]
      exact .keep
  | getRemoteAddress i name =>
      obtain ⟨o, ho, rfl⟩ := Option.map_eq_some_iff.mp h
      rw [step_keep (by rw [sock_getRemoteAddress]; exact held_of_object ho)]
      exact .keep
  | transfer i again =>
      obtain ⟨o, ho, h⟩ := Option.bind_eq_some_iff.mp h
      rw [handles_transfer h]
      exact .keep
  | retry i fd again =>
      simp only [step, Option.ite_none_right_eq_some, Option.some.injEq] at h
      obtain ⟨-, rfl⟩ := h
      cases again <;> exact .keep
  | giveUp i fd =>
      simp only [step, Option.ite_none_right_eq_some, Option.some.injEq] at h
      obtain ⟨-, rfl⟩ := h
      exact .keep
  | destroy i =>
      simp only [step, Option.ite_none_left_eq_some] at h
      obtain ⟨o, ho, rfl⟩ := Option.map_eq_some_iff.mp h.2
      exact step_destroy ho

theorem inv_start : (start : Sockets Address).handles.Inv where
  nodup := List.nodup_nil
  unique i j a hi := by cases hi
  apart i a hi := by cases hi
  covered a := by simp [handles, start]

/-- In every state of a run each open descriptor belongs to one object, or `accept` has let it go: no
descriptor is closed twice, or by an object that it does not belong to. -/
theorem handles_inv (familyOf : Address → Nat) (labels : List (Label Address)) :
    StatesMeet (step familyOf) (fun s => s.handles.Inv) start labels := by
  have hstep : ∀ (s : Sockets Address) l t, s.handles.Inv → True → step familyOf s l = some t →
      t.handles.Inv := fun _ _ _ hinv _ hstep => (step_handles hstep).inv hinv
  exact statesMeet_of_invariant (fun _ h => h) hstep labels start inv_start
    (stepsMeet_true labels start)

end Steps

/-! ## What `send` and `recv` reach -/

section Transfers

variable {Address : Type}

/-- The descriptor `fd` is open, and the object `i` holds it. -/
def Holds (s : Sockets Address) (i fd : Nat) : Prop := s.handles.held i = some fd ∧ fd ∈ s.opened

/-- Every call of the kernel that a `send` or `recv` may make next, a new one or one that goes on in
`io`, is on the open descriptor that its object holds. -/
structure NoBadTransfer (s : Sockets Address) : Prop where
  new : ∀ i o, s.object i = some o → ∀ fd, o.transfer = some fd → ∃ a, fd = some a ∧ s.Holds i a
  suspended : ∀ i fd, (i, fd) ∈ s.transferring → s.Holds i fd

/-- No `send` or `recv` of the object is suspended. -/
def Idle (s : Sockets Address) (i : Nat) : Prop := ∀ e ∈ s.transferring, e.1 ≠ i

instance (s : Sockets Address) (i : Nat) : Decidable (s.Idle i) :=
  inferInstanceAs (Decidable (∀ e ∈ s.transferring, e.1 ≠ i))

/-- `socket` does not fail for a new UDP socket, a `::connect` that succeeds finds a descriptor in its
object, and no socket is closed, by `close` or by a `connect` that fails, while a `send` or `recv` of it
is suspended. -/
def Keeps (s : Sockets Address) : Label Address → Prop
  | .createUDP _ _ fd => fd.isSome
  | .connected i ok _ _ =>
    if ok then ∀ o ∈ s.object i, o.sock.isSome else s.Idle i
  | .close i => s.Idle i
  | _ => True

instance (s : Sockets Address) : (l : Label Address) → Decidable (s.Keeps l)
  | .createUDP _ _ fd => inferInstanceAs (Decidable (fd.isSome))
  | .connected i ok _ _ =>
    inferInstanceAs (Decidable (if ok then ∀ o ∈ s.object i, o.sock.isSome else s.Idle i))
  | .close i => inferInstanceAs (Decidable (s.Idle i))
  | .createTCP .. | .bind .. | .connect .. | .accept _ | .accepted .. | .getLocalAddress .. |
    .getRemoteAddress .. | .transfer .. | .retry .. | .giveUp .. | .destroy _ => isTrue trivial

/-- A socket that is connected has a descriptor, and a suspended call is for it. -/
structure Backed (s : Sockets Address) : Prop where
  connected : ∀ i o, s.object i = some o → o.isConnected = true → o.sock ≠ none
  suspended : ∀ i fd, (i, fd) ∈ s.transferring → s.handles.held i = some fd

theorem noBadTransfer_iff {s : Sockets Address} (hinv : s.handles.Inv) :
    NoBadTransfer s ↔ Backed s := by
  constructor
  · refine fun h => ⟨fun i o ho hconn hnone => ?_, fun i fd hfd => (h.suspended i fd hfd).1⟩
    obtain ⟨a, ha, -⟩ := h.new i o ho o.sock (if_pos hconn)
    rw [hnone] at ha
    cases ha
  · intro h
    have hopened : ∀ i fd, s.handles.held i = some fd → s.Holds i fd :=
      fun i fd hheld => ⟨hheld, hinv.opened_of_held (i := i) hheld⟩
    refine ⟨fun i o ho fd hfd => ?_, fun i fd hfd => hopened i fd (h.suspended i fd hfd)⟩
    rw [Socket.transfer, Option.ite_none_right_eq_some] at hfd
    obtain ⟨a, ha⟩ := Option.ne_none_iff_exists'.mp (h.connected i o ho hfd.1)
    refine ⟨a, ?_, hopened i a ((held_of_object ho).trans ha)⟩
    rw [← ha]
    exact (Option.some.inj hfd.2).symm

variable {familyOf : Address → Nat} {s t : Sockets Address} {i : Nat} {o o' : Socket Address}
  {fd : Option Nat}

/-- The object becomes another, which keeps the descriptor that calls are suspended for. -/
theorem backed_put (h : Backed s) (ho : o.isConnected = true → o.sock ≠ none)
    (hkept : ∀ a, (i, a) ∈ s.transferring → o.sock = some a) : Backed (s.put i o) where
  connected := by
    intro j p hp hconn
    by_cases hj : j = i
    · have hpo : o = p := by simpa [put, hj] using hp
      exact hpo ▸ ho (hpo ▸ hconn)
    · exact h.connected j p (by simpa [put, hj] using hp) hconn
  suspended := by
    intro j a hmem
    rw [handles_put]
    change Function.update s.handles.held i o.sock j = some a
    by_cases hj : j = i
    · subst hj
      rw [Function.update_self]
      exact hkept a hmem
    · rw [Function.update_of_ne hj]
      exact h.suspended j a hmem

/-- No call of an object is suspended that is not there. -/
theorem Backed.idle (h : Backed s) (hi : s.object i = none) : s.Idle i := by
  rintro ⟨j, a⟩ hmem rfl
  have hheld := h.suspended j a hmem
  simp [handles, hi] at hheld

/-- The descriptor that a call of the object is suspended for. -/
theorem Backed.sock (h : Backed s) (hi : s.object i = some o) {a : Nat}
    (hmem : (i, a) ∈ s.transferring) : o.sock = some a :=
  (held_of_object hi).symm.trans (h.suspended i a hmem)

/-- `newSock` changes no object, and takes no descriptor away. -/
theorem newSock_spec (h : s.newSock o fd = some (t, o')) : t.object = s.object ∧
    t.transferring = s.transferring ∧ o'.isConnected = o.isConnected ∧
    (∀ a, o.sock = some a → o'.sock = some a) ∧ (fd ≠ none → o'.sock ≠ none) := by
  unfold newSock at h
  split at h
  · rename_i hnone
    split at h <;> cases h
    simp [hnone]
  · rename_i hcases
    cases h
    refine ⟨rfl, rfl, rfl, fun _ => id, fun hfd hnone => ?_⟩
    obtain ⟨a, ha⟩ := Option.ne_none_iff_exists'.mp hfd
    exact hcases a hnone ha

theorem isConnected_getLocalAddress (name : Option Address) :
    (o.getLocalAddress name).isConnected = o.isConnected := by
  rw [Socket.getLocalAddress]
  split <;> rfl

theorem isConnected_getRemoteAddress (name : Option Address) :
    (o.getRemoteAddress name).isConnected = o.isConnected := by
  rw [Socket.getRemoteAddress]
  split <;> rfl

theorem isConnected_bound (addr : Address) (ok : Bool) (name : Option Address) :
    (bound familyOf o addr ok name).isConnected = o.isConnected := by
  rw [bound]
  split
  · rfl
  · exact isConnected_getLocalAddress name

theorem backed_closeSock (h : Backed s) (hidle : s.Idle i) : Backed (s.closeSock i o) := by
  unfold closeSock
  split
  · have hput := backed_put (o := { o with isConnected := false, sock := none }) h
      (fun hconn => absurd hconn Bool.false_ne_true) fun a hmem => absurd rfl (hidle _ hmem)
    exact ⟨hput.connected, hput.suspended⟩
  · exact backed_put h (fun hconn => absurd hconn Bool.false_ne_true)
      fun a hmem => absurd rfl (hidle _ hmem)

/-- What an object becomes in `newSock` is backed if the object is. -/
theorem backed_newSock (h : Backed s) (hnew : s.newSock o fd = some (t, o')) {p : Socket Address}
    (hp : p.isConnected = true → p.sock ≠ none)
    (hkept : ∀ a, (i, a) ∈ s.transferring → p.sock = some a) : Backed (t.put i p) := by
  obtain ⟨hobject, htransferring, -⟩ := newSock_spec hnew
  refine backed_put ⟨fun j q hq => h.connected j q (hobject ▸ hq), fun j a hmem => ?_⟩ hp
    fun a hmem => hkept a (htransferring ▸ hmem)
  have hheld := h.suspended j a (htransferring ▸ hmem)
  simpa only [handles, hobject] using hheld

/-- An object that keeps its flag and its descriptor. -/
theorem backed_same (h : Backed s) (hi : s.object i = some o) {p : Socket Address}
    (hsock : p.sock = o.sock) (hconnected : p.isConnected = o.isConnected) :
    Backed (s.put i p) :=
  backed_put h (fun hconn => hsock ▸ h.connected i o hi (hconnected ▸ hconn))
    fun _ hmem => hsock.trans (h.sock hi hmem)

theorem backed_transfer {again : Bool} (h : Backed s) (hi : s.object i = some o)
    (htransfer : s.transfer i o again = some t) : Backed t := by
  rcases transfer_spec htransfer with rfl | ⟨fd, hfd, rfl⟩
  · exact h
  · refine ⟨h.connected, fun j a hmem => ?_⟩
    rcases List.mem_cons.mp hmem with heq | hmem
    · cases heq
      rw [Socket.transfer, Option.ite_none_right_eq_some] at hfd
      exact (held_of_object hi).trans (Option.some.inj hfd.2)
    · exact h.suspended j a hmem

/-- Fewer calls are suspended. -/
theorem backed_erase (h : Backed s) (e : Nat × Nat) :
    Backed { s with transferring := s.transferring.erase e } :=
  ⟨h.connected, fun i fd hmem => h.suspended i fd (List.mem_of_mem_erase hmem)⟩

theorem backed_connected (h : Backed s) (hi : s.object i = some o) {ok : Bool}
    {peer name : Option Address} (hkeeps : if ok then o.sock ≠ none else s.Idle i) :
    Backed (s.connected i o ok peer name) := by
  unfold connected
  split at hkeeps <;> rename_i hok
  · rw [if_pos hok]
    refine backed_put h (fun _ => by simpa using hkeeps) fun a hmem => ?_
    simpa using h.sock hi hmem
  · rw [if_neg hok]
    exact backed_closeSock h hkeeps

theorem backed_accepted {fd j : Nat} {known : Bool} {name peer : Option Address} (h : Backed s)
    (haccepted : s.accepted o fd known j name peer = some t) : Backed t := by
  simp only [accepted, Option.ite_none_left_eq_some] at haccepted
  obtain ⟨-, haccepted⟩ := haccepted
  split at haccepted
  · cases haccepted
    exact ⟨h.connected, h.suspended⟩
  · simp only [Option.ite_none_left_eq_some, Option.some.injEq] at haccepted
    obtain ⟨hj, rfl⟩ := haccepted
    have hidle := h.idle (Option.not_isSome_iff_eq_none.mp hj)
    exact backed_put (s := { s with opened := fd :: s.opened }) ⟨h.connected, h.suspended⟩
      (fun _ => by simp) fun a hmem => absurd rfl (hidle _ hmem)

theorem backed_destroy (h : Backed s) (hidle : s.Idle i) :
    Backed { s.closeSock i o with object := Function.update s.object i none } := by
  have htransferring : (s.closeSock i o).transferring = s.transferring := by
    unfold closeSock
    split <;> rfl
  refine ⟨fun j p hp hconn => ?_, fun j a hmem => ?_⟩
  · by_cases hj : j = i
    · simp [hj] at hp
    · exact h.connected j p (by simpa [hj] using hp) hconn
  · change (j, a) ∈ (s.closeSock i o).transferring at hmem
    rw [htransferring] at hmem
    have hj : j ≠ i := by
      rintro rfl
      exact hidle _ hmem rfl
    have hheld := h.suspended j a hmem
    simpa [handles, hj] using hheld

theorem backed_step {l : Label Address} (h : Backed s) (hl : Keeps s l)
    (hstep : step familyOf s l = some t) : Backed t := by
  cases l with
  | createTCP i family =>
      simp only [step, create, Option.ite_none_left_eq_some, Option.some.injEq] at hstep
      obtain ⟨hi, rfl⟩ := hstep
      have hidle := h.idle (Option.not_isSome_iff_eq_none.mp hi)
      exact backed_put h (fun hconn => absurd hconn Bool.false_ne_true)
        fun a hmem => absurd rfl (hidle _ hmem)
  | createUDP i family fd =>
      simp only [step, createUDP, Option.ite_none_left_eq_some] at hstep
      obtain ⟨⟨u, o⟩, hnew, rfl⟩ := Option.map_eq_some_iff.mp hstep.2
      have hidle := h.idle (Option.not_isSome_iff_eq_none.mp hstep.1)
      obtain ⟨-, -, -, -, hsome⟩ := newSock_spec hnew
      exact backed_newSock h hnew (fun _ => hsome (Option.isSome_iff_ne_none.mp hl)) fun a hmem => absurd rfl (hidle _ hmem)
  | bind i addr fd ok name =>
      obtain ⟨o, ho, hstep⟩ := Option.bind_eq_some_iff.mp hstep
      obtain ⟨⟨u, o'⟩, hnew, rfl⟩ := Option.map_eq_some_iff.mp hstep
      obtain ⟨-, -, hconn, hkept, -⟩ := newSock_spec hnew
      refine backed_newSock h hnew (fun hconnected => ?_) fun a hmem => ?_
      · rw [isConnected_bound, hconn] at hconnected
        obtain ⟨a, ha⟩ := Option.ne_none_iff_exists'.mp (h.connected i o ho hconnected)
        simp [hkept a ha]
      · rw [sock_bound]
        exact hkept a (h.sock ho hmem)
  | connect i addr fd =>
      obtain ⟨o, ho, hstep⟩ := Option.bind_eq_some_iff.mp hstep
      obtain ⟨⟨u, o'⟩, hnew, rfl⟩ := Option.map_eq_some_iff.mp hstep
      obtain ⟨-, -, hconn, hkept, -⟩ := newSock_spec hnew
      have hput : Backed (u.put i o') := by
        refine backed_newSock h hnew (fun hconnected => ?_) fun a hmem => hkept a (h.sock ho hmem)
        obtain ⟨a, ha⟩ := Option.ne_none_iff_exists'.mp (h.connected i o ho (hconn ▸ hconnected))
        simp [hkept a ha]
      simp only
      split
      · exact hput
      · exact ⟨hput.connected, hput.suspended⟩
  | connected i ok peer name =>
      simp only [step, Option.ite_none_right_eq_some] at hstep
      obtain ⟨o, ho, rfl⟩ := Option.map_eq_some_iff.mp hstep.2
      refine backed_connected (s := { s with connecting := s.connecting.erase i })
        ⟨h.connected, h.suspended⟩ ho ?_
      simp only [Keeps] at hl
      split at hl <;> rename_i hok
      · rw [if_pos hok]
        exact Option.isSome_iff_ne_none.mp (hl o ho)
      · rw [if_neg hok]
        exact hl
  | close i =>
      obtain ⟨o, ho, rfl⟩ := Option.map_eq_some_iff.mp hstep
      exact backed_closeSock h hl
  | accept i =>
      obtain ⟨o, ho, rfl⟩ := Option.map_eq_some_iff.mp hstep
      exact ⟨h.connected, h.suspended⟩
  | accepted i fd known j name peer =>
      simp only [step, Option.ite_none_right_eq_some] at hstep
      obtain ⟨o, ho, hstep⟩ := Option.bind_eq_some_iff.mp hstep.2
      cases fd with
      | none =>
          cases hstep
          exact ⟨h.connected, h.suspended⟩
      | some fd =>
          exact backed_accepted (s := { s with accepting := s.accepting.erase i })
            ⟨h.connected, h.suspended⟩ hstep
  | getLocalAddress i name =>
      obtain ⟨o, ho, rfl⟩ := Option.map_eq_some_iff.mp hstep
      exact backed_same h ho (sock_getLocalAddress name) (isConnected_getLocalAddress name)
  | getRemoteAddress i name =>
      obtain ⟨o, ho, rfl⟩ := Option.map_eq_some_iff.mp hstep
      exact backed_same h ho (sock_getRemoteAddress name) (isConnected_getRemoteAddress name)
  | transfer i again =>
      obtain ⟨o, ho, hstep⟩ := Option.bind_eq_some_iff.mp hstep
      exact backed_transfer h ho hstep
  | retry i fd again =>
      simp only [step, Option.ite_none_right_eq_some, Option.some.injEq] at hstep
      obtain ⟨-, rfl⟩ := hstep
      cases again with
      | true => exact h
      | false => exact backed_erase h (i, fd)
  | giveUp i fd =>
      simp only [step, Option.ite_none_right_eq_some, Option.some.injEq] at hstep
      obtain ⟨-, rfl⟩ := hstep
      exact backed_erase h (i, fd)
  | destroy i =>
      simp only [step, Option.ite_none_left_eq_some] at hstep
      obtain ⟨hfree, hstep⟩ := hstep
      obtain ⟨o, ho, rfl⟩ := Option.map_eq_some_iff.mp hstep
      exact backed_destroy h fun e hmem heq => hfree (Or.inr (Or.inr ⟨e, hmem, heq⟩))

/-- A socket that is closed leaves the calls suspended in it without their descriptor. -/
theorem not_backed_closeSock (hidle : ¬ s.Idle i) : ¬ Backed (s.closeSock i o) := by
  intro h
  simp only [Idle, not_forall, not_not] at hidle
  obtain ⟨⟨j, a⟩, hmem, rfl⟩ := hidle
  have hheld := h.suspended j a (by unfold closeSock; split <;> exact hmem)
  unfold closeSock at hheld
  split at hheld
  · simp [handles, put] at hheld
  · rename_i hnone
    simp [handles, put, hnone] at hheld

/-- A step outside the condition leaves a call that would reach no descriptor of its object. -/
theorem not_backed_step {l : Label Address} (hl : ¬Keeps s l)
    (hstep : step familyOf s l = some t) : ¬Backed t := by
  cases l with
  | createUDP i family fd =>
      intro h
      obtain rfl : fd = none := Option.not_isSome_iff_eq_none.mp hl
      simp only [step, createUDP, newSock, Socket.new, Option.map_some,
        Option.ite_none_left_eq_some, Option.some.injEq] at hstep
      obtain ⟨-, rfl⟩ := hstep
      exact h.connected i { Socket.new family with isConnected := true } (by simp [put, Socket.new])
        rfl rfl
  | connected i ok peer name =>
      simp only [step, Option.ite_none_right_eq_some] at hstep
      obtain ⟨o, ho, rfl⟩ := Option.map_eq_some_iff.mp hstep.2
      simp only [Keeps] at hl
      unfold connected
      split at hl <;> rename_i hok
      · simp only [not_forall] at hl
        obtain ⟨o', ho', hnone⟩ := hl
        cases ho.symm.trans ho'
        rw [Option.not_isSome_iff_eq_none] at hnone
        rw [if_pos hok]
        refine fun h => h.connected i _ (Function.update_self ..) ?_ (by simpa using hnone)
        rw [isConnected_getLocalAddress, isConnected_getRemoteAddress]
      · rw [if_neg hok]
        exact not_backed_closeSock (s := { s with connecting := s.connecting.erase i }) hl
  | close i =>
      obtain ⟨o, ho, rfl⟩ := Option.map_eq_some_iff.mp hstep
      exact not_backed_closeSock hl
  | createTCP | bind | connect | accept | accepted | getLocalAddress | getRemoteAddress |
      transfer | retry | giveUp | destroy => exact fun _ => hl trivial

/-- In a run that comes to its end, `send` and `recv` reach the descriptors of their objects only,
exactly if no step breaks the condition. -/
theorem noBadTransfer_run_iff (familyOf : Address → Nat) (labels : List (Label Address))
    (hrun : (run (step familyOf) start labels).isSome = true) :
    StatesMeet (step familyOf) NoBadTransfer start labels ↔
      StepsMeet (step familyOf) Keeps start labels := by
  have hstart : (start : Sockets Address).handles.Inv ∧ Backed (start : Sockets Address) :=
    ⟨inv_start, fun i o ho => (by cases ho), fun i a hmem => (by cases hmem)⟩
  have hinv : ∀ (s : Sockets Address) l t, s.handles.Inv ∧ Backed s → Keeps s l →
      step familyOf s l = some t → t.handles.Inv ∧ Backed t := fun s l t h hl hstep =>
    ⟨(step_handles hstep).inv h.1, backed_step h.2 hl hstep⟩
  constructor
  · refine stepsMeet_of_statesMeet hinv (fun s l t h hl hstep hgood => ?_) labels start hstart hrun
    exact not_backed_step hl hstep ((noBadTransfer_iff ((step_handles hstep).inv h.1)).mp hgood)
  · exact statesMeet_of_invariant (fun s h => (noBadTransfer_iff h.1).mpr h.2) hinv labels start
      hstart

/-- A server that accepts a client, where the name 1 is the server's and 2 the client's, and waits for
what the client sends before it closes both. -/
def acceptRun : List (Label Nat) :=
  [.createTCP 0 2, .bind 0 1 (some 3) true (some 1), .accept 0, .accepted 0 (some 4) true 1 (some 1)
    (some 2), .transfer 1 true, .retry 1 4 false, .close 1, .close 0, .destroy 1, .destroy 0]

theorem noBadTransfer_acceptRun :
    StatesMeet (step fun _ => 2) NoBadTransfer start acceptRun := by
  refine (noBadTransfer_run_iff (fun _ => 2) acceptRun rfl).mpr ?_
  decide

end Transfers

end Sockets

end Saturn
