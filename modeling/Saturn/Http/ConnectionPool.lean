import Mathlib.Logic.Function.Basic
import Saturn.Misc.ListUpdate
import Saturn.Misc.Run

/-!
# `HttpConnectionPool`

`getConnection` and `ReleasePtr` of `http/http_connection.cc`, called by any number of threads. The
section under `m_mutex`, each update of the atomic `m_total`, each `delete` and the call of the
deleter are steps of their own. A connection is known by the number of connections made before it,
so that a deleted one keeps its number. The peer may close a connection at any time.
-/

namespace Saturn

namespace Http

/-- `HttpConnection`: what the pool reads of it, when it was really made, and how often it has been
handed out. -/
structure HttpConnection where
  createTime : UInt64
  request : UInt64
  isConnected : Bool
  born : UInt64
  handouts : Nat
  deriving DecidableEq, Repr

/-- `new HttpConnection(sock)`, with a socket that has been connected. -/
def HttpConnection.new (now : UInt64) : HttpConnection where
  createTime := 0
  request := 0
  isConnected := true
  born := now
  handouts := 0

/-- `++ptr->m_request` -/
def HttpConnection.served (ptr : HttpConnection) : HttpConnection :=
  { ptr with request := ptr.request + 1 }

namespace Pool

/-- The limits of an `HttpConnectionPool`. -/
structure Limits where
  maxSize : UInt32
  maxAliveTime : UInt32
  maxRequest : UInt32
  deriving DecidableEq, Repr

/-- What a thread does next. -/
inductive Pc where
  | out
  /-- `getConnection`: the section under the lock, with `now_ms`. -/
  | take (now : UInt64)
  /-- The loop that deletes `invalid_conns`, then `m_total -= invalid_conns.size()`. -/
  | discard (todo : List Nat) (n : Nat) (ptr : Option Nat)
  /-- `if(!ptr)`: look up the address, make a socket and connect it. -/
  | connect
  /-- `++m_total` -/
  | count (c : Nat)
  /-- `return HttpConnection::ptr(ptr, ..)` -/
  | give (c : Nat)
  /-- `ReleasePtr`: `++ptr->m_request` and the tests. -/
  | release (c : Nat)
  /-- `delete ptr` -/
  | delete (c : Nat)
  /-- `--pool->m_total` -/
  | uncount
  /-- `pool->m_conns.push_back(ptr)`, under the lock. -/
  | push (c : Nat)
  deriving DecidableEq, Repr

/-- A pool and the threads that call it. -/
structure State where
  conns : List Nat
  total : Int32
  heap : Nat → HttpConnection
  /-- The number of connections made so far. -/
  made : Nat
  /-- The connections with an outstanding handle. -/
  handed : List Nat
  deleted : List Nat
  clock : UInt64
  threads : List Pc

/-- A thread calls `getConnection`, drops the last copy of a handle, or goes on; `made` is whether a
new connection comes about. A holder uses its handle, the peer closes a connection, and the clock
moves on. -/
inductive Label where
  | getConnection (tid : Nat)
  | drop (tid c : Nat)
  | move (tid : Nat) (made : Bool)
  | use (c : Nat)
  | close (c : Nat)
  | tick (now : UInt64)
  deriving DecidableEq, Repr

/-- The loop of `getConnection` over `m_conns`: the connections it puts into `invalid_conns`, the one
it keeps, and what is left of `m_conns`. -/
def takeIdle (lim : Limits) (now : UInt64) (heap : Nat → HttpConnection) :
    List Nat → List Nat × Option Nat × List Nat
  | [] => ([], none, [])
  | conn :: rest =>
      if !(heap conn).isConnected then
        let (invalid, ptr, left) := takeIdle lim now heap rest
        (conn :: invalid, ptr, left)
      else if (heap conn).createTime + lim.maxAliveTime.toUInt64 > now then
        let (invalid, ptr, left) := takeIdle lim now heap rest
        (conn :: invalid, ptr, left)
      else ([], some conn, rest)

/-- The tests of `ReleasePtr`, after `++ptr->m_request`: whether it deletes the connection. -/
def expires (lim : Limits) (now : UInt64) (ptr : HttpConnection) : Bool :=
  !ptr.isConnected || ptr.createTime + lim.maxAliveTime.toUInt64 ≥ now ||
    ptr.request ≥ lim.maxRequest.toUInt64

namespace State

/-- Thread `tid` goes on. -/
def goto (s : State) (tid : Nat) (pc : Pc) : State := { s with threads := s.threads.set tid pc }

/-- Connection `c` changes. -/
def setConn (s : State) (c : Nat) (conn : HttpConnection) : State :=
  { s with heap := Function.update s.heap c conn }

/-- The next step of a thread inside `getConnection` or `ReleasePtr`. -/
def moves (lim : Limits) (s : State) (tid : Nat) (made : Bool) : Pc → Option State
  | .out => none
  | .take now =>
      let (invalid, ptr, left) := takeIdle lim now s.heap s.conns
      some ({ s with conns := left }.goto tid (.discard invalid invalid.length ptr))
  | .discard (c :: todo) n ptr =>
      some ({ s with deleted := c :: s.deleted }.goto tid (.discard todo n ptr))
  | .discard [] n ptr =>
      some ({ s with total := s.total - Int32.ofNat n }.goto tid
        (match ptr with
        | some c => .give c
        | none => .connect))
  | .connect =>
      -- each of the three ways to fail returns `nullptr`
      if made then
        some (({ s with made := s.made + 1 }.setConn s.made (.new s.clock)).goto tid
          (.count s.made))
      else some (s.goto tid .out)
  | .count c => some ({ s with total := s.total + 1 }.goto tid (.give c))
  | .give c =>
      let conn := s.heap c
      some (({ s with handed := c :: s.handed }.setConn c
        { conn with handouts := conn.handouts + 1 }).goto tid .out)
  | .release c =>
      let conn := (s.heap c).served
      some ((s.setConn c conn).goto tid (if expires lim s.clock conn then .delete c else .push c))
  | .delete c => some ({ s with deleted := c :: s.deleted }.goto tid .uncount)
  | .uncount => some ({ s with total := s.total - 1 }.goto tid .out)
  | .push c => some ({ s with conns := s.conns ++ [c] }.goto tid .out)

end State

/-- The step function. -/
def step (lim : Limits) (s : State) : Label → Option State
  | .getConnection tid =>
      match s.threads[tid]? with
      | some .out => some (s.goto tid (.take s.clock))
      | _ => none
  | .drop tid c =>
      match s.threads[tid]? with
      | some .out =>
          if c ∈ s.handed then
            some ({ s with handed := s.handed.erase c }.goto tid (.release c))
          else none
      | _ => none
  | .move tid made => (s.threads[tid]?).bind (s.moves lim tid made)
  | .use c => if c ∈ s.handed then some s else none
  | .close c =>
      if c < s.made then some (s.setConn c { s.heap c with isConnected := false }) else none
  | .tick now => if s.clock ≤ now then some { s with clock := now } else none

/-- What the loop over `m_conns` takes and what it leaves. -/
theorem takeIdle_spec (lim : Limits) (now : UInt64) (heap : Nat → HttpConnection) :
    ∀ {conns invalid left : List Nat} {ptr : Option Nat},
      takeIdle lim now heap conns = (invalid, ptr, left) →
      conns = invalid ++ (ptr.toList ++ left) := by
  intro conns
  induction conns with
  | nil =>
      intro invalid left ptr h
      cases h
      rfl
  | cons conn rest ih =>
      intro invalid left ptr h
      cases hrest : takeIdle lim now heap rest with
      | mk invalid' more =>
          have hsplit := ih hrest
          simp only [takeIdle, hrest] at h
          split at h
          · cases h
            rw [hsplit, List.cons_append]
          · split at h
            · cases h
              rw [hsplit, List.cons_append]
            · cases h
              rfl

/-- The pool as it is constructed, and threads that have not called it yet. -/
def init (threads : Nat) (now : UInt64) : State where
  conns := []
  total := 0
  heap := fun _ => .new 0
  made := 0
  handed := []
  deleted := []
  clock := now
  threads := List.replicate threads .out

end Pool

end Http

end Saturn
