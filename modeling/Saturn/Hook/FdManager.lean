import Mathlib.Data.List.Basic
import Saturn.Misc.ListUpdate
import Saturn.Misc.Run

/-!
# `FdContext` and `FdManager`

The table of `saturn/fdmanager.cc`: a vector of pointers to contexts, indexed by descriptor. `get`
looks a descriptor up under the shared lock; where it is to create the context it lets go of the
lock, constructs one, and stores it under the unique lock without looking again. Each locked section
is one step, and other threads may step in between.
-/

namespace Saturn

namespace Hook

/-- `SO_RCVTIMEO` and `SO_SNDTIMEO`, the values of `type` in `setTimeout` and `getTimeout`. -/
def SO_RCVTIMEO : Int := 20

/-- The timeout for sending. -/
def SO_SNDTIMEO : Int := 21

/-- The fields of `FdContext`. -/
structure FdContext where
  isInit : Bool
  isSocket : Bool
  sysNonblock : Bool
  userNonblock : Bool
  isClosed : Bool
  fd : Int
  recvTimeout : UInt64
  sendTimeout : UInt64
  deriving DecidableEq, Repr

namespace FdContext

/-- `FdContext::FdContext(fd)`, with `init()`: `stat` is what `fstat` says of `S_ISSOCK`, or `none`
if it fails. That `init` sets `O_NONBLOCK` on the socket is the kernel's part. -/
def new (fd : Int) (stat : Option Bool) : FdContext :=
  let ctx : FdContext :=
    { isInit := false, isSocket := false, sysNonblock := false, userNonblock := false,
      isClosed := false, fd := fd, recvTimeout := -1, sendTimeout := -1 }
  match stat with
  | none => ctx
  | some isSocket =>
      { ctx with
        isInit := true
        isSocket := isSocket
        sysNonblock := isSocket
        userNonblock := false
        isClosed := false }

/-- `FdContext::setTimeout` -/
def setTimeout (ctx : FdContext) (type : Int) (v : UInt64) : FdContext :=
  if type = SO_RCVTIMEO then { ctx with recvTimeout := v } else { ctx with sendTimeout := v }

/-- `FdContext::getTimeout` -/
def getTimeout (ctx : FdContext) (type : Int) : UInt64 :=
  if type = SO_RCVTIMEO then ctx.recvTimeout else ctx.sendTimeout

/-- `FdContext::setUserNonblock` -/
def setUserNonblock (ctx : FdContext) (v : Bool) : FdContext := { ctx with userNonblock := v }

@[simp] theorem getTimeout_setTimeout (ctx : FdContext) (type : Int) (v : UInt64) :
    (ctx.setTimeout type v).getTimeout type = v := by
  by_cases h : type = SO_RCVTIMEO
  · rw [setTimeout, getTimeout, if_pos h, if_pos h]
  · rw [setTimeout, getTimeout, if_neg h, if_neg h]

@[simp] theorem userNonblock_setUserNonblock (ctx : FdContext) (v : Bool) :
    (ctx.setUserNonblock v).userNonblock = v := rfl

end FdContext

/-- `while (m_datas.size() <= fd) m_datas.resize(m_datas.size() * 2)`: the size it ends with, after
at most the given number of turns. -/
def doubled : Nat → Nat → Nat → Nat
  | 0, len, _ => len
  | turns + 1, len, fd => if len ≤ fd then doubled turns (len * 2) fd else len

/-- `fd` turns are enough for a vector that is not empty. -/
theorem lt_doubled : ∀ {turns len fd : Nat}, 0 < len → fd < len + turns →
    fd < doubled turns len fd := by
  intro turns
  induction turns with
  | zero => intro len fd _ h; exact h
  | succ turns ih =>
      intro len fd hlen h
      rw [doubled]
      split
      · exact ih (by omega) (by omega)
      · omega

theorem le_doubled : ∀ (turns len fd : Nat), len ≤ doubled turns len fd := by
  intro turns
  induction turns with
  | zero => intro len fd; exact Nat.le_refl _
  | succ turns ih =>
      intro len fd
      rw [doubled]
      split
      · exact Nat.le_trans (by omega) (ih (len * 2) fd)
      · exact Nat.le_refl _

/-- `m_datas`, generic in what a slot points to. -/
structure FdManager (α : Type) where
  datas : List (Option α)
  deriving DecidableEq, Repr

namespace FdManager

variable {α : Type}

/-- `FdManager::FdManager()`. -/
def init : FdManager α := ⟨List.replicate 64 none⟩

/-- What slot `fd` points to; a slot behind the end of the vector has nothing. -/
def slot (m : FdManager α) (fd : Nat) : Option α := (m.datas[fd]?).join

/-- The shared section of `get`: its result, or `none` if a context has to be created. -/
def lookup (m : FdManager α) (fd : Nat) (autoCreate : Bool) : Option (Option α) :=
  if m.datas.length ≤ fd then
    if !autoCreate then some none else none
  else if (m.slot fd).isSome || !autoCreate then some (m.slot fd)
  else none

/-- The unique section of `get`: make room for `fd` and point its slot to the new context. -/
def insert (m : FdManager α) (fd : Nat) (ctx : α) : FdManager α :=
  let size := doubled fd m.datas.length fd
  ⟨(m.datas ++ List.replicate (size - m.datas.length) none).set fd (some ctx)⟩

/-- `del(fd)`; a negative `fd` is larger than any size once it is converted to `size_t`. -/
def del (m : FdManager α) (fd : Int) : FdManager α :=
  if fd < 0 ∨ m.datas.length ≤ fd.toNat then m else ⟨m.datas.set fd.toNat none⟩

@[simp] theorem slot_init (fd : Nat) : (init : FdManager α).slot fd = none := by
  rw [slot, init, List.getElem?_replicate]
  split <;> rfl

@[simp] theorem init_size : (init : FdManager α).datas.length = 64 := List.length_replicate

theorem insert_size (m : FdManager α) (fd : Nat) (ctx : α) :
    m.datas.length ≤ (m.insert fd ctx).datas.length := by
  have := le_doubled fd m.datas.length fd
  simp only [insert, List.length_set, List.length_append, List.length_replicate]
  omega

theorem slot_insert {m : FdManager α} (h : 0 < m.datas.length) (fd : Nat) (ctx : α) (fd' : Nat) :
    (m.insert fd ctx).slot fd' = if fd' = fd then some ctx else m.slot fd' := by
  have hroom := lt_doubled h (show fd < m.datas.length + fd by omega)
  rw [insert, slot]
  dsimp only
  rw [List.getElem?_set]
  by_cases heq : fd = fd'
  · rw [if_pos heq, if_pos heq.symm, if_pos]
    · rfl
    · rw [List.length_append, List.length_replicate]
      omega
  · rw [if_neg heq, if_neg (Ne.symm heq), slot]
    by_cases hin : fd' < m.datas.length
    · rw [List.getElem?_append_left hin]
    · have hnone : m.datas[fd']? = none := List.getElem?_eq_none (by omega)
      rw [List.getElem?_append_right (by omega), hnone, List.getElem?_replicate]
      split <;> rfl

@[simp] theorem del_size (m : FdManager α) (fd : Int) :
    (m.del fd).datas.length = m.datas.length := by
  rw [del]
  split
  · rfl
  · exact List.length_set

theorem slot_del (m : FdManager α) (fd : Int) (fd' : Nat) :
    (m.del fd).slot fd' = if fd = (fd' : Int) then none else m.slot fd' := by
  rw [del]
  by_cases hout : fd < 0 ∨ m.datas.length ≤ fd.toNat
  · rw [if_pos hout]
    split
    · rename_i heq
      rw [slot, List.getElem?_eq_none (by omega)]
      rfl
    · rfl
  · rw [if_neg hout, slot, List.getElem?_set]
    by_cases heq : fd = (fd' : Int)
    · have hnat : fd.toNat = fd' := by omega
      rw [if_pos heq, if_pos hnat, if_pos (by omega)]
      rfl
    · have hnat : fd.toNat ≠ fd' := by omega
      rw [if_neg heq, if_neg hnat, slot]

/-- What `lookup` returns is what the slot holds, and it goes on to create a context only for an
empty slot. -/
theorem lookup_eq (m : FdManager α) (fd : Nat) (autoCreate : Bool) :
    m.lookup fd autoCreate =
      if m.slot fd = none ∧ autoCreate = true then none else some (m.slot fd) := by
  rw [lookup]
  by_cases hout : m.datas.length ≤ fd
  · have hslot : m.slot fd = none := by
      rw [slot, List.getElem?_eq_none hout]
      rfl
    rw [if_pos hout, hslot]
    cases autoCreate <;> rfl
  · rw [if_neg hout]
    cases hslot : m.slot fd with
    | none => cases autoCreate <;> rfl
    | some ctx => cases autoCreate <;> rfl

end FdManager

end Hook

end Saturn
