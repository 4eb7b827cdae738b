import Mathlib.Data.List.Induction
import Saturn.Hook.Contexts

/-!
# Socket timeouts

The timeouts of `saturn/socket.cc`. A value goes from milliseconds to a `timeval` in `Socket`, from
there back to milliseconds in the hooked `setsockopt`, and into the field of the `FdContext` that
the option names. Reading a timeout takes the field as it is.
-/

namespace Saturn

namespace Hook

/-- `struct timeval`. -/
structure Timeval where
  sec : Int
  usec : Int
  deriving DecidableEq, Repr

/-- The `timeval` is one the kernel takes, and stands for `v` milliseconds. -/
def Timeval.Represents (tv : Timeval) (v : Int) : Prop :=
  0 ≤ tv.usec ∧ tv.usec < 1000000 ∧ tv.sec * 1000000 + tv.usec = v * 1000

instance (tv : Timeval) (v : Int) : Decidable (tv.Represents v) :=
  inferInstanceAs (Decidable (_ ∧ _ ∧ _))

namespace Socket

/-- `struct timeval tv {int (v / 1000), int(v / 1000 * 1000)}`. -/
def timeval (v : Int64) : Timeval where
  sec := (v / 1000).toInt32.toInt
  usec := (v / 1000 * 1000).toInt32.toInt

/-- `setOption(level, option, tv)`, by a thread that has the hook enabled. -/
def setOption (sock level option : Int) (tv : Timeval) : Call :=
  .setsockopt true sock level option tv.sec tv.usec

/-- `Socket::setSendTimeOut`, which sets the other option. -/
def setSendTimeOut (sock : Int) (v : Int64) : Call :=
  setOption sock SOL_SOCKET SO_RCVTIMEO (timeval v)

/-- `Socket::setRecvTimeout` -/
def setRecvTimeout (sock : Int) (v : Int64) : Call :=
  setOption sock SOL_SOCKET SO_RCVTIMEO (timeval v)

/-- `Socket::getSendTimeout` -/
def getSendTimeout (s : Process) (sock : Int) : Int64 :=
  match s.get sock with
  | some ctx => (ctx.getTimeout SO_SNDTIMEO).toInt64
  | none => -1

/-- `Socket::getRecvTimeout` -/
def getRecvTimeout (s : Process) (sock : Int) : Int64 :=
  match s.get sock with
  | some ctx => (ctx.getTimeout SO_RCVTIMEO).toInt64
  | none => -1

/-- One of the two setters, with its argument. -/
inductive SetTimeout where
  | send (v : Int64)
  | recv (v : Int64)
  deriving DecidableEq, Repr

namespace SetTimeout

/-- The value that is set. -/
def ms : SetTimeout → Int64
  | .send v => v
  | .recv v => v

/-- What the setter calls. -/
def call (sock : Int) : SetTimeout → Call
  | .send v => setSendTimeOut sock v
  | .recv v => setRecvTimeout sock v

end SetTimeout

/-- What the setters are for: a timeout for each direction. -/
structure Timeouts where
  send : Int64
  recv : Int64
  deriving DecidableEq, Repr

/-- A setter changes its own direction. -/
def Timeouts.set (t : Timeouts) : SetTimeout → Timeouts
  | .send v => { t with send := v }
  | .recv v => { t with recv := v }

/-- What the two getters return. -/
def timeouts (s : Process) (sock : Int) : Timeouts :=
  ⟨getSendTimeout s sock, getRecvTimeout s sock⟩

/-- After the calls the getters return what the setters of their own direction set last, and each
`timeval` stands for the argument. -/
def ReadsBack (s : Process) (sock : Int) (calls : List SetTimeout) : Prop :=
  (∃ s', run step s (calls.map (·.call sock)) = some s' ∧
    timeouts s' sock = calls.foldl Timeouts.set (timeouts s sock)) ∧
  ∀ c ∈ calls, (timeval c.ms).Represents c.ms.toInt

/-- Seconds and remaining milliseconds are the same number in every argument, the send timeout that
is to be set is the one already there, and the last call sets what is to be the receive timeout. -/
def SetsWhatIsStored (t : Timeouts) (calls : List SetTimeout) : Prop :=
  (∀ c ∈ calls, c.ms.toInt / 1000 = c.ms.toInt % 1000) ∧
  (calls.foldl Timeouts.set t).send = t.send ∧
  ∀ c ∈ calls.getLast?, c.ms = (calls.foldl Timeouts.set t).recv

instance (t : Timeouts) (calls : List SetTimeout) : Decidable (SetsWhatIsStored t calls) :=
  inferInstanceAs (Decidable (_ ∧ _ ∧ _))

/-! ## The values on their way -/

theorem toInt_toInt32 {v : Int64} (h₀ : 0 ≤ v.toInt) (h₁ : v.toInt < 2 ^ 31) :
    v.toInt32.toInt = v.toInt := by
  rw [Int64.toInt_toInt32]
  apply Int.bmod_eq_of_le <;> omega

theorem toInt_div_thousand {v : Int64} (h₀ : 0 ≤ v.toInt) :
    (v / 1000).toInt = v.toInt / 1000 := by
  rw [Int64.toInt_div_of_ne_right v 1000 (by decide)]
  exact Int.tdiv_eq_ediv_of_nonneg h₀

theorem timeval_sec {v : Int64} (h₀ : 0 ≤ v.toInt) (h₁ : v.toInt < 2 ^ 31) :
    (timeval v).sec = v.toInt / 1000 := by
  have hdiv := toInt_div_thousand h₀
  simp only [timeval]
  rw [toInt_toInt32] <;> omega

theorem timeval_usec {v : Int64} (h₀ : 0 ≤ v.toInt) (h₁ : v.toInt < 2 ^ 31) :
    (timeval v).usec = v.toInt / 1000 * 1000 := by
  have hmul : (v / 1000 * 1000).toInt = v.toInt / 1000 * 1000 := by
    rw [Int64.toInt_mul, toInt_div_thousand h₀]
    apply Int.bmod_eq_of_le <;> simp <;> omega
  simp only [timeval]
  rw [toInt_toInt32] <;> omega

/-- An argument of `q` seconds and `r` milliseconds goes to the kernel as `q` seconds and `q`
milliseconds. -/
theorem timeval_represents_iff {v : Int64} (h₀ : 0 ≤ v.toInt) (h₁ : v.toInt < 2 ^ 31) :
    (timeval v).Represents v.toInt ↔ v.toInt / 1000 = v.toInt % 1000 := by
  rw [Timeval.Represents, timeval_sec h₀ h₁, timeval_usec h₀ h₁]
  omega

/-- And so it is stored. -/
theorem toInt_timevalMs {v : Int64} (h₀ : 0 ≤ v.toInt) (h₁ : v.toInt < 2 ^ 31) :
    (timevalMs (timeval v).sec (timeval v).usec).toInt64.toInt =
      v.toInt / 1000 * 1000 + v.toInt / 1000 := by
  rw [timevalMs, timeval_sec h₀ h₁, timeval_usec h₀ h₁, Int.mul_tdiv_cancel _ (by decide),
    UInt64.ofInt, Int.emod_eq_of_lt (by omega) (by omega), UInt64.toInt64_ofNat',
    Int64.toInt_ofNat_of_lt] <;> omega

/-! ## The runs -/

/-- What either setter stores. -/
def SetTimeout.stored (c : SetTimeout) : Int64 :=
  (timevalMs (timeval c.ms).sec (timeval c.ms).usec).toInt64

theorem timeouts_of_get {s : Process} {sock : Int} {ctx : FdContext} (h : s.get sock = some ctx) :
    timeouts s sock = ⟨ctx.sendTimeout.toInt64, ctx.recvTimeout.toInt64⟩ := by
  simp only [timeouts, getSendTimeout, getRecvTimeout, h]
  rfl

theorem size_pos_of_get {s : Process} {sock : Int} {ctx : FdContext} (h : s.get sock = some ctx) :
    0 < s.manager.datas.length := by
  by_contra hsize
  have hnil : s.manager.datas = [] := List.length_eq_zero_iff.mp (by omega)
  simp [Process.get, FdManager.slot, hnil] at h

/-- Either setter stores its value as the receive timeout, and leaves the send timeout alone. -/
theorem timeouts_step {s : Process} {sock : Int} {ctx : FdContext} (hctx : s.get sock = some ctx)
    (c : SetTimeout) :
    ∃ s' ctx', step s (c.call sock) = some s' ∧ s'.get sock = some ctx' ∧
      timeouts s' sock = ⟨(timeouts s sock).send, c.stored⟩ := by
  have hget (f : FdContext → FdContext) : (s.setContext sock f).get sock = some (f ctx) := by
    rw [Process.get_setContext (size_pos_of_get hctx), if_pos rfl, hctx, Option.map_some]
  refine ⟨_, _, ?_, hget (·.setTimeout SO_RCVTIMEO (timevalMs (timeval c.ms).sec
    (timeval c.ms).usec)), ?_⟩
  · cases c <;> rfl
  · rw [timeouts_of_get (hget _), timeouts_of_get hctx]
    rfl

/-- After any calls the send timeout is the one from before, and the receive timeout what the last
call stored. -/
theorem timeouts_run (calls : List SetTimeout) : ∀ {s : Process} {sock : Int} {ctx : FdContext},
    s.get sock = some ctx →
    ∃ s', run step s (calls.map (·.call sock)) = some s' ∧
      timeouts s' sock = ⟨(timeouts s sock).send,
        calls.foldl (fun _ c => c.stored) (timeouts s sock).recv⟩ := by
  induction calls with
  | nil =>
      intro s sock ctx _
      exact ⟨s, rfl, rfl⟩
  | cons c calls ih =>
      intro s sock ctx hctx
      obtain ⟨s₁, ctx₁, hstep, hctx₁, htimeouts⟩ := timeouts_step hctx c
      obtain ⟨s', hrun, hlast⟩ := ih hctx₁
      refine ⟨s', ?_, ?_⟩
      · rw [List.map_cons, run_cons, hstep]
        exact hrun
      · rw [hlast, htimeouts, List.foldl_cons]

/-- The argument comes back exactly where its `timeval` stands for it. -/
theorem stored_eq_iff {c : SetTimeout} (h₀ : 0 ≤ c.ms.toInt) (h₁ : c.ms.toInt < 2 ^ 31) :
    c.stored = c.ms ↔ c.ms.toInt / 1000 = c.ms.toInt % 1000 := by
  rw [← Int64.toInt_inj, SetTimeout.stored, toInt_timevalMs h₀ h₁]
  omega

theorem foldl_last {α β : Type*} (f : α → β) (b : β) (l : List α) :
    l.foldl (fun _ a => f a) b = (l.getLast?.map f).getD b := by
  induction l using List.reverseRec with
  | nil => rfl
  | append_singleton l a _ => simp

theorem foldl_set_nil {t : Timeouts} {calls : List SetTimeout} (h : calls.getLast? = none) :
    calls.foldl Timeouts.set t = t := by
  rw [List.getLast?_eq_none_iff.mp h, List.foldl_nil]

/-- The timeouts of a socket read back as they were set, exactly after the calls that set what
`setsockopt` stores. -/
theorem readsBack_iff {s : Process} {sock : Int} {ctx : FdContext} (hctx : s.get sock = some ctx)
    {calls : List SetTimeout} (hms : ∀ c ∈ calls, 0 ≤ c.ms.toInt ∧ c.ms.toInt < 2 ^ 31) :
    ReadsBack s sock calls ↔ SetsWhatIsStored (timeouts s sock) calls := by
  have hrepresents : (∀ c ∈ calls, (timeval c.ms).Represents c.ms.toInt) ↔
      ∀ c ∈ calls, c.ms.toInt / 1000 = c.ms.toInt % 1000 := by
    constructor <;> intro h c hc
    · exact (timeval_represents_iff (hms c hc).1 (hms c hc).2).mp (h c hc)
    · exact (timeval_represents_iff (hms c hc).1 (hms c hc).2).mpr (h c hc)
  obtain ⟨s', hrun, hafter⟩ := timeouts_run calls hctx
  rw [ReadsBack, SetsWhatIsStored, hrepresents, and_comm]
  apply and_congr_right
  intro hexact
  have hstored : ∀ c ∈ calls, c.stored = c.ms := by
    intro c hc
    exact (stored_eq_iff (hms c hc).1 (hms c hc).2).mpr (hexact c hc)
  have hreads : (∃ t, run step s (calls.map (·.call sock)) = some t ∧
      timeouts t sock = calls.foldl Timeouts.set (timeouts s sock)) ↔
      timeouts s' sock = calls.foldl Timeouts.set (timeouts s sock) := by
    simp [hrun]
  rw [hreads, hafter, foldl_last]
  cases hlast : calls.getLast? with
  | none => simp [foldl_set_nil hlast]
  | some c =>
      rw [Option.map_some, Option.getD_some, hstored c (List.mem_of_getLast? hlast)]
      cases hset : calls.foldl Timeouts.set (timeouts s sock) with
      | mk send recv => simp [eq_comm]

/-- Nothing but the receive timeout is set, at last to 2002 ms. -/
theorem readsBack_twoSeconds :
    ReadsBack ((initProcess fun _ => some ⟨true, 0⟩).getOrCreate 3) 3 [.recv 1001, .recv 2002] := by
  have hctx : ((initProcess fun _ => some ⟨true, 0⟩).getOrCreate 3).get 3 =
      some (.new 3 (some true)) := rfl
  exact (readsBack_iff hctx (by decide)).mpr (by decide)

/-- 1500 ms read back as 1001. -/
theorem recvTimeout_shortened :
    ¬ ReadsBack ((initProcess fun _ => some ⟨true, 0⟩).getOrCreate 3) 3 [.recv 1500] := by
  rintro ⟨⟨s', hrun, hafter⟩, -⟩
  cases hrun
  revert hafter
  decide

end Socket

end Hook

end Saturn
