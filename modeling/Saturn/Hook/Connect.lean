import Saturn.Hook.Timed

/-!
# Established connections

`connect_with_timeout` takes its answer from `SO_ERROR`, which also reads 0 while the attempt is in
progress. What it reads means something where the kernel has reported the descriptor, so the answer is
right in the runs in which nothing else leads a call there.
-/

namespace Saturn

namespace Hook

open IOManager (Event)

namespace Timed

/-- What the call returns. -/
def Result.rt : Result → Int
  | .ret rt _ => rt
  | .soError error => if error = 0 then 0 else -1
  | .badFd | .refused | .timedOut | .sockoptFailed _ => -1

/-- The `errno` that comes with -1. `io` leaves the one of the failed `addEvent`. -/
def Result.errno : Result → Option Int
  | .ret _ errno | .soError errno | .sockoptFailed errno => some errno
  | .badFd => some EBADF
  | .timedOut => some ETIMEDOUT
  | .refused => none

/-- The call is one of `connect_with_timeout`. -/
def Kind.connects : Kind → Bool
  | .io .. => false
  | .connect _ => true

/-- The connection attempt has finished with an error. -/
def Call.failed (c : Call) : Bool :=
  match c.finished with
  | none => false
  | some error => error != 0

/-- The call returns 0 only when `connect_f` has, or the kernel has reported the descriptor and the
attempt has finished without an error; else it returns -1 and sets `errno`. -/
structure Call.Answers (c : Call) (r : Result) : Prop where
  success : r.rt = 0 →
    (∃ errno, c.last = some (0, errno)) ∨ (c.reported = true ∧ c.finished = some 0)
  failure : r.rt ≠ 0 → r.rt = -1 ∧ ∃ errno ∈ r.errno, errno ≠ 0

/-- Every call that has returned has answered right. -/
def AllAnswered (s : State) : Prop :=
  ∀ (i : Nat) c r, s.calls[i]? = some c → c.kind.connects = true → c.pc = .done r → c.Answers r

/-- What `connect_f` and `getsockopt_f` return. -/
def SystemCalls (s : State) : Label → Prop
  | .sys i rt errno => ∀ c ∈ s.calls[i]?, c.kind.connects = true → rt = 0 ∨ rt = -1 ∧ errno ≠ 0
  | .sockopt _ ok errno => ok = false → errno ≠ 0
  | _ => True

/-- No attempt that has not failed waits for the event, but for the one of call `own`. -/
def State.Unwaited (s : State) (fd : Int) (event : Event) (own : Option Nat) : Prop :=
  ∀ i ∈ s.waiter fd event, own ≠ some i → ∀ c ∈ s.calls[i]?,
    c.kind.connects = true → c.failed = true

/-- As long as an attempt has not failed, `addEvent` succeeds for it, and what wakes its call is a
report of the kernel or the callback of its own timer. -/
def Undisturbed (s : State) : Label → Prop
  | .add i ok => ok = false → ∀ c ∈ s.calls[i]?, c.kind.connects = true → c.failed = true
  | .other fd event => s.Unwaited fd event none
  | .cancelEvent k ok => ok = true → ∀ p ∈ s.running[k]?, ∀ c ∈ s.calls[p.1]?,
      s.Unwaited c.fd c.kind.event (some p.1)
  | _ => True

instance (s : State) : (l : Label) → Decidable (SystemCalls s l)
  | .sys .. => inferInstanceAs (Decidable (∀ c ∈ _, _))
  | .sockopt .. => inferInstanceAs (Decidable (_ → _))
  | .call .. | .enter .. | .arm .. | .insert .. | .add .. | .cancel .. | .check .. | .finish ..
  | .ready .. | .other .. | .expire .. | .putBack .. | .callback .. | .mark .. | .cancelEvent ..
  | .tick .. | .user .. => isTrue trivial

instance (s : State) (fd : Int) (event : Event) (own : Option Nat) :
    Decidable (s.Unwaited fd event own) :=
  inferInstanceAs (Decidable (∀ i ∈ _, _))

instance (s : State) : (l : Label) → Decidable (Undisturbed s l)
  | .add .. => inferInstanceAs (Decidable (_ → ∀ c ∈ _, _))
  | .other fd event => inferInstanceAs (Decidable (s.Unwaited fd event none))
  | .cancelEvent .. => inferInstanceAs (Decidable (_ → ∀ p ∈ _, ∀ c ∈ _, State.Unwaited ..))
  | .call .. | .enter .. | .sys .. | .arm .. | .insert .. | .cancel .. | .check .. | .sockopt ..
  | .finish .. | .ready .. | .expire .. | .putBack .. | .callback .. | .mark .. | .tick ..
  | .user .. => isTrue trivial

/-! ### The invariant -/

/-- What holds of a call of `connect_with_timeout` by itself. -/
structure ConnectOk (c : Call) : Prop where
  reported : c.reported = true → c.finished ≠ none
  refused : ∀ timer, c.pc = .refused timer → c.failed = true
  woken : (∃ timer, c.pc = .woken timer) ∨ c.pc = .check →
    c.cancelled = true ∨ c.reported = true ∨ c.failed = true
  sockopt : c.pc = .sockopt → c.reported = true ∨ c.failed = true
  result : ∀ r, c.pc = .done r → c.Answers r

/-- What carries `AllAnswered`. -/
structure Guarded (s : State) : Prop where
  calls : ∀ (i : Nat) c, s.calls[i]? = some c → c.kind.connects = true → ConnectOk c
  running : ∀ p ∈ s.running, ∃ c, s.calls[p.1]? = some c ∧ (p.2 = true → c.cancelled = true)

variable {s t : State} {i : Nat} {c c' : Call} {l : Label}

theorem guarded_init (now : UInt64) : Guarded (init now) := by
  refine ⟨fun i c hc => ?_, fun p hp => absurd hp List.not_mem_nil⟩
  have hnone : (init now).calls[i]? = none := rfl
  rw [hnone] at hc
  cases hc

theorem Call.Moves.kind {now : UInt64} (h : c.Moves now l c') : c'.kind = c.kind := by
  cases h with
  | enter i ctx hpc =>
      obtain ⟨ctx', timeout, pc, heq, -⟩ := entered_eq c ctx
      rw [heq]
  | direct | sys | arm | insert | add | addFails | refused | woken | check | sockopt | finish => rfl

theorem answers_badFd (c : Call) : c.Answers .badFd :=
  ⟨fun h => absurd h (by decide), fun _ => ⟨rfl, EBADF, rfl, by decide⟩⟩

theorem answers_timedOut (c : Call) : c.Answers .timedOut :=
  ⟨fun h => absurd h (by decide), fun _ => ⟨rfl, ETIMEDOUT, rfl, by decide⟩⟩

theorem answers_ret {rt errno : Int} (hlast : c.last = some (rt, errno))
    (hsys : rt = 0 ∨ rt = -1 ∧ errno ≠ 0) : c.Answers (.ret rt errno) := by
  refine ⟨fun h => ?_, fun h => ?_⟩
  · have hrt : rt = 0 := h
    exact Or.inl ⟨errno, by rw [hlast, hrt]⟩
  · obtain ⟨hrt, herrno⟩ := hsys.resolve_left h
    exact ⟨hrt, errno, rfl, herrno⟩

/-- What `SO_ERROR` reads is right where the attempt has been reported or has failed. -/
theorem answers_soError (hfinished : c.reported = true → c.finished ≠ none)
    (h : c.reported = true ∨ c.failed = true) : c.Answers (.soError (c.finished.getD 0)) := by
  cases hc : c.finished with
  | none =>
      rw [Call.failed, hc] at h
      rcases h with h | h
      · exact absurd hc (hfinished h)
      · cases h
  | some error =>
      rw [Call.failed, hc] at h
      by_cases herror : error = 0
      · subst herror
        exact ⟨fun _ => Or.inr ⟨h.resolve_right (by decide), hc⟩, fun hne => absurd rfl hne⟩
      · have hrt : (Result.soError error).rt = -1 := if_neg herror
        refine ⟨fun hzero => ?_, fun _ => ⟨hrt, error, rfl, herror⟩⟩
        have hzero : (Result.soError error).rt = 0 := hzero
        rw [hrt] at hzero
        cases hzero

/-- The call goes on, to no place that asks for more. -/
theorem ConnectOk.goto (h : ConnectOk c) {pc : Pc} (hrefused : ∀ timer, pc ≠ .refused timer)
    (hwoken : (∃ timer, pc = .woken timer) ∨ pc = .check →
      c.cancelled = true ∨ c.reported = true ∨ c.failed = true)
    (hsockopt : pc = .sockopt → c.reported = true ∨ c.failed = true)
    (hdone : ∀ r, pc = .done r → c.Answers r) : ConnectOk { c with pc := pc } :=
  ⟨h.reported, fun timer ht => absurd ht (hrefused timer), hwoken, hsockopt,
    fun r hr => ⟨(hdone r hr).success, (hdone r hr).failure⟩⟩

theorem unregistered_of_connects (h : c.kind.connects = true) : c.unregistered = .sockopt := by
  rw [Call.unregistered]
  split
  · rename_i hkind
    rw [hkind] at h
    cases h
  · rfl

theorem ConnectOk.enter (h : ConnectOk c) (ctx : Option FdContext) :
    ConnectOk (c.entered ctx) := by
  obtain ⟨ctx', timeout, pc, heq, hpc⟩ := entered_eq c ctx
  rw [heq]
  refine ⟨h.reported, fun timer ht => ?_, fun ht => ?_, fun ht => ?_, fun r hr => ?_⟩
  · rcases hpc with rfl | rfl | ⟨rfl, -⟩ <;> cases ht
  · rcases hpc with rfl | rfl | ⟨rfl, -⟩ <;> rcases ht with ⟨timer, ht⟩ | ht <;> cases ht
  · rcases hpc with rfl | rfl | ⟨rfl, -⟩ <;> cases ht
  · rcases hpc with rfl | rfl | ⟨rfl, -⟩
    · cases hr
    · cases hr
    · cases hr
      exact answers_badFd _

theorem ConnectOk.sys (h : ConnectOk c) {rt errno : Int} {blocked : Option UInt64}
    (hsys : rt = 0 ∨ rt = -1 ∧ errno ≠ 0) :
    ConnectOk { c with last := some (rt, errno), blocked := blocked, pc := c.returned rt errno } := by
  have hpc := returned_cases c rt errno
  refine ⟨h.reported, fun timer ht => ?_, fun ht => ?_, fun ht => ?_, fun r hr => ?_⟩
  · rcases hpc with hpc | hpc | hpc <;> cases ht.symm.trans hpc
  · rcases hpc with hpc | hpc | hpc <;> rcases ht with ⟨timer, ht⟩ | ht <;>
      cases ht.symm.trans hpc
  · rcases hpc with hpc | hpc | hpc <;> cases ht.symm.trans hpc
  · rcases hpc with hpc | hpc | hpc
    · cases hr.symm.trans hpc
    · cases hr.symm.trans hpc
    · cases hr.symm.trans hpc
      exact answers_ret rfl hsys

/-- Behind the wait the call asks for `SO_ERROR` only where nothing has set `cancelled`. -/
theorem ConnectOk.check (h : ConnectOk c) (hpc : c.pc = .check) :
    ConnectOk { c with pc := c.checked } := by
  by_cases hcancelled : c.cancelled = true
  · have hchecked : c.checked = .done .timedOut := by rw [Call.checked, if_pos hcancelled]
    rw [hchecked]
    refine h.goto (by simp) (fun ht => ?_) (by simp) fun r hr => ?_
    · rcases ht with ⟨timer, ht⟩ | ht <;> cases ht
    · cases hr
      exact answers_timedOut c
  · have hreported := (h.woken (Or.inr hpc)).resolve_left hcancelled
    rcases checked_cases c with ⟨-, hc⟩ | hchecked | ⟨hchecked, -⟩
    · exact absurd hc hcancelled
    · rw [hchecked]
      exact h.goto (by simp) (fun _ => Or.inr hreported) (by simp) (by simp)
    · rw [hchecked]
      exact h.goto (by simp) (fun _ => Or.inr hreported) (fun _ => hreported) (by simp)

theorem ConnectOk.sockopt_step (h : ConnectOk c) (hpc : c.pc = .sockopt) {ok : Bool} {errno : Int}
    (hsys : ok = false → errno ≠ 0) : ConnectOk { c with
      pc := .done (if ok then .soError (c.finished.getD 0) else .sockoptFailed errno) } := by
  refine h.goto nofun (fun ht => ?_) nofun fun r hr => ?_
  · rcases ht with ⟨timer, ht⟩ | ht <;> cases ht
  · cases hr
    cases ok with
    | true => exact answers_soError h.reported (h.sockopt hpc)
    | false =>
        refine ⟨fun ht => ?_, fun _ => ⟨rfl, errno, rfl, hsys rfl⟩⟩
        exact absurd (show (-1 : Int) = 0 from ht) (by decide)

/-- Nothing has been made of the attempt that finishes now. -/
theorem ConnectOk.finish (h : ConnectOk c) (hc : c.finished = none) (error : Int) :
    ConnectOk { c with finished := some error } := by
  have hreported : c.reported ≠ true := fun ht => h.reported ht hc
  have hfailed : c.failed ≠ true := by
    rw [Call.failed, hc]
    exact Bool.false_ne_true
  refine ⟨fun ht => absurd ht hreported, fun timer ht => absurd (h.refused timer ht) hfailed,
    fun ht => Or.inl ?_, fun ht => ?_, fun r hr => ⟨fun hrt => Or.inl ?_, (h.result r hr).failure⟩⟩
  · rcases h.woken ht with ht | ht | ht
    · exact ht
    · exact absurd ht hreported
    · exact absurd ht hfailed
  · rcases h.sockopt ht with ht | ht
    · exact absurd ht hreported
    · exact absurd ht hfailed
  · rcases (h.result r hr).success hrt with hlast | ⟨ht, -⟩
    · exact hlast
    · exact absurd ht hreported

theorem ConnectOk.marked (h : ConnectOk c) : ConnectOk { c with cancelled := true } :=
  ⟨h.reported, h.refused, fun _ => Or.inl rfl, h.sockopt,
    fun r hr => ⟨(h.result r hr).success, (h.result r hr).failure⟩⟩

theorem ConnectOk.moves (h : ConnectOk c) (hc : s.calls[i]? = some c)
    (hkind : c.kind.connects = true) (hcaller : l.caller = some i)
    (hmoves : c.Moves s.now l c') (hsys : SystemCalls s l) (hund : Undisturbed s l) :
    ConnectOk c' := by
  cases hmoves with
  | enter j ctx hpc => exact h.enter ctx
  | direct j rt errno hpc =>
      cases hcaller
      refine ⟨h.reported, nofun, fun ht => ?_, nofun, fun r hr => ?_⟩
      · rcases ht with ⟨timer, ht⟩ | ht <;> cases ht
      · cases hr
        exact answers_ret rfl (hsys c hc hkind)
  | sys j rt errno hpc =>
      cases hcaller
      exact h.sys (hsys c hc hkind)
  | arm j u pc hpc hnext =>
      rcases hnext with rfl | rfl
      · exact h.goto nofun (fun ht => by rcases ht with ⟨timer, ht⟩ | ht <;> cases ht) nofun nofun
      · exact h.goto nofun (fun ht => by rcases ht with ⟨timer, ht⟩ | ht <;> cases ht) nofun nofun
  | insert j u hpc =>
      exact h.goto nofun (fun ht => by rcases ht with ⟨timer, ht⟩ | ht <;> cases ht) nofun nofun
  | add j timer hpc =>
      exact h.goto nofun (fun ht => by rcases ht with ⟨timer, ht⟩ | ht <;> cases ht) nofun nofun
  | addFails j timer hpc =>
      cases hcaller
      have hfailed : c.failed = true := hund rfl c hc hkind
      exact ⟨h.reported, fun _ _ => hfailed, fun _ => Or.inr (Or.inr hfailed), nofun, nofun⟩
  | refused j timer hpc =>
      rw [unregistered_of_connects hkind]
      have hfailed := h.refused timer hpc
      exact h.goto nofun (fun _ => Or.inr (Or.inr hfailed)) (fun _ => Or.inr hfailed) nofun
  | woken j timer hpc => exact h.goto nofun (fun _ => h.woken (Or.inl ⟨timer, hpc⟩)) nofun nofun
  | check j hpc => exact h.check hpc
  | sockopt j ok errno hpc => exact h.sockopt_step hpc hsys
  | finish j error hblocked hfinished => exact h.finish hfinished error

/-! ### The steps -/

theorem Guarded.set (h : Guarded s) (hc : s.calls[i]? = some c) (ht : t.calls = s.calls.set i c')
    (hkind : c'.kind = c.kind) (hok : c.kind.connects = true → ConnectOk c → ConnectOk c')
    (j : Nat) (d : Call) (hd : t.calls[j]? = some d) (hconnects : d.kind.connects = true) : ConnectOk d := by
  rw [ht, getElem?_set_of_some hc] at hd
  split at hd
  · cases hd
    rw [hkind] at hconnects
    exact hok hconnects (h.calls i c hc hconnects)
  · exact h.calls j d hd hconnects

/-- A call is woken by a report of its attempt, or with its `cancelled` set, or when it has failed. -/
theorem Guarded.trigger (h : Guarded s) {fd : Int} {event : Event} {report : Bool}
    (hwaits : ∀ i c, s.waiter fd event = some i → s.calls[i]? = some c →
      c.kind.connects = true →
        (report = true ∧ c.finished ≠ none) ∨
          report = false ∧ (c.cancelled = true ∨ c.failed = true))
    (ht : t.calls = (s.trigger fd event report).calls) (j : Nat) (d : Call)
    (hd : t.calls[j]? = some d) (hconnects : d.kind.connects = true) : ConnectOk d := by
  rcases trigger_calls s fd event report with heq | ⟨i, c, timer, hwait, hc, hpc, heq⟩
  · rw [ht, heq] at hd
    exact h.calls j d hd hconnects
  · refine h.set hc (ht.trans heq) ?_ (fun hconn hok => ?_) j d hd hconnects
    · rfl
    · rcases hwaits i c hwait hc hconn with ⟨rfl, hfinished⟩ | ⟨rfl, hset⟩
      · refine ⟨fun _ => hfinished, nofun, fun _ => Or.inr (Or.inl ?_), nofun, nofun⟩
        exact Bool.or_true _
      · refine ⟨fun hrep => hok.reported ?_, nofun, fun _ => ?_, nofun, nofun⟩
        · rwa [Bool.or_false] at hrep
        · exact hset.imp_right Or.inr

theorem finished_of_reportable {fd : Int} {event : Event} (hwait : s.waiter fd event = some i)
    (hc : s.calls[i]? = some c) (hconnects : c.kind.connects = true)
    (h : s.reportable fd event = true) : c.finished ≠ none := by
  rw [State.reportable, hwait, Option.bind_some, hc] at h
  dsimp only at h
  split at h
  · rename_i hkind
    rw [hkind] at hconnects
    cases hconnects
  · exact Option.isSome_iff_ne_none.mp h

theorem Guarded.keep (h : Guarded s) (hstep : step s l = some t)
    (hrunning : ∀ p ∈ t.running, p ∈ s.running) :
    ∀ p ∈ t.running, ∃ c, t.calls[p.1]? = some c ∧ (p.2 = true → c.cancelled = true) := by
  intro p hp
  obtain ⟨c, hc, hcancelled⟩ := h.running p (hrunning p hp)
  obtain ⟨c', hc', hkeep⟩ := cancelled_of_step hstep hc
  exact ⟨c', hc', fun h => hkeep (hcancelled h)⟩

theorem guarded_step (h : Guarded s) (hsys : SystemCalls s l) (hund : Undisturbed s l)
    (hstep : step s l = some t) : Guarded t := by
  have hkeep := h.keep hstep
  cases effect_of_step hstep with
  | idle _ hcalls hrunning =>
      refine ⟨fun i c hc => h.calls i c (hcalls ▸ hc), fun p hp => ?_⟩
      rw [hcalls]
      rcases hrunning p hp with hp | ⟨hfalse, hlt⟩
      · exact h.running p hp
      · refine ⟨s.calls[p.1], List.getElem?_eq_getElem hlt, fun htrue => ?_⟩
        rw [hfalse] at htrue
        cases htrue
  | call hook fd kind c hpc hreported hcalls hrunning =>
      refine ⟨fun j d hd hconnects => ?_, hkeep fun p hp => hrunning ▸ hp⟩
      rw [hcalls] at hd
      rcases getElem?_concat_cases hd with hd | rfl
      · exact h.calls j d hd hconnects
      · exact ⟨by simp [hreported], by simp [hpc], by simp [hpc], by simp [hpc], by simp [hpc]⟩
  | move _ i c c' hcaller hc hmoves hcalls hrunning =>
      refine ⟨h.set hc hcalls hmoves.kind fun hconnects hok => ?_,
        hkeep fun p hp => hrunning ▸ hp⟩
      exact hok.moves hc hconnects hcaller hmoves hsys hund
  | ready fd event hreport hcalls hrunning =>
      refine ⟨h.trigger (fun i c hwait hc hconnects => Or.inl ⟨rfl, ?_⟩) hcalls,
        hkeep fun p hp => hrunning ▸ hp⟩
      exact finished_of_reportable hwait hc hconnects hreport
  | other fd event hcalls hrunning =>
      refine ⟨h.trigger (fun i c hwait hc hconnects => Or.inr ⟨rfl, Or.inr ?_⟩) hcalls,
        hkeep fun p hp => hrunning ▸ hp⟩
      exact hund i hwait nofun c hc hconnects
  | mark k i hk hcalls hrunning =>
      obtain ⟨c, hc, -⟩ := h.running (i, false) (List.mem_of_getElem? hk)
      have hset : t.calls = s.calls.set i { c with cancelled := true } :=
        hcalls.trans (modify_of_getElem? hc _)
      refine ⟨h.set hc hset rfl fun _ hok => hok.marked, fun p hp => ?_⟩
      rcases List.mem_or_eq_of_mem_set (hrunning ▸ hp) with hp | rfl
      · obtain ⟨d, hd, hcancelled⟩ := h.running p hp
        obtain ⟨d', hd', hstays⟩ := cancelled_of_step hstep hd
        exact ⟨d', hd', fun ht => hstays (hcancelled ht)⟩
      · refine ⟨{ c with cancelled := true }, ?_, fun _ => rfl⟩
        rw [hset, getElem?_set_of_some hc, if_pos rfl]
  | cancelEvent k i c hk hc hcalls hrunning =>
      refine ⟨h.trigger (fun j d hwait hd hconnects => Or.inr ⟨rfl, ?_⟩) hcalls,
        hkeep fun p hp => List.mem_of_mem_eraseIdx (hrunning ▸ hp)⟩
      by_cases hij : i = j
      · subst hij
        obtain ⟨d', hd', hcancelled⟩ := h.running (i, true) (List.mem_of_getElem? hk)
        cases hd.symm.trans hd'
        exact Or.inl (hcancelled rfl)
      · exact Or.inr (hund rfl (i, true) hk c hc j hwait
          (fun heq => hij (Option.some.inj heq)) d hd hconnects)

/-! ### Runs -/

/-- In every run in which no attempt is disturbed, `connect_with_timeout` returns 0 only on an
established connection, and else -1 with `errno` set. -/
theorem allAnswered_of_run (now : UInt64) (ls : List Label)
    (hsys : StepsMeet step SystemCalls (init now) ls)
    (h : StepsMeet step Undisturbed (init now) ls) :
    StatesMeet step AllAnswered (init now) ls :=
  statesMeet_of_invariant (C := fun s l => SystemCalls s l ∧ Undisturbed s l)
    (fun _ h i c r hc hconnects hdone => (h.calls i c hc hconnects).result r hdone)
    (fun _ _ _ h hC hstep => guarded_step h hC.1 hC.2 hstep) ls _ (guarded_init now)
    (stepsMeet_and ls _ hsys h)

/-- Call `i` attempts a connection on descriptor 5, and gets to `addEvent` with timer `t`. -/
def attempt (i t : Nat) : List Label :=
  [.call true 5 (.connect 5000), .enter i (some (FdContext.new 5 (some true))),
   .sys i (-1) EINPROGRESS, .arm i t, .insert i]

/-- The connection is established while the call waits. -/
def establishedConnect : List Label :=
  attempt 0 7 ++
    [.add 0 true, .finish 0 0, .ready 5 .write, .cancel 0, .check 0, .sockopt 0 true 0]

theorem establishedConnect_answered :
    StatesMeet step AllAnswered (init 5000) establishedConnect ∧
    ((run step (init 5000) establishedConnect).bind fun s => s.calls[0]?.map Call.pc) =
      some (.done (.soError 0)) :=
  ⟨allAnswered_of_run 5000 establishedConnect (by decide) (by decide), by decide⟩

/-- `addEvent` fails. -/
def refusedConnect : List Label :=
  attempt 0 7 ++ [.add 0 false, .cancel 0, .sockopt 0 true 0]

/-- The callback of an earlier call on the same descriptor gets to its `cancelEvent` late. -/
def disturbedConnect : List Label :=
  attempt 0 7 ++
    [.add 0 true, .tick 10000, .expire 9, .putBack 0, .callback 0, .mark 0, .finish 0 111,
     .ready 5 .write, .cancel 0, .check 0] ++
  attempt 1 8 ++ [.add 1 true, .cancelEvent 0 true, .cancel 1, .check 1, .sockopt 1 true 0]

theorem not_answered_of_run {now : UInt64} {ls : List Label} (i : Nat)
    (h : ((run step (init now) ls).bind fun s => s.calls[i]?.map fun c =>
      (c.kind.connects, c.pc, c.last, c.reported)) =
        some (true, .done (.soError 0), some (-1, EINPROGRESS), false)) :
    ¬ StatesMeet step AllAnswered (init now) ls := by
  intro hall
  obtain ⟨s, hs, h⟩ := Option.bind_eq_some_iff.mp h
  obtain ⟨c, hc, h⟩ := Option.map_eq_some_iff.mp h
  simp only [Prod.mk.injEq] at h
  obtain ⟨hconnects, hpc, hlast, hreported⟩ := h
  rcases (statesMeet_run _ _ _ hall hs i c _ hc hconnects hpc).success rfl with
    ⟨errno, hzero⟩ | ⟨hrep, -⟩
  · rw [hlast] at hzero
    cases hzero
  · rw [hreported] at hrep
    cases hrep

/-- Both return 0 for an attempt that is in progress. -/
theorem disturbed_not_answered :
    (StepsMeet step SystemCalls (init 5000) refusedConnect ∧
      ¬ StatesMeet step AllAnswered (init 5000) refusedConnect) ∧
    StepsMeet step SystemCalls (init 5000) disturbedConnect ∧
      ¬ StatesMeet step AllAnswered (init 5000) disturbedConnect := by
  refine ⟨⟨by decide, ?_⟩, by decide, ?_⟩
  · exact not_answered_of_run 0 (by decide)
  · exact not_answered_of_run 1 (by decide)

end Timed

end Hook

end Saturn
