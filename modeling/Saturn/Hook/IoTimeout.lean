import Saturn.Hook.Timed

/-!
# Timeouts of hooked calls

A call ends with `ETIMEDOUT` of its own only when one of its timers was due, and its timers are due a
timeout after it was first left to wait, unless the deadline wraps around. The invariant says where the
timers of a call may be: in `m_timers` only the one it holds at the moment; taken out, queued or
running only those that are due.
-/

namespace Saturn

namespace Hook

open IOManager (Event)

namespace Timed

/-- The timeout of the call has passed since it was first left to wait. -/
def Call.Due (c : Call) (now : UInt64) : Prop :=
  ∃ since ∈ c.blocked, since.toNat + c.timeout.toNat ≤ now.toNat

/-- Where the result comes from. -/
def Call.Explains (c : Call) (now : UInt64) : Result → Prop
  | .ret rt errno => c.last = some (rt, errno)
  | .timedOut => c.Due now
  | .refused => c.addFailed = true
  | .badFd => (∃ ctx ∈ c.ctx, ctx.isClosed = true) ∨ ∃ ms, c.kind = .connect ms
  | .soError _ | .sockoptFailed _ => ∃ ms, c.kind = .connect ms

/-- A call that has returned has timed out only when due, and leaves nothing behind. -/
structure Settled (s : State) (i : Nat) (c : Call) (r : Result) : Prop where
  explained : c.Explains s.now r
  no_timer : ∀ t ∈ s.manager.timers, s.owner t ≠ some i
  no_event : ∀ fd event, s.waiter fd event ≠ some i

/-- Every call that has returned is settled. -/
def AllSettled (s : State) : Prop :=
  ∀ i c r, s.calls[i]? = some c → c.pc = .done r → Settled s i c r

/-! ### The invariant -/

/-- What holds of a call by itself. -/
structure CallOk (now : UInt64) (c : Call) : Prop where
  fresh : c.pc = .enter → c.blocked = none
  since_le : ∀ since ∈ c.blocked, since.toNat ≤ now.toNat
  blocked : c.pc = .arm → c.blocked ≠ none
  cancelled : c.cancelled = true → c.Due now
  refused : ∀ timer, c.pc = .refused timer → c.addFailed = true
  sockopt : c.pc = .sockopt → ∃ ms, c.kind = .connect ms
  result : ∀ r, c.pc = .done r → c.Explains now r

/-- The timer has been made and not been put into the set. -/
structure State.InHand (s : State) (t : Nat) : Prop where
  out : t ∉ s.manager.timers
  not_held : t ∉ s.held
  cb : ∃ timer, s.manager.heap t = some timer ∧ timer.cb = some t

/-- What holds of a timer of call `c`. -/
structure OwnedOk (s : State) (t : Nat) (c : Call) (timer : Timer) : Prop where
  once : timer.recurring = false
  deadline : ∃ since ∈ c.blocked, since.toNat + c.timeout.toNat ≤ timer.next.toNat
  armed : t ∈ s.manager.timers → c.pc.armed = some t ∧ timer.cb = some t
  expired : t ∈ s.held ∨ t ∈ s.queue → c.Due s.now

/-- What holds in every state of a run. -/
structure Inv (s : State) : Prop where
  alive : s.manager.Alive
  own : s.manager.OwnCallbacks
  held_out : ∀ t ∈ s.held, t ∉ s.manager.timers ∧ s.manager.heap t ≠ none
  held_once : s.held.Nodup
  queue_alive : ∀ t ∈ s.queue, s.manager.heap t ≠ none
  calls : ∀ (i : Nat) c, s.calls[i]? = some c → CallOk s.now c
  owns : ∀ i c t, s.calls[i]? = some c → c.pc.timer = some t → s.owner t = some i
  hands : ∀ (i : Nat) c t, s.calls[i]? = some c → c.pc = .insert t → s.InHand t
  owned : ∀ t i, s.owner t = some i → ∃ c timer, s.calls[i]? = some c ∧
    s.manager.heap t = some timer ∧ OwnedOk s t c timer
  running : ∀ p ∈ s.running, ∃ c, s.calls[p.1]? = some c ∧ c.Due s.now
  waiter : ∀ fd event i, s.waiter fd event = some i →
    ∃ c, s.calls[i]? = some c ∧ c.fd = fd ∧ c.kind.event = event ∧ c.pc.waits = true

/-- Whenever a timer is made, its deadline does not wrap around. -/
def DeadlinesFit (s : State) : Label → Prop
  | .arm i _ => ∀ c ∈ s.calls[i]?, c.pc = .arm → c.timeout ≠ -1 →
      s.now.toNat + c.timeout.toNat < 2 ^ 64
  | _ => True

instance (s : State) : (l : Label) → Decidable (DeadlinesFit s l)
  | .arm .. => inferInstanceAs (Decidable (∀ c ∈ _, _))
  | .call .. | .enter .. | .sys .. | .insert .. | .add .. | .cancel .. | .check .. | .sockopt ..
  | .finish .. | .ready .. | .other .. | .expire .. | .putBack .. | .callback .. | .mark ..
  | .cancelEvent .. | .tick .. | .user .. => isTrue trivial

variable {s : State} {i : Nat} {c c' : Call}

theorem Inv.allSettled (h : Inv s) : AllSettled s := by
  intro i c r hc hdone
  refine ⟨(h.calls i c hc).result r hdone, fun t ht hown => ?_, fun fd event hwait => ?_⟩
  · obtain ⟨c', timer, hc', -, hok⟩ := h.owned t i hown
    cases hc.symm.trans hc'
    have harmed := (hok.armed ht).1
    rw [hdone] at harmed
    cases harmed
  · obtain ⟨c', hc', -, -, hwaits⟩ := h.waiter fd event i hwait
    cases hc.symm.trans hc'
    rw [hdone] at hwaits
    cases hwaits

theorem inv_init (now : UInt64) : Inv (init now) := by
  have hcalls (i : Nat) : (init now).calls[i]? = none := rfl
  refine ⟨⟨List.Pairwise.nil, fun t ht => absurd ht List.not_mem_nil⟩, fun t timer ht => ?_,
    fun t ht => absurd ht List.not_mem_nil, List.nodup_nil,
    fun t ht => absurd ht List.not_mem_nil, fun i c hc => ?_, fun i c t hc => ?_,
    fun i c t hc => ?_, fun t i ht => ?_, fun p hp => absurd hp List.not_mem_nil,
    fun fd event i hwait => ?_⟩
  · cases ht
  · rw [hcalls] at hc
    cases hc
  · rw [hcalls] at hc
    cases hc
  · rw [hcalls] at hc
    cases hc
  · cases ht
  · cases hwait

/-- The call has waited at least as long for the same timeout. -/
structure Continues (c c' : Call) : Prop where
  fd : c'.fd = c.fd
  kind : c'.kind = c.kind
  blocked : ∀ since ∈ c.blocked, since ∈ c'.blocked ∧ c'.timeout = c.timeout

theorem Continues.due (h : Continues c c') {now : UInt64} (hdue : c.Due now) : c'.Due now := by
  obtain ⟨since, hsince, hle⟩ := hdue
  obtain ⟨hsince', htimeout⟩ := h.blocked since hsince
  exact ⟨since, hsince', htimeout ▸ hle⟩

theorem Call.Due.mono {now now' : UInt64} (h : c.Due now) (hle : now.toNat ≤ now'.toNat) :
    c.Due now' := by
  obtain ⟨since, hsince, hdue⟩ := h
  exact ⟨since, hsince, by omega⟩

theorem CallOk.mono {now now' : UInt64} (h : CallOk now c) (hle : now.toNat ≤ now'.toNat) :
    CallOk now' c where
  fresh := h.fresh
  since_le := fun since hs => Nat.le_trans (h.since_le since hs) hle
  blocked := h.blocked
  cancelled := fun hcancelled => (h.cancelled hcancelled).mono hle
  refused := h.refused
  sockopt := h.sockopt
  result := fun r hr => by
    have := h.result r hr
    cases r with
    | timedOut => exact Call.Due.mono this hle
    | _ => exact this

theorem State.InHand.frame {s' : State} {t : Nat} (h : s.InHand t) (hmanager : s'.manager = s.manager)
    (hheld : s'.held = s.held) : s'.InHand t := by
  obtain ⟨hout, hnot, hcb⟩ := h
  rw [← hmanager] at hout hcb
  rw [← hheld] at hnot
  exact ⟨hout, hnot, hcb⟩

theorem OwnedOk.frame {s' : State} {t : Nat} {timer : Timer} (h : OwnedOk s t c timer)
    (hmanager : s'.manager = s.manager) (hheld : s'.held = s.held)
    (hqueue : ∀ t ∈ s'.queue, t ∈ s.queue) (hnow : s.now.toNat ≤ s'.now.toNat) :
    OwnedOk s' t c timer where
  once := h.once
  deadline := h.deadline
  armed := by
    rw [hmanager]
    exact h.armed
  expired := fun hexp => by
    rw [hheld] at hexp
    exact (h.expired (hexp.imp_right (hqueue t))).mono hnow

/-- Timers and calls stay as they are; the clock may go on, and less may be queued. -/
theorem Inv.frame (h : Inv s) {s' : State} (hmanager : s'.manager = s.manager)
    (htaken : s'.taken = s.taken) (howner : s'.owner = s.owner) (hcalls : s'.calls = s.calls)
    (hnow : s.now.toNat ≤ s'.now.toNat) (hqueue : ∀ t ∈ s'.queue, t ∈ s.queue)
    (hrunning : ∀ p ∈ s'.running, ∃ c, s.calls[p.1]? = some c ∧ c.Due s'.now)
    (hwaiter : ∀ fd event i, s'.waiter fd event = some i →
      ∃ c, s.calls[i]? = some c ∧ c.fd = fd ∧ c.kind.event = event ∧ c.pc.waits = true) :
    Inv s' := by
  have hheld : s'.held = s.held := congrArg (List.flatMap Prod.fst) htaken
  refine ⟨hmanager ▸ h.alive, hmanager ▸ h.own, ?_, hheld ▸ h.held_once, fun t ht => ?_,
    fun i c hc => ?_, ?_, fun i c t hc ht => ?_, fun t i hown => ?_, ?_, ?_⟩
  · rw [hheld, hmanager]
    exact h.held_out
  · rw [hmanager]
    exact h.queue_alive t (hqueue t ht)
  · rw [hcalls] at hc
    exact (h.calls i c hc).mono hnow
  · rw [hcalls, howner]
    exact h.owns
  · rw [hcalls] at hc
    exact (h.hands i c t hc ht).frame hmanager hheld
  · rw [howner] at hown
    obtain ⟨c, timer, hc, htimer, hok⟩ := h.owned t i hown
    rw [hcalls, hmanager]
    exact ⟨c, timer, hc, htimer, hok.frame hmanager hheld hqueue hnow⟩
  · rw [hcalls]
    exact hrunning
  · rw [hcalls]
    exact hwaiter

/-- A call goes on by itself. -/
theorem Inv.setCall (h : Inv s) (hc : s.calls[i]? = some c) (hcont : Continues c c')
    (hok : CallOk s.now c') (howns : ∀ t, c'.pc.timer = some t → s.owner t = some i)
    (hhands : ∀ t, c'.pc = .insert t → s.InHand t)
    (harmed : ∀ t ∈ s.manager.timers, s.owner t = some i → c.pc.armed = some t →
      c'.pc.armed = some t)
    (hwaits : (∃ fd event, s.waiter fd event = some i) → c.pc.waits = true → c'.pc.waits = true) :
    Inv (s.setCall i c') := by
  have hget (j : Nat) : (s.setCall i c').calls[j]? = if j = i then some c' else s.calls[j]? :=
    getElem?_set_of_some hc c' j
  have hcases {j : Nat} {d : Call} (hd : (s.setCall i c').calls[j]? = some d) :
      (j = i ∧ d = c') ∨ (j ≠ i ∧ s.calls[j]? = some d) := by
    rw [hget] at hd
    split at hd
    · rename_i hji
      exact Or.inl ⟨hji, (Option.some.inj hd).symm⟩
    · rename_i hji
      exact Or.inr ⟨hji, hd⟩
  have hmap {j : Nat} {d : Call} (hd : s.calls[j]? = some d) :
      ∃ d', (s.setCall i c').calls[j]? = some d' ∧
        ((j = i ∧ d = c ∧ d' = c') ∨ (j ≠ i ∧ d' = d)) := by
    by_cases hji : j = i
    · subst hji
      cases hc.symm.trans hd
      exact ⟨c', by rw [hget, if_pos rfl], Or.inl ⟨rfl, rfl, rfl⟩⟩
    · exact ⟨d, by rw [hget, if_neg hji, hd], Or.inr ⟨hji, rfl⟩⟩
  refine ⟨h.alive, h.own, h.held_out, h.held_once, h.queue_alive, fun j d hd => ?_, fun j d t hd ht => ?_,
    fun j d t hd ht => ?_, fun t j hown => ?_, fun p hp => ?_, fun fd event j hwait => ?_⟩
  · rcases hcases hd with ⟨-, rfl⟩ | ⟨-, hd⟩
    · exact hok
    · exact h.calls j d hd
  · rcases hcases hd with ⟨rfl, rfl⟩ | ⟨-, hd⟩
    · exact howns t ht
    · exact h.owns j d t hd ht
  · rcases hcases hd with ⟨-, rfl⟩ | ⟨-, hd⟩
    · exact (hhands t ht).frame rfl rfl
    · exact (h.hands j d t hd ht).frame rfl rfl
  · obtain ⟨d, timer, hd, htimer, howned⟩ := h.owned t j hown
    obtain ⟨d', hd', ⟨rfl, rfl, rfl⟩ | ⟨-, rfl⟩⟩ := hmap hd
    · refine ⟨d', timer, hd', htimer, howned.once, ?_, fun ht => ?_, fun hexp => ?_⟩
      · obtain ⟨since, hsince, hle⟩ := howned.deadline
        obtain ⟨hsince', htimeout⟩ := hcont.blocked since hsince
        exact ⟨since, hsince', htimeout ▸ hle⟩
      · exact ⟨harmed t ht hown (howned.armed ht).1, (howned.armed ht).2⟩
      · exact hcont.due (howned.expired hexp)
    · exact ⟨d', timer, hd', htimer, howned.frame rfl rfl (fun _ hu => hu) (Nat.le_refl _)⟩
  · obtain ⟨d, hd, hdue⟩ := h.running p hp
    obtain ⟨d', hd', ⟨-, rfl, rfl⟩ | ⟨-, rfl⟩⟩ := hmap hd
    · exact ⟨d', hd', hcont.due hdue⟩
    · exact ⟨d', hd', hdue⟩
  · obtain ⟨d, hd, hfd, hevent, hw⟩ := h.waiter fd event j hwait
    obtain ⟨d', hd', ⟨rfl, rfl, rfl⟩ | ⟨-, rfl⟩⟩ := hmap hd
    · exact ⟨d', hd', hcont.fd.trans hfd, (congrArg Kind.event hcont.kind).trans hevent,
        hwaits ⟨fd, event, hwait⟩ hw⟩
    · exact ⟨d', hd', hfd, hevent, hw⟩

/-! ### The timers of the program -/

theorem touches_apply {m : TimerManager} (h : m.Alive) (hown : m.OwnCallbacks) (now : UInt64)
    (op : UserOp) (hfits : ∀ t ms recurring, op = .add t ms recurring → m.heap t = none) :
    m.Touches (op.apply m now) op.timer ∧ (op.apply m now).OwnCallbacks ∧
      (op.timer ∈ (op.apply m now).timers → op.timer ∈ m.timers ∨ m.heap op.timer = none) := by
  cases op with
  | add t ms recurring =>
      have hfresh : m.heap t = none := hfits t ms recurring rfl
      have hout : t ∉ m.timers := fun hin => h.alive t hin hfresh
      have hnew : m.Touches (m.newTimer t ms (some t) recurring now) t :=
        TimerManager.touches_setTimer h hout _
      have hheap : (m.newTimer t ms (some t) recurring now).heap t =
          some ⟨recurring, ms, now + ms, some t⟩ := by
        rw [TimerManager.newTimer, TimerManager.heap_setTimer, if_pos rfl]
      have htouch := hnew.trans (TimerManager.touches_addTimer (hnew.toAlive h)
        (by rw [hheap]; exact Option.some_ne_none _))
      refine ⟨htouch, htouch.ownCallbacks hown fun timer ht => ?_, fun _ => Or.inr hfresh⟩
      have ht : (m.newTimer t ms (some t) recurring now).heap t = some timer := ht
      rw [hheap] at ht
      cases ht
      exact Or.inl rfl
  | cancel t =>
      obtain ⟨htouch, hset, hheap⟩ := TimerManager.touches_cancel h t
      refine ⟨htouch, htouch.ownCallbacks hown fun timer ht => ?_, fun hin => Or.inl (hset hin).1⟩
      obtain ⟨old, hold, rfl | rfl⟩ := hheap timer ht
      · exact hown t timer hold
      · exact Or.inr rfl
  | refresh t =>
      rcases TimerManager.refresh_cases h.sorted t now with hsame | ⟨timer, htimer, hin, hrefresh⟩
      · rw [UserOp.apply, hsame]
        exact ⟨TimerManager.touches_self h t, hown, Or.inl⟩
      · rw [UserOp.apply, hrefresh]
        have htouch := TimerManager.touches_rearm h hin { timer with next := now + timer.ms }
        refine ⟨htouch, htouch.ownCallbacks hown fun timer' ht => ?_, fun _ => Or.inl hin⟩
        rw [TimerManager.heap_insert, TimerManager.heap_setTimer, if_pos rfl] at ht
        cases ht
        exact hown t timer htimer
  | reset t ms fromNow =>
      rw [UserOp.apply, TimerManager.resetAndAdd]
      rcases TimerManager.reset_cases h.sorted t ms fromNow now with hsame |
        ⟨timer, next, htimer, hin, hreset⟩
      · rw [hsame]
        exact ⟨TimerManager.touches_self h t, hown, Or.inl⟩
      · rw [hreset]
        have htouch := TimerManager.touches_rearm h hin { timer with next := next, ms := ms }
        refine ⟨⟨htouch.sorted, htouch.alive, htouch.kept, htouch.heap, htouch.timers⟩, ?_,
          fun _ => Or.inl hin⟩
        refine htouch.ownCallbacks hown fun timer' ht => ?_
        rw [TimerManager.heap_insert, TimerManager.heap_setTimer, if_pos rfl] at ht
        cases ht
        exact hown t timer htimer

/-- An operation on timer `t`. -/
theorem Inv.touch (h : Inv s) {m : TimerManager} {t : Nat} (htouch : s.manager.Touches m t)
    (hown : m.OwnCallbacks) (hheld : t ∈ m.timers → t ∉ s.held)
    (hhand : ∀ (i : Nat) c, s.calls[i]? = some c → c.pc ≠ .insert t)
    (howned : ∀ i c timer, s.owner t = some i → s.calls[i]? = some c →
      s.manager.heap t = some timer → OwnedOk s t c timer →
      ∃ timer', m.heap t = some timer' ∧ OwnedOk { s with manager := m } t c timer') :
    Inv { s with manager := m } where
  alive := htouch.toAlive h.alive
  own := hown
  held_out := fun u hu => by
    obtain ⟨hout, hheap⟩ := h.held_out u hu
    by_cases hut : u = t
    · subst hut
      exact ⟨fun hin => hheld hin hu, htouch.kept hheap⟩
    · dsimp only
      rw [htouch.timers u hut, htouch.heap u hut]
      exact ⟨hout, hheap⟩
  held_once := h.held_once
  queue_alive := fun u hu => by
    by_cases hut : u = t
    · exact hut ▸ htouch.kept (hut ▸ h.queue_alive u hu)
    · dsimp only
      rw [htouch.heap u hut]
      exact h.queue_alive u hu
  calls := h.calls
  owns := h.owns
  hands := fun i c u hc hu => by
    have hut : u ≠ t := fun heq => hhand i c hc (heq ▸ hu)
    obtain ⟨hout, hnot, hcb⟩ := h.hands i c u hc hu
    refine ⟨?_, hnot, ?_⟩
    · dsimp only
      rwa [htouch.timers u hut]
    · dsimp only
      rwa [htouch.heap u hut]
  owned := fun u i hui => by
    obtain ⟨c, timer, hc, htimer, hok⟩ := h.owned u i hui
    by_cases hut : u = t
    · subst hut
      obtain ⟨timer', htimer', hok'⟩ := howned i c timer hui hc htimer hok
      exact ⟨c, timer', hc, htimer', hok'⟩
    · refine ⟨c, timer, hc, ?_, hok.once, hok.deadline, fun hin => ?_, hok.expired⟩
      · dsimp only
        rwa [htouch.heap u hut]
      · exact hok.armed ((htouch.timers u hut).mp hin)
  running := h.running
  waiter := h.waiter

theorem Inv.not_hand (h : Inv s) {t : Nat} (hown : s.owner t = none) :
    ∀ (i : Nat) c, s.calls[i]? = some c → c.pc ≠ .insert t := by
  intro i c hc hpc
  have := h.owns i c t hc (by rw [hpc]; rfl)
  rw [hown] at this
  cases this

/-- The program uses a timer of its own. -/
theorem Inv.user (h : Inv s) {op : UserOp} (hown : s.owner op.timer = none)
    (hfits : ∀ t ms recurring, op = .add t ms recurring → s.manager.heap t = none) :
    Inv { s with manager := op.apply s.manager s.now } := by
  obtain ⟨htouch, hcallbacks, hset⟩ := touches_apply h.alive h.own s.now op hfits
  refine h.touch htouch hcallbacks (fun hin hheld => ?_) (h.not_hand hown) ?_
  · obtain ⟨hout, hheap⟩ := h.held_out _ hheld
    exact (hset hin).elim hout hheap
  · intro i c timer howner
    rw [hown] at howner
    cases howner

/-! ### A call goes on -/

/-- The next place of a call, where nothing else of it changes. -/
theorem CallOk.goto {now : UInt64} (h : CallOk now c) {pc : Pc} (henter : pc ≠ .enter)
    (harm : pc = .arm → c.blocked ≠ none)
    (hrefused : ∀ timer, pc = .refused timer → c.addFailed = true)
    (hsockopt : pc = .sockopt → ∃ ms, c.kind = .connect ms)
    (hdone : ∀ r, pc = .done r → c.Explains now r) : CallOk now { c with pc := pc } where
  fresh := fun heq => absurd heq henter
  since_le := h.since_le
  blocked := harm
  cancelled := h.cancelled
  refused := hrefused
  sockopt := hsockopt
  result := fun r hr => by
    have := hdone r hr
    cases r <;> exact this

theorem continues_goto (c : Call) (pc : Pc) : Continues c { c with pc := pc } :=
  ⟨rfl, rfl, fun _ h => ⟨h, rfl⟩⟩

theorem Inv.enter (h : Inv s) (hc : s.calls[i]? = some c) (hpc : c.pc = .enter)
    (ctx : Option FdContext) : Inv (s.setCall i (c.entered ctx)) := by
  have hok := h.calls i c hc
  have hfresh : c.blocked = none := hok.fresh hpc
  have hcancelled : c.cancelled = false := by
    rw [← Bool.not_eq_true]
    intro htrue
    obtain ⟨since, hsince, -⟩ := hok.cancelled htrue
    rw [hfresh] at hsince
    cases hsince
  obtain ⟨ctx', timeout, pc, heq, hpc'⟩ := entered_eq c ctx
  rw [heq]
  refine h.setCall hc ⟨rfl, rfl, fun since hsince => ?_⟩ ⟨fun _ => hfresh, hok.since_le, ?_, ?_, ?_, ?_,
    ?_⟩ ?_ ?_ ?_ ?_
  · rw [hfresh] at hsince
    cases hsince
  · rintro rfl
    rcases hpc' with h | h | ⟨h, -⟩ <;> cases h
  · intro htrue
    rw [hcancelled] at htrue
    cases htrue
  · rintro timer rfl
    rcases hpc' with h | h | ⟨h, -⟩ <;> cases h
  · rintro rfl
    rcases hpc' with h | h | ⟨h, -⟩ <;> cases h
  · rintro r rfl
    rcases hpc' with h | h | ⟨h, hbad⟩
    · cases h
    · cases h
    · cases h
      exact hbad
  · intro t ht
    rcases hpc' with rfl | rfl | ⟨rfl, -⟩ <;> cases ht
  · rintro t rfl
    rcases hpc' with h | h | ⟨h, -⟩ <;> cases h
  · intro t _ _ harmed
    rw [hpc] at harmed
    cases harmed
  · intro _ hw
    rw [hpc] at hw
    cases hw

/-- A call that holds no timer goes on. -/
theorem Inv.setCall_free (h : Inv s) (hc : s.calls[i]? = some c) (hcont : Continues c c')
    (hok : CallOk s.now c') (htimer : c'.pc.timer = none) (harmed : c.pc.armed = none)
    (hwaits : c.pc.waits = false) : Inv (s.setCall i c') := by
  refine h.setCall hc hcont hok (fun t ht => ?_) (fun t ht => ?_) (fun t _ _ ht => ?_) fun _ hw => ?_
  · rw [htimer] at ht
    cases ht
  · rw [ht] at htimer
    cases htimer
  · rw [harmed] at ht
    cases ht
  · rw [hwaits] at hw
    cases hw

theorem Inv.direct (h : Inv s) (hc : s.calls[i]? = some c) (hpc : c.pc = .direct) (rt errno : Int) :
    Inv (s.setCall i { c with last := some (rt, errno), pc := .done (.ret rt errno) }) := by
  have hok := h.calls i c hc
  refine h.setCall_free hc ⟨rfl, rfl, fun _ hs => ⟨hs, rfl⟩⟩
    ⟨nofun, hok.since_le, nofun, hok.cancelled, nofun, nofun, ?_⟩ rfl (by rw [hpc]; rfl)
    (by rw [hpc]; rfl)
  intro r hr
  cases hr
  rfl

theorem Inv.sys (h : Inv s) (hc : s.calls[i]? = some c) (hpc : c.pc = .sys) (rt errno : Int) :
    Inv (s.setCall i { c with
      last := some (rt, errno)
      blocked := if c.returned rt errno = .arm then c.blocked.or (some s.now) else c.blocked
      pc := c.returned rt errno }) := by
  have hok := h.calls i c hc
  obtain ⟨blocked, hblocked⟩ : ∃ blocked, blocked =
      if c.returned rt errno = .arm then c.blocked.or (some s.now) else c.blocked := ⟨_, rfl⟩
  rw [← hblocked]
  have hkeep : ∀ since ∈ c.blocked, since ∈ blocked := by
    intro since hsince
    rw [hblocked]
    split
    · rw [hsince]
      rfl
    · exact hsince
  have hle : ∀ since ∈ blocked, since.toNat ≤ s.now.toNat := by
    intro since hsince
    rw [hblocked] at hsince
    split at hsince
    · cases hold : c.blocked with
      | none =>
          rw [hold] at hsince
          cases hsince
          exact Nat.le_refl _
      | some old =>
          rw [hold] at hsince
          exact hok.since_le since (hold.trans hsince)
    · exact hok.since_le since hsince
  have hcont : Continues c { c with
      last := some (rt, errno), blocked := blocked, pc := c.returned rt errno } :=
    ⟨rfl, rfl, fun since hsince => ⟨hkeep since hsince, rfl⟩⟩
  have hpc' := returned_cases c rt errno
  refine h.setCall_free hc hcont ⟨fun henter => ?_, hle, fun harm => ?_, fun htrue => ?_,
    fun timer hrefused => ?_, fun hsockopt => ?_, fun r hr => ?_⟩ ?_ (by rw [hpc]; rfl)
    (by rw [hpc]; rfl)
  · rcases hpc' with h | h | h <;> cases henter.symm.trans h
  · rw [hblocked, if_pos harm]
    cases c.blocked <;> exact Option.some_ne_none _
  · exact hcont.due (hok.cancelled htrue)
  · rcases hpc' with h | h | h <;> cases hrefused.symm.trans h
  · rcases hpc' with h | h | h <;> cases hsockopt.symm.trans h
  · rcases hpc' with h | h | h
    · cases hr.symm.trans h
    · cases hr.symm.trans h
    · cases hr.symm.trans h
      rfl
  · rcases hpc' with h | h | h <;> dsimp only <;> rw [h] <;> rfl

theorem Inv.check (h : Inv s) (hc : s.calls[i]? = some c) (hpc : c.pc = .check) :
    Inv (s.setCall i { c with pc := c.checked }) := by
  have hok := h.calls i c hc
  refine h.setCall_free hc (continues_goto c _) ?_ ?_ (by rw [hpc]; rfl) (by rw [hpc]; rfl)
  · rcases checked_cases c with ⟨heq, hcancelled⟩ | heq | ⟨heq, hconnect⟩
    · rw [heq]
      refine hok.goto nofun nofun nofun nofun fun r hr => ?_
      cases hr
      exact hok.cancelled hcancelled
    · rw [heq]
      exact hok.goto nofun nofun nofun nofun nofun
    · rw [heq]
      exact hok.goto nofun nofun nofun (fun _ => hconnect) nofun
  · rcases checked_cases c with ⟨heq, -⟩ | heq | ⟨heq, -⟩ <;> dsimp only <;> rw [heq] <;> rfl

theorem Inv.sockopt (h : Inv s) (hc : s.calls[i]? = some c) (hpc : c.pc = .sockopt) {r : Result}
    (hr : (∃ error, r = .soError error) ∨ ∃ errno, r = .sockoptFailed errno) :
    Inv (s.setCall i { c with pc := .done r }) := by
  have hok := h.calls i c hc
  refine h.setCall_free hc (continues_goto c _) ?_ rfl (by rw [hpc]; rfl) (by rw [hpc]; rfl)
  refine hok.goto nofun nofun nofun nofun fun r' hr' => ?_
  cases hr'
  have hconnect := hok.sockopt hpc
  rcases hr with ⟨error, rfl⟩ | ⟨errno, rfl⟩
  · exact hconnect
  · exact hconnect

theorem Inv.finish (h : Inv s) (hc : s.calls[i]? = some c) (error : Int) :
    Inv (s.setCall i { c with finished := some error }) := by
  have hok := h.calls i c hc
  exact h.setCall hc ⟨rfl, rfl, fun _ hs => ⟨hs, rfl⟩⟩
    ⟨hok.fresh, hok.since_le, hok.blocked, hok.cancelled, hok.refused, hok.sockopt, fun r hr => by
      have := hok.result r hr
      cases r <;> exact this⟩
    (fun t ht => h.owns i c t hc ht) (fun t ht => h.hands i c t hc ht) (fun _ _ _ ht => ht) fun _ hw => hw

theorem Inv.owner_ne (h : Inv s) {t u j : Nat} (ht : s.manager.heap t = none)
    (hu : s.owner u = some j) : u ≠ t := by
  obtain ⟨-, timer, -, htimer, -⟩ := h.owned u j hu
  rintro rfl
  rw [ht] at htimer
  cases htimer

/-- A call makes its timer. -/
theorem Inv.newTimer (h : Inv s) (hc : s.calls[i]? = some c) {t : Nat}
    (ht : s.manager.heap t = none) (hblocked : c.blocked ≠ none)
    (hfits : s.now.toNat + c.timeout.toNat < 2 ^ 64) :
    Inv { s with
      manager := s.manager.newTimer t c.timeout (some t) false s.now
      owner := Function.update s.owner t (some i) } := by
  have hout : t ∉ s.manager.timers := fun hin => h.alive.alive t hin ht
  have htouch : s.manager.Touches (s.manager.newTimer t c.timeout (some t) false s.now) t :=
    TimerManager.touches_setTimer h.alive hout _
  have hheap : (s.manager.newTimer t c.timeout (some t) false s.now).heap t =
      some ⟨false, c.timeout, s.now + c.timeout, some t⟩ := by
    rw [TimerManager.newTimer, TimerManager.heap_setTimer, if_pos rfl]
  have howner {u : Nat} (hu : u ≠ t) : Function.update s.owner t (some i) u = s.owner u :=
    Function.update_of_ne hu _ _
  refine ⟨htouch.toAlive h.alive, htouch.ownCallbacks h.own fun timer htimer => ?_, fun u hu => ?_,
    h.held_once, fun u hu => ?_, h.calls, fun j d u hd hu => ?_, fun j d u hd hu => ?_,
    fun u j hu => ?_, h.running, h.waiter⟩
  · rw [hheap] at htimer
    cases htimer
    exact Or.inl rfl
  · obtain ⟨huout, huheap⟩ := h.held_out u hu
    have hut : u ≠ t := fun heq => huheap (heq ▸ ht)
    dsimp only
    rw [htouch.heap u hut]
    exact ⟨huout, huheap⟩
  · have huheap := h.queue_alive u hu
    dsimp only
    rwa [htouch.heap u fun heq => huheap (heq ▸ ht)]
  · have hold := h.owns j d u hd hu
    dsimp only
    rwa [howner (h.owner_ne ht hold)]
  · have hold := h.owns j d u hd (by rw [hu]; rfl)
    obtain ⟨huout, hnot, hcb⟩ := h.hands j d u hd hu
    refine ⟨huout, hnot, ?_⟩
    dsimp only
    rwa [htouch.heap u (h.owner_ne ht hold)]
  · dsimp only at hu ⊢
    by_cases hut : u = t
    · subst hut
      rw [Function.update_self] at hu
      cases hu
      refine ⟨c, _, hc, hheap, rfl, ?_, fun hin => absurd hin hout, fun hin => ?_⟩
      · obtain ⟨since, hsince⟩ := Option.ne_none_iff_exists'.mp hblocked
        have hle := (h.calls i c hc).since_le since hsince
        refine ⟨since, hsince, ?_⟩
        rw [UInt64.toNat_add, Nat.mod_eq_of_lt hfits]
        omega
      · exact absurd ht (hin.elim (fun hheld => (h.held_out u hheld).2) (h.queue_alive u))
    · rw [howner hut] at hu
      obtain ⟨d, timer, hd, htimer, hok⟩ := h.owned u j hu
      refine ⟨d, timer, hd, ?_, hok.once, hok.deadline, hok.armed, hok.expired⟩
      rwa [htouch.heap u hut]

theorem Inv.arm (h : Inv s) (hc : s.calls[i]? = some c) (hpc : c.pc = .arm) {t : Nat}
    (ht : s.manager.heap t = none) (hfits : s.now.toNat + c.timeout.toNat < 2 ^ 64) :
    Inv ({ s with
      manager := s.manager.newTimer t c.timeout (some t) false s.now
      owner := Function.update s.owner t (some i) }.setCall i { c with pc := .insert t }) := by
  have hok := h.calls i c hc
  have hnew := h.newTimer hc ht (hok.blocked hpc) hfits
  refine hnew.setCall hc (continues_goto c _) (hok.goto nofun nofun nofun nofun nofun)
    (fun u hu => ?_) (fun u hu => ?_) (fun u _ _ harmed => ?_) fun _ hw => ?_
  · cases hu
    exact Function.update_self ..
  · cases hu
    refine ⟨fun hin => h.alive.alive t hin ht, fun hin => (h.held_out t hin).2 ht,
      ⟨false, c.timeout, s.now + c.timeout, some t⟩, ?_, rfl⟩
    exact (TimerManager.heap_setTimer ..).trans (if_pos rfl)
  · rw [hpc] at harmed
    cases harmed
  · rw [hpc] at hw
    cases hw

theorem Inv.arm_none (h : Inv s) (hc : s.calls[i]? = some c) (hpc : c.pc = .arm) :
    Inv (s.setCall i { c with pc := .add none }) :=
  h.setCall_free hc (continues_goto c _) ((h.calls i c hc).goto nofun nofun nofun nofun nofun) rfl
    (by rw [hpc]; rfl) (by rw [hpc]; rfl)

/-- The timer in hand goes into the set. -/
theorem Inv.insert (h : Inv s) (hc : s.calls[i]? = some c) {t : Nat} (hpc : c.pc = .insert t) :
    Inv ({ s with manager := (s.manager.addTimer t).1 }.setCall i { c with pc := .add (some t) }) := by
  have hown : s.owner t = some i := h.owns i c t hc (by rw [hpc]; rfl)
  obtain ⟨hout, hnot, timer, htimer, hcb⟩ := h.hands i c t hc hpc
  have hgo : Inv (s.setCall i { c with pc := .add (some t) }) := by
    refine h.setCall hc (continues_goto c _)
      ((h.calls i c hc).goto nofun nofun nofun nofun nofun) (fun u hu => ?_) nofun
      (fun u _ _ harmed => ?_) fun _ hw => ?_
    · cases hu
      exact hown
    · rw [hpc] at harmed
      cases harmed
    · rw [hpc] at hw
      cases hw
  have htouch : s.manager.Touches (s.manager.addTimer t).1 t :=
    TimerManager.touches_addTimer h.alive (by rw [htimer]; exact Option.some_ne_none _)
  have hget : (s.setCall i { c with pc := .add (some t) }).calls[i]? =
      some { c with pc := .add (some t) } := by
    refine (getElem?_set_of_some hc _ i).trans (if_pos rfl)
  refine hgo.touch htouch (htouch.ownCallbacks h.own fun timer' ht => h.own t timer' ht)
    (fun _ => hnot) (fun j d hd hins => ?_) fun j d timer' hj hd ht hok => ?_
  · have hj := hgo.owns j d t hd (by rw [hins]; rfl)
    cases hown.symm.trans hj
    cases hget.symm.trans hd
    cases hins
  · cases hown.symm.trans hj
    cases hget.symm.trans hd
    cases htimer.symm.trans ht
    exact ⟨timer, htimer, hok.once, hok.deadline, fun _ => ⟨rfl, hcb⟩, hok.expired⟩

/-- `addEvent` fails. -/
theorem Inv.addFails (h : Inv s) (hc : s.calls[i]? = some c) {timer : Option Nat}
    (hpc : c.pc = .add timer) :
    Inv (s.setCall i { c with addFailed := true, pc := .refused timer }) := by
  have hok := h.calls i c hc
  refine h.setCall hc ⟨rfl, rfl, fun _ hs => ⟨hs, rfl⟩⟩
    ⟨nofun, hok.since_le, nofun, hok.cancelled, fun _ _ => rfl, nofun, nofun⟩
    (fun t ht => h.owns i c t hc (by rw [hpc]; exact ht)) nofun (fun t _ _ harmed => ?_) fun _ hw => ?_
  · rw [hpc] at harmed
    exact harmed
  · rw [hpc] at hw
    cases hw

/-- `addEvent` sets the bit. -/
theorem Inv.addEvent (h : Inv s) (hc : s.calls[i]? = some c) {timer : Option Nat}
    (hpc : c.pc = .add timer) :
    Inv ({ s with
      waiter := Function.update s.waiter c.fd
        (Function.update (s.waiter c.fd) c.kind.event (some i)) }.setCall i
          { c with pc := .waiting timer }) := by
  have hgo : Inv (s.setCall i { c with pc := .waiting timer }) := by
    refine h.setCall hc (continues_goto c _)
      ((h.calls i c hc).goto nofun nofun nofun nofun nofun)
      (fun t ht => h.owns i c t hc (by rw [hpc]; exact ht)) nofun (fun t _ _ harmed => ?_) fun _ hw => ?_
    · rw [hpc] at harmed
      exact harmed
    · rw [hpc] at hw
      cases hw
  refine hgo.frame rfl rfl rfl rfl (Nat.le_refl _) (fun _ ht => ht) hgo.running
    fun fd event j hj => ?_
  dsimp only [State.setCall] at hj
  have hget : (s.calls.set i { c with pc := .waiting timer })[i]? =
      some { c with pc := .waiting timer } := by
    rw [getElem?_set_of_some hc, if_pos rfl]
  by_cases hfd : fd = c.fd
  · subst hfd
    rw [Function.update_self] at hj
    by_cases hevent : event = c.kind.event
    · subst hevent
      rw [Function.update_self] at hj
      cases hj
      exact ⟨_, hget, rfl, rfl, rfl⟩
    · rw [Function.update_of_ne hevent] at hj
      exact hgo.waiter _ event j hj
  · rw [Function.update_of_ne hfd] at hj
    exact hgo.waiter fd event j hj

/-- `timer->cancel()` of the timer that call `i` holds: it is out of the set. -/
theorem Inv.cancelTimer (h : Inv s) (hc : s.calls[i]? = some c) {timer : Option Nat}
    (htimer : c.pc.timer = timer) (harmed : c.pc.armed = timer) :
    Inv (s.cancelTimer timer) ∧
      ∀ t ∈ (s.cancelTimer timer).manager.timers, s.owner t ≠ some i := by
  cases timer with
  | none =>
      refine ⟨h, fun t ht hown => ?_⟩
      obtain ⟨d, timer, hd, -, hok⟩ := h.owned t i hown
      cases hc.symm.trans hd
      have := (hok.armed ht).1
      rw [harmed] at this
      cases this
  | some t =>
      have hown : s.owner t = some i := h.owns i c t hc htimer
      obtain ⟨htouch, hset, hheap⟩ := TimerManager.touches_cancel h.alive t
      obtain ⟨d, timer, hd, ht, hok⟩ := h.owned t i hown
      cases hc.symm.trans hd
      have hout : t ∉ (s.manager.cancel t).1.timers := fun hin => by
        obtain ⟨hin, hcb⟩ := hset hin
        rw [ht, Option.any_some, (hok.armed hin).2] at hcb
        cases hcb
      refine ⟨h.touch htouch (htouch.ownCallbacks h.own fun timer' ht' => ?_)
        (fun hin => absurd hin hout) (fun j d hd hins => ?_) fun j d old hj hd hold hok' => ?_,
        fun u hu hui => ?_⟩
      · obtain ⟨old, hold, rfl | rfl⟩ := hheap timer' ht'
        · exact h.own t timer' hold
        · exact Or.inr rfl
      · have hj := h.owns j d t hd (by rw [hins]; rfl)
        cases hown.symm.trans hj
        cases hc.symm.trans hd
        rw [hins] at harmed
        cases harmed
      · obtain ⟨timer', ht'⟩ := Option.ne_none_iff_exists'.mp
          (htouch.kept (by rw [ht]; exact Option.some_ne_none _))
        refine ⟨timer', ht', ?_, ?_, fun hin => absurd hin hout, hok'.expired⟩
        · obtain ⟨old', hold', rfl | rfl⟩ := hheap timer' ht' <;> cases hold.symm.trans hold'
          · exact hok'.once
          · exact hok'.once
        · obtain ⟨old', hold', rfl | rfl⟩ := hheap timer' ht' <;> cases hold.symm.trans hold'
          · exact hok'.deadline
          · exact hok'.deadline
      · by_cases hut : u = t
        · exact hout (hut ▸ hu)
        · obtain ⟨d, timer, hd, -, hok'⟩ := h.owned u i hui
          cases hc.symm.trans hd
          have := (hok'.armed ((htouch.timers u hut).mp hu)).1
          rw [harmed] at this
          exact hut (Option.some.inj this).symm

/-- Behind `timer->cancel()` the call holds no timer. -/
theorem Inv.cancelled_goto (h : Inv s) (hc : s.calls[i]? = some c) {timer : Option Nat}
    (htimer : c.pc.timer = timer) (harmed : c.pc.armed = timer) (hwaits : c.pc.waits = false)
    {pc : Pc} (hok : CallOk s.now { c with pc := pc }) (hfree : pc.timer = none) :
    Inv ((s.cancelTimer timer).setCall i { c with pc := pc }) := by
  obtain ⟨hcancel, hout⟩ := h.cancelTimer hc htimer harmed
  have hcalls : (s.cancelTimer timer).calls = s.calls := by cases timer <;> rfl
  have howner : (s.cancelTimer timer).owner = s.owner := by cases timer <;> rfl
  have hnow : (s.cancelTimer timer).now = s.now := by cases timer <;> rfl
  refine hcancel.setCall (hcalls ▸ hc) (continues_goto c pc) (hnow ▸ hok) (fun t ht => ?_)
    (fun t ht => ?_) (fun t ht hown => ?_) fun _ hw => ?_
  · rw [hfree] at ht
    cases ht
  · dsimp only at ht
    rw [ht] at hfree
    cases hfree
  · exact absurd (howner ▸ hown) (hout t ht)
  · rw [hwaits] at hw
    cases hw

theorem Inv.cancelRefused (h : Inv s) (hc : s.calls[i]? = some c) {timer : Option Nat}
    (hpc : c.pc = .refused timer) :
    Inv ((s.cancelTimer timer).setCall i { c with pc := c.unregistered }) := by
  have hok := h.calls i c hc
  refine h.cancelled_goto hc (by rw [hpc]; rfl) (by rw [hpc]; rfl) (by rw [hpc]; rfl) ?_ ?_
  · rcases unregistered_cases c with heq | ⟨heq, hconnect⟩
    · rw [heq]
      refine hok.goto nofun nofun nofun nofun fun r hr => ?_
      cases hr
      exact hok.refused timer hpc
    · rw [heq]
      exact hok.goto nofun nofun nofun (fun _ => hconnect) nofun
  · rcases unregistered_cases c with heq | ⟨heq, -⟩ <;> rw [heq] <;> rfl

theorem Inv.cancelWoken (h : Inv s) (hc : s.calls[i]? = some c) {timer : Option Nat}
    (hpc : c.pc = .woken timer) :
    Inv ((s.cancelTimer timer).setCall i { c with pc := .check }) :=
  h.cancelled_goto hc (by rw [hpc]; rfl) (by rw [hpc]; rfl) (by rw [hpc]; rfl)
    ((h.calls i c hc).goto nofun nofun nofun nofun nofun) rfl

/-- One step of a call. -/
theorem Inv.move (h : Inv s) (hc : s.calls[i]? = some c) {l : Label} {t : State}
    (hcaller : l.caller = some i) (hfits : DeadlinesFit s l) (hmove : s.move i c l = some t) :
    Inv t := by
  cases l with
  | enter j ctx =>
      simp only [State.move, Option.ite_none_right_eq_some, Option.some.injEq] at hmove
      obtain ⟨hpc, rfl⟩ := hmove
      exact h.enter hc hpc ctx
  | sys j rt errno =>
      simp only [State.move] at hmove
      split at hmove
      · cases hmove
        exact h.direct hc ‹_› rt errno
      · cases hmove
        exact h.sys hc ‹_› rt errno
      · cases hmove
  | arm j u =>
      simp only [State.move] at hmove
      split at hmove
      · rename_i hpc
        split at hmove
        · cases hmove
          exact h.arm_none hc hpc
        · rename_i hms
          split at hmove
          · cases hmove
          · rename_i hheap
            cases hmove
            cases hcaller
            refine h.arm hc hpc (Option.not_isSome_iff_eq_none.mp hheap) ?_
            exact hfits c hc hpc hms
      · cases hmove
  | insert j =>
      simp only [State.move] at hmove
      split at hmove
      · cases hmove
        exact h.insert hc ‹_›
      · cases hmove
  | add j ok =>
      simp only [State.move] at hmove
      split at hmove
      · rename_i timer hpc
        split at hmove
        · cases hmove
        · split at hmove
          · cases hmove
            exact h.addEvent hc hpc
          · cases hmove
            exact h.addFails hc hpc
      · cases hmove
  | cancel j =>
      simp only [State.move] at hmove
      split at hmove
      · cases hmove
        exact h.cancelRefused hc ‹_›
      · cases hmove
        exact h.cancelWoken hc ‹_›
      · cases hmove
  | check j =>
      simp only [State.move, Option.ite_none_right_eq_some, Option.some.injEq] at hmove
      obtain ⟨hpc, rfl⟩ := hmove
      exact h.check hc hpc
  | sockopt j ok errno =>
      simp only [State.move, Option.ite_none_right_eq_some, Option.some.injEq] at hmove
      obtain ⟨hpc, rfl⟩ := hmove
      refine h.sockopt hc hpc ?_
      split
      · exact Or.inl ⟨_, rfl⟩
      · exact Or.inr ⟨_, rfl⟩
  | finish j error =>
      simp only [State.move, Option.ite_none_right_eq_some, Option.some.injEq] at hmove
      obtain ⟨-, rfl⟩ := hmove
      exact h.finish hc error
  | _ => cases hcaller

/-! ### The other steps -/

/-- Only the bits change, and those that are set were set before. -/
theorem Inv.withWaiter (h : Inv s) {waiter : Int → Event → Option Nat}
    (hsub : ∀ fd event i, waiter fd event = some i → s.waiter fd event = some i) :
    Inv { s with waiter := waiter } :=
  h.frame rfl rfl rfl rfl (Nat.le_refl _) (fun _ ht => ht) h.running
    fun fd event i hwait => h.waiter fd event i (hsub fd event i hwait)

/-- The other bits. -/
theorem clear_eq_some {waiter : Int → Event → Option Nat} {fd fd' : Int} {event event' : Event}
    (h : Function.update waiter fd (Function.update (waiter fd) event none) fd' event' = some i) :
    waiter fd' event' = some i ∧ (fd' = fd → event' ≠ event) := by
  by_cases hfd : fd' = fd
  · subst hfd
    rw [Function.update_self] at h
    by_cases hevent : event' = event
    · subst hevent
      rw [Function.update_self] at h
      cases h
    · rw [Function.update_of_ne hevent] at h
      exact ⟨h, fun _ => hevent⟩
  · rw [Function.update_of_ne hfd] at h
    exact ⟨h, fun heq => absurd heq hfd⟩

/-- `triggerEvent` clears the bit and schedules the call that waits. -/
theorem trigger_cases (h : Inv s) (fd : Int) (event : Event) (report : Bool) :
    (s.waiter fd event = none ∧ s.trigger fd event report = s) ∨
    ∃ i c timer, s.waiter fd event = some i ∧ s.calls[i]? = some c ∧ c.fd = fd ∧
      c.kind.event = event ∧ c.pc = .waiting timer ∧
      s.trigger fd event report =
        { s with
          waiter := Function.update s.waiter fd (Function.update (s.waiter fd) event none) }.setCall i
            { c with pc := .woken timer, reported := c.reported || report } := by
  rw [State.trigger]
  cases hwait : s.waiter fd event with
  | none => exact Or.inl ⟨rfl, rfl⟩
  | some i =>
      obtain ⟨c, hc, hfd, hevent, hw⟩ := h.waiter fd event i hwait
      cases hpc : c.pc with
      | waiting timer =>
          refine Or.inr ⟨i, c, timer, rfl, hc, hfd, hevent, hpc, ?_⟩
          dsimp only
          rw [modify_of_getElem? hc, hpc]
          rfl
      | enter | direct | sys | arm | insert | add | refused | woken | check | sockopt | done =>
          rw [hpc] at hw
          cases hw

theorem Inv.trigger (h : Inv s) (fd : Int) (event : Event) (report : Bool) :
    Inv (s.trigger fd event report) := by
  rcases trigger_cases h fd event report with ⟨-, heq⟩ |
    ⟨i, c, timer, hwait, hc, hfd, hevent, hpc, heq⟩
  · rw [heq]
    exact h
  · rw [heq]
    have hclear : Inv { s with
        waiter := Function.update s.waiter fd (Function.update (s.waiter fd) event none) } :=
      h.withWaiter fun fd' event' j hj => (clear_eq_some hj).1
    have hok := h.calls i c hc
    refine hclear.setCall hc ⟨rfl, rfl, fun _ hs => ⟨hs, rfl⟩⟩
      ⟨nofun, hok.since_le, nofun, hok.cancelled, nofun, nofun, nofun⟩ (fun t ht => ?_) nofun
      (fun t _ _ harmed => ?_) ?_
    · exact h.owns i c t hc (by rw [hpc]; exact ht)
    · rw [hpc] at harmed
      exact harmed
    · rintro ⟨fd', event', hwait'⟩
      obtain ⟨hold, hne⟩ := clear_eq_some hwait'
      obtain ⟨d, hd, hfd', hevent', -⟩ := h.waiter fd' event' i hold
      cases hc.symm.trans hd
      exact absurd (hevent'.symm.trans hevent) (hne (hfd'.symm.trans hfd))

/-- A callback finds its `tinfo`, or has found it and goes on. -/
theorem Inv.withRunning (h : Inv s) {running : List (Nat × Bool)} {queue : List Nat}
    (hqueue : ∀ t ∈ queue, t ∈ s.queue)
    (hrunning : ∀ p ∈ running, ∃ c, s.calls[p.1]? = some c ∧ c.Due s.now) :
    Inv { s with queue := queue, running := running } :=
  h.frame rfl rfl rfl rfl (Nat.le_refl _) hqueue hrunning h.waiter

/-- A callback sets `cancelled`. -/
theorem Inv.mark (h : Inv s) (hc : s.calls[i]? = some c) (hdue : c.Due s.now) :
    Inv (s.setCall i { c with cancelled := true }) := by
  have hok := h.calls i c hc
  exact h.setCall hc ⟨rfl, rfl, fun _ hs => ⟨hs, rfl⟩⟩
    ⟨hok.fresh, hok.since_le, hok.blocked, fun _ => hdue, hok.refused, hok.sockopt, fun r hr => by
      have := hok.result r hr
      cases r <;> exact this⟩
    (fun t ht => h.owns i c t hc ht) (fun t ht => h.hands i c t hc ht) (fun _ _ _ ht => ht)
    fun _ hw => hw

/-- The clock goes on. -/
theorem Inv.tick (h : Inv s) {now : UInt64} (hle : s.now ≤ now) : Inv { s with now := now } := by
  have hle : s.now.toNat ≤ now.toNat := UInt64.le_iff_toNat_le.mp hle
  refine h.frame rfl rfl rfl rfl hle (fun _ ht => ht) (fun p hp => ?_) h.waiter
  obtain ⟨c, hc, hdue⟩ := h.running p hp
  exact ⟨c, hc, hdue.mono hle⟩

/-- A new call has waited for nothing yet. -/
theorem Inv.call (h : Inv s) (hpc : c.pc = .enter) (hblocked : c.blocked = none)
    (hcancelled : c.cancelled = false) : Inv { s with calls := s.calls ++ [c] } := by
  have hold {j : Nat} {d : Call} (hd : s.calls[j]? = some d) : (s.calls ++ [c])[j]? = some d := by
    rw [List.getElem?_append_left (List.getElem?_eq_some_iff.mp hd).1, hd]
  have hcases {j : Nat} {d : Call} (hd : (s.calls ++ [c])[j]? = some d) :
      s.calls[j]? = some d ∨ d = c := getElem?_concat_cases hd
  refine ⟨h.alive, h.own, h.held_out, h.held_once, h.queue_alive, fun j d hd => ?_,
    fun j d t hd ht => ?_, fun j d t hd ht => ?_, fun t j hown => ?_, fun p hp => ?_,
    fun fd event j hwait => ?_⟩
  · rcases hcases hd with hd | rfl
    · exact h.calls j d hd
    · refine ⟨fun _ => hblocked, fun since hs => ?_, fun harm => ?_, fun htrue => ?_,
        fun timer hr => ?_, fun hs => ?_, fun r hr => ?_⟩
      · rw [hblocked] at hs
        cases hs
      · cases hpc.symm.trans harm
      · cases hcancelled.symm.trans htrue
      · cases hpc.symm.trans hr
      · cases hpc.symm.trans hs
      · cases hpc.symm.trans hr
  · rcases hcases hd with hd | rfl
    · exact h.owns j d t hd ht
    · rw [hpc] at ht
      cases ht
  · rcases hcases hd with hd | rfl
    · exact (h.hands j d t hd ht).frame rfl rfl
    · cases hpc.symm.trans ht
  · obtain ⟨d, timer, hd, htimer, hok⟩ := h.owned t j hown
    exact ⟨d, timer, hold hd, htimer, hok.frame rfl rfl (fun _ hu => hu) (Nat.le_refl _)⟩
  · obtain ⟨d, hd, hdue⟩ := h.running p hp
    exact ⟨d, hold hd, hdue⟩
  · obtain ⟨d, hd, hrest⟩ := h.waiter fd event j hwait
    exact ⟨d, hold hd, hrest⟩

/-- The first section of `listExpiredCb` takes out only timers that are due. -/
theorem Inv.expire (h : Inv s) (cur : Nat) :
    Inv { s with
      manager := (s.manager.takeExpired s.now cur).1
      taken := s.taken ++ [((s.manager.takeExpired s.now cur).2, s.now)] } := by
  have hsub : (s.manager.takeExpired s.now cur).2.Sublist s.manager.timers :=
    StdSet.below_sublist _ _
  have hleft := TimerManager.mem_left h.alive.sorted s.now cur
  have htaken := TimerManager.mem_taken h.alive.sorted s.now cur
  have hheld (t : Nat) : t ∈ State.held { s with
      manager := (s.manager.takeExpired s.now cur).1
      taken := s.taken ++ [((s.manager.takeExpired s.now cur).2, s.now)] } ↔
      t ∈ s.held ∨ t ∈ (s.manager.takeExpired s.now cur).2 := by
    simp [State.held]
  refine ⟨⟨TimerManager.sorted_takeExpired h.alive.sorted s.now cur, fun t ht =>
      h.alive.alive t ((hleft t).mp ht).1⟩, h.own, fun t ht => ?_, ?_, h.queue_alive, h.calls, h.owns,
    fun i c t hc ht => ?_, fun t i hown => ?_, h.running, h.waiter⟩
  · rcases (hheld t).mp ht with ht | ht
    · obtain ⟨hout, hheap⟩ := h.held_out t ht
      exact ⟨fun hin => hout ((hleft t).mp hin).1, hheap⟩
    · exact ⟨fun hin => ((hleft t).mp hin).2 ht, h.alive.alive t (hsub.subset ht)⟩
  · rw [State.held, List.flatMap_append, List.flatMap_singleton]
    refine List.nodup_append'.mpr ⟨h.held_once, ?_, fun t ht ht' => ?_⟩
    · exact (StdSet.Sorted.nodup s.manager.isOrder_less h.alive.sorted).sublist hsub
    · exact (h.held_out t ht).1 (hsub.subset ht')
  · obtain ⟨hout, hnot, hcb⟩ := h.hands i c t hc ht
    refine ⟨fun hin => hout ((hleft t).mp hin).1, fun hin => ?_, hcb⟩
    exact ((hheld t).mp hin).elim hnot fun hin => hout (hsub.subset hin)
  · obtain ⟨c, timer, hc, htimer, hok⟩ := h.owned t i hown
    refine ⟨c, timer, hc, htimer, hok.once, hok.deadline, fun hin => hok.armed ((hleft t).mp hin).1,
      fun hexp => ?_⟩
    rcases hexp with hin | hin
    · rcases (hheld t).mp hin with hin | hin
      · exact hok.expired (Or.inl hin)
      · obtain ⟨-, hle, -⟩ := (htaken t).mp hin
        rw [TimerManager.next_of_heap htimer, UInt64.le_iff_toNat_le] at hle
        obtain ⟨since, hsince, hdeadline⟩ := hok.deadline
        exact ⟨since, hsince, Nat.le_trans hdeadline hle⟩
    · exact hok.expired (Or.inr hin)

theorem held_eraseIdx {taken : List (List Nat × UInt64)} {k : Nat} {expired : List Nat}
    {cur : UInt64} (hk : taken[k]? = some (expired, cur)) :
    (taken.flatMap Prod.fst).Perm (expired ++ (taken.eraseIdx k).flatMap Prod.fst) := by
  obtain ⟨hlt, hget⟩ := List.getElem?_eq_some_iff.mp hk
  have hperm : taken.Perm ((expired, cur) :: taken.eraseIdx k) := by
    rw [← hget]
    exact (List.getElem_cons_eraseIdx_perm hlt).symm
  exact hperm.flatMap_right _

/-- The second section hands over the callbacks of what was taken out. -/
theorem Inv.putBack (h : Inv s) {k : Nat} {expired : List Nat} {cur : UInt64}
    (hk : s.taken[k]? = some (expired, cur)) :
    Inv { s with
      manager := (s.manager.putBack cur expired).1
      taken := s.taken.eraseIdx k
      queue := s.queue ++ (s.manager.putBack cur expired).2.filterMap id } := by
  have hperm : s.held.Perm (expired ++ (s.taken.eraseIdx k).flatMap Prod.fst) := held_eraseIdx hk
  have hexpired : ∀ t ∈ expired, t ∈ s.held := fun t ht =>
    hperm.mem_iff.mpr (List.mem_append_left _ ht)
  have hrest : ∀ t ∈ (s.taken.eraseIdx k).flatMap Prod.fst, t ∈ s.held := fun t ht =>
    hperm.mem_iff.mpr (List.mem_append_right _ ht)
  have hnodup := hperm.nodup_iff.mp h.held_once
  obtain ⟨hexpiredOnce, hrestOnce, hdisjoint⟩ := List.nodup_append'.mp hnodup
  obtain ⟨hsorted, hkeeps, hset⟩ := TimerManager.putBack_spec cur expired s.manager h.alive.sorted
    hexpiredOnce fun t ht => h.held_out t (hexpired t ht)
  obtain ⟨hcbs, hheap⟩ := TimerManager.putBack_fires cur expired s.manager hexpiredOnce
    fun t ht => (h.held_out t (hexpired t ht)).2
  have hcb (timer : Timer) : (TimerManager.rearm cur timer).cb = timer.cb := by
    rw [TimerManager.rearm]
    split <;> rfl
  have hkept {t : Nat} (ht : s.manager.heap t ≠ none) :
      (s.manager.putBack cur expired).1.heap t ≠ none := by
    obtain ⟨timer, htimer⟩ := Option.ne_none_iff_exists'.mp ht
    obtain ⟨timer', htimer', -⟩ := hkeeps t timer htimer
    rw [htimer']
    exact Option.some_ne_none _
  have hqueue : ∀ t ∈ (s.manager.putBack cur expired).2.filterMap id, t ∈ expired := by
    intro t ht
    obtain ⟨cb, hmem, hid⟩ := List.mem_filterMap.mp ht
    obtain rfl : cb = some t := hid
    rw [hcbs] at hmem
    obtain ⟨ex, hex, heq⟩ := List.mem_map.mp hmem
    obtain ⟨timer, htimer⟩ := Option.ne_none_iff_exists'.mp (h.held_out ex (hexpired ex hex)).2
    rw [TimerManager.cb, htimer, Option.bind_some] at heq
    rcases h.own ex timer htimer with hown | hown
    · cases hown.symm.trans heq
      exact hex
    · cases hown.symm.trans heq
  refine ⟨⟨hsorted, fun t ht => ?_⟩, fun t timer' ht => ?_, fun t ht => ?_, hrestOnce,
    fun t ht => ?_, h.calls, h.owns, fun i c t hc ht => ?_, fun t i hown => ?_, h.running, h.waiter⟩
  · rcases (hset t).mp ht with ht | ⟨ht, -⟩
    · exact hkept (h.alive.alive t ht)
    · exact hkept (h.held_out t (hexpired t ht)).2
  · dsimp only at ht
    rw [hheap] at ht
    split at ht
    · obtain ⟨timer, htimer, rfl⟩ := Option.map_eq_some_iff.mp ht
      rw [hcb]
      exact h.own t timer htimer
    · exact h.own t timer' ht
  · obtain ⟨hout, halive⟩ := h.held_out t (hrest t ht)
    refine ⟨fun hin => ?_, hkept halive⟩
    rcases (hset t).mp hin with hin | ⟨hin, -⟩
    · exact hout hin
    · exact hdisjoint hin ht
  · rcases List.mem_append.mp ht with ht | ht
    · exact hkept (h.queue_alive t ht)
    · exact hkept (h.held_out t (hexpired t (hqueue t ht))).2
  · obtain ⟨hout, hnot, timer, htimer, htcb⟩ := h.hands i c t hc ht
    have hnotin : t ∉ expired := fun hin => hnot (hexpired t hin)
    refine ⟨fun hin => ?_, fun hin => hnot (hrest t hin), timer, ?_, htcb⟩
    · exact ((hset t).mp hin).elim hout fun hin => hnotin hin.1
    · dsimp only
      rw [hheap, if_neg hnotin]
      exact htimer
  · obtain ⟨c, timer, hc, htimer, hok⟩ := h.owned t i hown
    refine ⟨c, timer, hc, ?_, hok.once, hok.deadline, fun hin => ?_, fun hexp => ?_⟩
    · dsimp only
      rw [hheap, htimer, Option.map_some, TimerManager.rearm, hok.once, if_neg Bool.false_ne_true,
        ite_self]
    · rcases (hset t).mp hin with hin | ⟨-, hrec⟩
      · exact hok.armed hin
      · rw [htimer, Option.any_some, hok.once] at hrec
        cases hrec
    · rcases hexp with hin | hin
      · exact hok.expired (Or.inl (hrest t hin))
      · rcases List.mem_append.mp hin with hin | hin
        · exact hok.expired (Or.inr hin)
        · exact hok.expired (Or.inl (hexpired t (hqueue t hin)))

theorem Inv.callback (h : Inv s) {k t : Nat} (hk : s.queue[k]? = some t) {u : State}
    (hstep : step s (.callback k) = some u) : Inv u := by
  have hsub : ∀ t' ∈ s.queue.eraseIdx k, t' ∈ s.queue := fun _ => List.mem_of_mem_eraseIdx
  have hdrop : Inv { s with queue := s.queue.eraseIdx k } := h.withRunning hsub h.running
  simp only [step, hk] at hstep
  split at hstep
  · cases hstep
    exact hdrop
  · rename_i i hown
    obtain ⟨c, timer, hc, -, hok⟩ := h.owned t i hown
    have hrun : Inv { s with
        queue := s.queue.eraseIdx k, running := s.running ++ [(i, false)] } := by
      refine h.withRunning hsub fun p hp => ?_
      rcases List.mem_append.mp hp with hp | hp
      · exact h.running p hp
      · obtain rfl := List.mem_singleton.mp hp
        exact ⟨c, hc, hok.expired (Or.inr (List.mem_of_getElem? hk))⟩
    rw [hc] at hstep
    dsimp only at hstep
    split at hstep
    · cases hstep
      exact hdrop
    · split at hstep
      · cases hstep
        exact hdrop
      · cases hstep
        exact hrun

theorem Inv.markStep (h : Inv s) {k : Nat} (hk : s.running[k]? = some (i, false)) :
    Inv { s with
      running := s.running.set k (i, true)
      calls := s.calls.modify i fun c => { c with cancelled := true } } := by
  obtain ⟨c, hc, hdue⟩ := h.running _ (List.mem_of_getElem? hk)
  rw [modify_of_getElem? hc]
  have hmark := h.mark hc hdue
  refine hmark.withRunning (fun _ ht => ht) fun p hp => ?_
  rcases List.mem_or_eq_of_mem_set hp with hp | rfl
  · exact hmark.running p hp
  · exact hmark.running (i, false) (List.mem_of_getElem? hk)

/-- A step that goes on with a call. -/
theorem Inv.caller {l : Label} {t : State} (h : Inv s) (hfits : DeadlinesFit s l)
    (hcaller : l.caller = some i)
    (hrest : (match s.calls[i]? with
      | none => none
      | some c => s.move i c l) = some t) : Inv t := by
  cases hc : s.calls[i]? with
  | none =>
      rw [hc] at hrest
      cases hrest
  | some c =>
      rw [hc] at hrest
      exact h.move hc hcaller hfits hrest

theorem inv_step {l : Label} {t : State} (h : Inv s) (hfits : DeadlinesFit s l)
    (hstep : step s l = some t) : Inv t := by
  cases l with
  | call hook fd kind =>
      cases hstep
      exact h.call rfl rfl rfl
  | ready fd event =>
      simp only [step, Option.ite_none_right_eq_some, Option.some.injEq] at hstep
      obtain ⟨-, rfl⟩ := hstep
      exact h.trigger fd event true
  | other fd event =>
      cases hstep
      exact h.trigger fd event false
  | expire cur =>
      simp only [step] at hstep
      split at hstep
      · cases hstep
      · split at hstep
        · cases hstep
          exact h
        · cases hstep
          exact h.expire cur
  | putBack k =>
      simp only [step] at hstep
      split at hstep
      · cases hstep
      · rename_i expired cur hk
        cases hstep
        exact h.putBack hk
  | callback k =>
      cases hk : s.queue[k]? with
      | none =>
          simp only [step, hk] at hstep
          cases hstep
      | some u => exact h.callback hk hstep
  | mark k =>
      simp only [step] at hstep
      split at hstep
      · rename_i i hk
        cases hstep
        exact h.markStep hk
      · cases hstep
  | cancelEvent k ok =>
      have hdrop : Inv { s with running := s.running.eraseIdx k } :=
        h.withRunning (fun _ ht => ht) fun p hp => h.running p (List.mem_of_mem_eraseIdx hp)
      simp only [step] at hstep
      split at hstep
      · split at hstep
        · cases hstep
          exact hdrop
        · cases hstep
          split
          · exact hdrop.trigger _ _ _
          · exact hdrop
      · cases hstep
  | tick now =>
      simp only [step, Option.ite_none_right_eq_some, Option.some.injEq] at hstep
      obtain ⟨hle, rfl⟩ := hstep
      exact h.tick hle
  | user op =>
      simp only [step, Option.ite_none_right_eq_some, Option.some.injEq] at hstep
      obtain ⟨⟨hfresh, hown⟩, rfl⟩ := hstep
      refine h.user hown fun t ms recurring heq => ?_
      subst heq
      exact Option.isNone_iff_eq_none.mp hfresh
  | enter i ctx => exact h.caller hfits rfl hstep
  | sys i rt errno => exact h.caller hfits rfl hstep
  | arm i u => exact h.caller hfits rfl hstep
  | insert i => exact h.caller hfits rfl hstep
  | add i ok => exact h.caller hfits rfl hstep
  | cancel i => exact h.caller hfits rfl hstep
  | check i => exact h.caller hfits rfl hstep
  | sockopt i ok errno => exact h.caller hfits rfl hstep
  | finish i error => exact h.caller hfits rfl hstep

/-! ### Whose `tinfo` a callback sets -/

/-- `cancelled` of a call is set by a callback of one of its own timers only, and the callback of a call
that has returned does nothing. -/
structure CallbacksLocal (s : State) (l : Label) : Prop where
  own : ∀ t, step s l = some t → ∀ i c, s.calls[i]? = some c →
    ∃ c', t.calls[i]? = some c' ∧
      (c'.cancelled = c.cancelled ∨ ∃ k, l = .mark k ∧ s.running[k]? = some (i, false))
  returned : ∀ t k u i c r, l = .callback k → step s l = some t → s.queue[k]? = some u →
    s.owner u = some i → s.calls[i]? = some c → c.pc = .done r →
    t.calls = s.calls ∧ t.running = s.running

theorem callbacksLocal (s : State) (l : Label) : CallbacksLocal s l where
  own := fun t hstep i c hc => by
    rcases sameTinfos_of_step hstep with hsame | ⟨k, rfl⟩
    · obtain ⟨c', hc', heq⟩ := hsame i c hc
      exact ⟨c', hc', Or.inl heq⟩
    · simp only [step] at hstep
      split at hstep
      · rename_i j hk
        cases hstep
        dsimp only
        by_cases hij : j = i
        · subst hij
          exact ⟨{ c with cancelled := true }, by simp [hc], Or.inr ⟨k, rfl, hk⟩⟩
        · exact ⟨c, by simp [hij, hc], Or.inl rfl⟩
      · cases hstep
  returned := fun t k u i c r hl hstep hk hown hc hdone => by
    subst hl
    simp only [step, hk, hown, hc, hdone] at hstep
    cases hstep
    exact ⟨rfl, rfl⟩

/-! ### Runs -/

/-- In every run in which no deadline wraps around, a call that has returned has timed out only when
due and leaves neither a timer nor an event behind, and a callback sets `cancelled` only for the call it
belongs to. -/
theorem allSettled_of_run (now : UInt64) (ls : List Label)
    (h : StepsMeet step DeadlinesFit (init now) ls) :
    StatesMeet step AllSettled (init now) ls ∧ StepsMeet step CallbacksLocal (init now) ls :=
  ⟨statesMeet_of_invariant (fun _ hinv => hinv.allSettled) (fun _ _ _ => inv_step) ls _
      (inv_init now) h,
    stepsMeet_of_invariant (I := fun _ => True) (C := fun _ _ => True)
      (fun s l _ _ => callbacksLocal s l) (fun _ _ _ _ _ _ => trivial) ls _ trivial
      (stepsMeet_true ls _)⟩

/-- A socket with a receive timeout. -/
def socketWith (recvTimeout : UInt64) : FdContext :=
  { FdContext.new 5 (some true) with recvTimeout := recvTimeout }

/-- A read that finds nothing, with a timer that expires when `elapsed` milliseconds have passed. -/
def timedOutRead (recvTimeout elapsed : UInt64) : List Label :=
  [.call true 5 (.io .read SO_RCVTIMEO), .enter 0 (some (socketWith recvTimeout)),
   .sys 0 (-1) EAGAIN, .arm 0 7, .insert 0, .add 0 true, .tick (5000 + elapsed), .expire 9, .putBack 0,
   .callback 0, .mark 0, .cancelEvent 0 true, .cancel 0, .check 0]

theorem timedOutRead_settled :
    (StatesMeet step AllSettled (init 5000) (timedOutRead 100 100) ∧
      StepsMeet step CallbacksLocal (init 5000) (timedOutRead 100 100)) ∧
    ((run step (init 5000) (timedOutRead 100 100)).bind fun s => s.calls[0]?.map Call.pc) =
      some (.done .timedOut) :=
  ⟨allSettled_of_run 5000 (timedOutRead 100 100) (by decide), by decide⟩

/-- The timeout that `{-1, 0}` sets: the deadline lies before the clock. -/
theorem wrapped_not_settled : ¬ ∀ (now : UInt64) (ls : List Label),
    StatesMeet step AllSettled (init now) ls := by
  intro h
  have hobserved : ((run step (init 5000) (timedOutRead (-1000) 0)).bind fun s =>
      s.calls[0]?.map fun c => (c.pc, c.blocked, c.timeout, s.now)) =
        some (.done .timedOut, some 5000, (-1000 : UInt64), 5000) := by decide
  obtain ⟨s, hs, hobserved⟩ := Option.bind_eq_some_iff.mp hobserved
  obtain ⟨c, hc, hobserved⟩ := Option.map_eq_some_iff.mp hobserved
  simp only [Prod.mk.injEq] at hobserved
  obtain ⟨hpc, hblocked, htimeout, hnow⟩ := hobserved
  obtain ⟨since, hsince, hdue⟩ :=
    (statesMeet_run _ _ _ (h 5000 (timedOutRead (-1000) 0)) hs 0 c .timedOut hc hpc).explained
  rw [hblocked] at hsince
  cases hsince
  rw [htimeout, hnow] at hdue
  exact absurd hdue (by decide)

end Timed

end Hook

end Saturn
