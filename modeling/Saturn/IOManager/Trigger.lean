import Saturn.IOManager.Bookkeeping

/-!
# The assertion of `triggerEvent`

`cancelEvent` and `cancelAll` trigger what they find waiting. `idle` triggers what the kernel
reported, and the report is older than the lock it takes: where it finds only one of two reported
directions in `fc->events`, it triggers the other one all the same.
-/

namespace Saturn

namespace IOManager

/-- The context and the direction that thread `tid` calls `triggerEvent` for next. -/
def State.triggering (s : State) (tid : Nat) : Option (Nat × Event) :=
  match s.threads[tid]? with
  | some (.inside fc (.act (.assertEvent e) _) _) => some (fc, e)
  | _ => none

/-- The call of `triggerEvent`, if this is one, is made with the bit set. -/
def TriggerHolds (s : State) : Label → Prop
  | .move tid _ => s.halted = none → ∀ fe ∈ s.triggering tid, ∀ c ∈ s.contexts[fe.1]?,
      c.events.has fe.2 = true
  | _ => True

/-- The reported event that thread `tid` locks the context for next. -/
def State.dispatching (s : State) (tid : Nat) : Option EpollEvent :=
  match s.threads[tid]? with
  | some (.dispatch (event :: _)) => some event
  | _ => none

/-- The section goes on to its program: its call of `epoll_ctl` succeeds. -/
def Section.Runs (epoll : Epoll) (fd ptr : Nat) (ok : Bool) : Section → Prop
  | .ctl op mask _ => (epollCtl epoll op fd ⟨mask, ptr⟩ ok).isSome
  | _ => False

instance (epoll : Epoll) (fd ptr : Nat) (ok : Bool) :
    (sec : Section) → Decidable (sec.Runs epoll fd ptr ok)
  | .ctl .. => inferInstanceAs (Decidable (_ = true))
  | .halt _ | .leave _ => isFalse id

/-- A dispatch that goes on to trigger events finds all reported directions in `fc->events`. -/
def DispatchMatches (s : State) : Label → Prop
  | .move tid ok => s.halted = none → ∀ event ∈ s.dispatching tid, ∀ c ∈ s.contexts[event.ptr]?,
      c.owner = none → (dispatchSection event c).Runs s.epoll c.fd event.ptr ok →
      (event.realEvents c.events).diff c.events = .none
  | _ => True

instance (s : State) : (l : Label) → Decidable (TriggerHolds s l)
  | .move .. => inferInstanceAs (Decidable (_ → _))
  | .call .. | .wait .. => isTrue trivial

instance (s : State) : (l : Label) → Decidable (DispatchMatches s l)
  | .move .. => inferInstanceAs (Decidable (_ → _))
  | .call .. | .wait .. => isTrue trivial

/-- No assertion of `triggerEvent` stops the program when it starts with these bits. -/
def Prog.TriggersHold : Prog → Events → Prop
  | .ret _, _ => True
  | .act a next, ev => ¬ a.Stops ev ∧ next.TriggersHold (a.onEvents ev)
  | .ifEvent e yes no, ev => if ev.has e then yes.TriggersHold ev else no.TriggersHold ev

theorem meets_of_triggersHold : ∀ (prog : Prog) (c : FdContext), prog.TriggersHold c.events →
    prog.Meets (fun a c => ¬ a.Stops c.events) (fun _ => True) c := by
  intro prog
  induction prog with
  | ret result => intro c _; trivial
  | act a next ih =>
      intro c h
      refine ⟨h.1, fun call c' hok => ih c' ?_⟩
      rw [(onContext_events hok).1]
      exact h.2
  | ifEvent e yes no ihYes ihNo =>
      intro c h
      rw [Prog.TriggersHold] at h
      rw [Prog.Meets]
      split <;> rename_i hhas
      · rw [if_pos hhas] at h
        exact ihYes c h
      · rw [if_neg hhas] at h
        exact ihNo c h

theorem triggerEvent_triggersHold {e : Event} {next : Prog} {ev : Events} :
    (triggerEvent e (.act .decPending next)).TriggersHold ev ↔
      ev.has e = true ∧ next.TriggersHold (ev.erase e) := by
  simp [triggerEvent, Prog.TriggersHold, Act.Stops, Act.onEvents]

/-- The sections of the four operations only trigger what they find. -/
theorem lockedSection_triggersHold {call : Call} {c : FdContext} {op : EpollOp} {mask : EpollMask}
    {prog : Prog} (hsec : call.lockedSection c = .ctl op mask prog) : prog.TriggersHold c.events := by
  cases call with
  | addEvent fd e task scheduler =>
      simp only [Call.lockedSection, addEventSection] at hsec
      split at hsec
      · cases hsec
      · cases hsec
        cases task <;> simp [Prog.TriggersHold, Act.Stops]
  | delEvent fd e =>
      simp only [Call.lockedSection, delEventSection] at hsec
      split at hsec
      · cases hsec
        simp [Prog.TriggersHold, Act.Stops]
      · cases hsec
  | cancelEvent fd e =>
      simp only [Call.lockedSection, cancelEventSection] at hsec
      split at hsec
      · rename_i hhas
        cases hsec
        simp [triggerEvent, Prog.TriggersHold, Act.Stops, Act.onEvents, hhas]
      · cases hsec
  | cancelAll fd =>
      simp only [Call.lockedSection, cancelAllSection] at hsec
      split at hsec
      · cases hsec
      · cases hsec
        have hlast : ∀ ev, (Prog.act .assertNone (.ret true)).TriggersHold ev := fun ev => ⟨id, trivial⟩
        have hbranch : ∀ (e : Event) (rest : Prog) (ev : Events), (∀ ev, rest.TriggersHold ev) →
            (Prog.ifEvent e (triggerEvent e (.act .decPending rest)) rest).TriggersHold ev := by
          intro e rest ev hrest
          rw [Prog.TriggersHold]
          split
          · rename_i hhas
            exact triggerEvent_triggersHold.mpr ⟨hhas, hrest _⟩
          · exact hrest ev
        exact hbranch .read _ _ fun ev => hbranch .write _ ev hlast

/-- The section of `idle` triggers what was reported. -/
theorem dispatchSection_triggersHold {event : EpollEvent} {c : FdContext} {op : EpollOp}
    {mask : EpollMask} {prog : Prog} (hsec : dispatchSection event c = .ctl op mask prog) :
    prog.TriggersHold c.events ↔ (event.realEvents c.events).diff c.events = .none := by
  simp only [dispatchSection] at hsec
  split at hsec
  · cases hsec
  · cases hsec
    generalize c.events = ev
    generalize event.realEvents ev = real
    obtain ⟨read, write⟩ := ev
    obtain ⟨real_read, real_write⟩ := real
    cases read <;> cases write <;> cases real_read <;> cases real_write <;>
      simp [triggerEvent_triggersHold, Prog.TriggersHold, Events.has, Events.erase, Events.diff,
        Events.none]

/-- The invariant: whoever is in a section runs into no failing trigger. -/
abbrev TriggersKept (s : State) : Prop :=
  Framed (fun a c => ¬ a.Stops c.events) (fun _ => True) (fun _ => True) s

theorem halted_of_step {s t : State} {l : Label} (h : step s l = some t) : s.halted = none := by
  unfold step at h
  split at h
  · assumption
  · cases h

theorem triggersKept_step {s t : State} {l : Label} (h : TriggersKept s) (hl : DispatchMatches s l)
    (hstep : step s l = some t) : TriggersKept t := by
  refine h.step hstep (fun _ => trivial) (fun _ _ => trivial) ?_
  rintro tid fc fd ok c op mask prog back rfl hc howner - hstarts hctl
  refine meets_of_triggersHold _ _ ?_
  change prog.TriggersHold c.events
  rcases hstarts with ⟨call, -, -, hsec, -⟩ | ⟨event, rest, hpc, rfl, rfl, hsec, -⟩
  · exact lockedSection_triggersHold hsec.symm
  · refine (dispatchSection_triggersHold hsec.symm).mpr (hl (halted_of_step hstep) event ?_ c hc
      howner ?_)
    · rw [State.dispatching, hpc]
      rfl
    · rw [← hsec]
      exact hctl

theorem triggerHolds_of_kept {s : State} (h : TriggersKept s) (l : Label) : TriggerHolds s l := by
  cases l with
  | move tid ok =>
      intro _ fe hfe c hc
      rw [State.triggering] at hfe
      split at hfe
      · rename_i fc e next back hpc
        cases hfe
        obtain ⟨c₁, hc₁, -, hmeets⟩ := h.inside tid fc _ back hpc
        rw [hc₁] at hc
        cases hc
        have hstops := hmeets.1
        simpa [Act.Stops] using hstops
      · cases hfe
  | call tid call => trivial
  | wait tid ready => trivial

section Exact

/-- Thread `tid` is in the section of context `fc`, which is `c`. -/
structure At (s : State) (tid fc : Nat) (c : FdContext) (prog : Prog)
    (back : Option (List EpollEvent)) : Prop where
  halted : s.halted = none
  thread : s.threads[tid]? = some (.inside fc prog back)
  context : s.contexts[fc]? = some c

variable {s t : State} {tid fc : Nat} {c d : FdContext} {back : Option (List EpollEvent)}

theorem At.act {a : Act} {next : Prog} (h : At s tid fc c (.act a next) back)
    (hexec : a ≠ .assertExec) (hok : a.onContext s.added.length c = .ok d) :
    ∃ t, step s (.move tid true) = some t ∧ At t tid fc d next back := by
  have hstep : step s (.move tid true) = some (s.exec tid fc c (.act a next) back true) := by
    simp only [step, if_pos h.halted, h.thread, State.move, h.context]
  rw [State.exec, if_neg fun hboth => hexec hboth.1, hok] at hstep
  refine ⟨_, hstep, h.halted, ?_, ?_⟩
  · change (s.threads.set tid _)[tid]? = _
    rw [getElem?_set_of_some h.thread, if_pos rfl]
  · change (s.contexts.set fc d)[fc]? = _
    rw [getElem?_set_of_some h.context, if_pos rfl]

theorem not_stepsMeet_cons {l : Label} {ls : List Label} {C : State → Label → Prop}
    (hstep : step s l = some t) (h : ¬ StepsMeet step C t ls) : ¬ StepsMeet step C s (l :: ls) :=
  fun hmeets => h (hmeets.2 t hstep)

theorem At.not_triggerHolds {e : Event} {next : Prog} (h : At s tid fc c (.act (.assertEvent e) next) back)
    (hclear : c.events.has e = false) (ls : List Label) :
    ¬ StepsMeet step TriggerHolds s (.move tid true :: ls) := by
  intro hmeets
  have hhas := hmeets.1 h.halted (fc, e) (by rw [State.triggering, h.thread]; rfl) c h.context
  rw [hclear] at hhas
  cases hhas

/-- A call of `triggerEvent` for what waits comes through in five steps, with the decrement. -/
theorem At.triggerEvent {e : Event} {next : Prog}
    (h : At s tid fc c (triggerEvent e (.act .decPending next)) back) (hagrees : c.Agrees e)
    (hhas : c.events.has e = true) {ls : List Label}
    (hrest : ∀ t, At t tid fc (c.cleared e) next back → ¬ StepsMeet step TriggerHolds t ls) :
    ¬ StepsMeet step TriggerHolds s (List.replicate 5 (.move tid true) ++ ls) := by
  obtain ⟨s₁, hs₁, h₁⟩ := h.act (d := c) (by simp) (by rw [Act.onContext, if_pos hhas])
  obtain ⟨s₂, hs₂, h₂⟩ := h₁.act (by simp) rfl
  obtain ⟨c₃, hc₃, hc₄⟩ := hagrees.schedule hhas s₂.added.length (c.events.erase e)
  obtain ⟨s₃, hs₃, h₃⟩ := h₂.act (by simp) hc₃
  obtain ⟨s₄, hs₄, h₄⟩ := h₃.act (by simp) hc₄
  obtain ⟨s₅, hs₅, h₅⟩ := h₄.act (by simp) rfl
  exact not_stepsMeet_cons hs₁ <| not_stepsMeet_cons hs₂ <| not_stepsMeet_cons hs₃ <|
    not_stepsMeet_cons hs₄ <| not_stepsMeet_cons hs₅ <| hrest s₅ h₅

/-- The exactness of the condition: where a dispatch does not meet it, the thread that makes it
runs into a failing trigger. -/
theorem dispatch_fails (hkept : Kept s) {ok : Bool} (h : ¬ DispatchMatches s (.move tid ok)) :
    ¬ StepsMeet step TriggerHolds s (List.replicate 7 (.move tid true)) := by
  simp only [DispatchMatches, Classical.not_forall] at h
  obtain ⟨hhalted, event, hevent, c, hcmem, howner, hruns, hdiff⟩ := h
  have hc : s.contexts[event.ptr]? = some c := hcmem
  have hpc : ∃ rest, s.threads[tid]? = some (.dispatch (event :: rest)) := by
    rw [State.dispatching] at hevent
    split at hevent
    · rename_i rest hpc
      cases hevent
      exact ⟨rest, hpc⟩
    · cases hevent
  obtain ⟨rest, hpc⟩ := hpc
  have hconsistent := (hkept.unlocked _ c hc howner).owner (some tid)
  cases hsec : dispatchSection event c with
  | halt reason => rw [hsec] at hruns; exact hruns.elim
  | leave result => rw [hsec] at hruns; exact hruns.elim
  | ctl op mask prog =>
      rw [hsec] at hruns
      obtain ⟨epoll, hctl⟩ := Option.isSome_iff_exists.mp hruns
      have hok : ok = true := by
        cases ok with
        | true => rfl
        | false => cases hctl
      subst hok
      have hat : ∃ t, step s (.move tid true) = some t ∧
          At t tid event.ptr { c with owner := some tid } prog (some rest) := by
        have hstep : step s (.move tid true) =
            some (s.lock tid event.ptr c c.fd (.ctl op mask prog) (some rest) true) := by
          simp only [step, if_pos hhalted, hpc, State.move, hc, if_pos howner, hsec]
        rw [State.lock, hctl] at hstep
        refine ⟨_, hstep, hhalted, ?_, ?_⟩
        · change (s.threads.set tid _)[tid]? = _
          rw [getElem?_set_of_some hpc, if_pos rfl]
        · change (s.contexts.set event.ptr _)[event.ptr]? = _
          rw [getElem?_set_of_some hc, if_pos rfl]
      obtain ⟨t, ht, hat⟩ := hat
      refine not_stepsMeet_cons ht ?_
      simp only [dispatchSection] at hsec
      split at hsec
      · cases hsec
      rename_i hinter
      cases hsec
      cases hread : c.events.read <;> cases hwrite : c.events.write <;>
        cases hrealRead : (event.realEvents c.events).read <;>
        cases hrealWrite : (event.realEvents c.events).write <;>
        simp [Events.inter, Events.diff, Events.none, hread, hwrite, hrealRead, hrealWrite]
          at hinter hdiff
      · -- only the second direction is waited for
        rw [hrealRead] at hat
        exact hat.not_triggerHolds hread _
      · -- only the first one is
        rw [hrealRead, hrealWrite] at hat
        refine hat.triggerEvent (hconsistent .read) hread fun t' hat' => ?_
        exact hat'.not_triggerHolds (by rw [FdContext.cleared, setContext_events]; exact hwrite) []

/-- No call of `triggerEvent` fails its assertion in a run in which every dispatch that triggers
events finds all reported directions in `fc->events`; and from a state in which the next dispatch
does not, the run can go on to a call that does. -/
theorem trigger_holds_of_run (threads : Nat) (ls : List Label) :
    (StepsMeet step DispatchMatches (init threads) ls →
      StepsMeet step TriggerHolds (init threads) ls) ∧
    ∀ s tid ok, run step (init threads) ls = some s → ¬ DispatchMatches s (.move tid ok) →
      ¬ StepsMeet step TriggerHolds s (List.replicate 7 (.move tid true)) := by
  constructor
  · exact stepsMeet_of_invariant (fun s l hs _ => triggerHolds_of_kept hs l)
      (fun _ _ _ => triggersKept_step) ls _ (framed_init (fun _ => trivial) threads)
  · intro s tid ok hs hno
    exact dispatch_fails (run_invariant (C := fun _ _ => True)
      (fun _ _ _ hs _ => kept_step hs) ls _ s (kept_init threads) (stepsMeet_true ls _) hs) hno

end Exact

/-- Descriptor 5 is waited for in both directions and reported in both; before the report is
dispatched, the reader is deleted. -/
def staleReport : List Label :=
  [.call 0 (.addEvent 5 .read (.cb 0) 0)] ++ List.replicate 7 (.move 0 true) ++
  [.call 0 (.addEvent 5 .write (.cb 1) 0)] ++ List.replicate 7 (.move 0 true) ++
  [.wait 1 [(5, ⟨5, true, true, false, false⟩)]] ++
  [.call 0 (.delEvent 5 .read)] ++ List.replicate 6 (.move 0 true) ++
  List.replicate 2 (.move 1 true)

/-- `idle` triggers the deleted direction. -/
theorem staleReport_fails : ¬ StepsMeet step TriggerHolds (init 2) staleReport := by
  decide

end IOManager

end Saturn
