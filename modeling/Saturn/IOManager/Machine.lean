import Saturn.IOManager.Defs
import Saturn.Misc.ListUpdate
import Saturn.Misc.Run

/-!
# Steps of the `IOManager` machine

`StepCase` lists what one step can be, with everything later proofs need of it. `Framed` is the
shape that the invariants of the locked sections share: an unlocked context meets `J`, and a thread
that holds a lock has a program left to run that meets `P` at each statement and `Q` at its end.
-/

namespace Saturn

namespace IOManager

/-- A thread that holds no lock. -/
def Pc.Outside : Pc → Prop
  | .inside .. => False
  | _ => True

@[simp] theorem outside_leave (back : Option (List EpollEvent)) (result : Bool) :
    (Pc.leave back result).Outside := by
  cases back <;> trivial

theorem Pc.Outside.ne_inside {pc : Pc} (h : pc.Outside) (fc : Nat) (prog : Prog)
    (back : Option (List EpollEvent)) : pc ≠ .inside fc prog back := by
  rintro rfl
  exact h

/-- Thread `tid` is about to lock context number `fc`, which is `c`, for a section. -/
def Starts (s : State) (tid fc : Nat) (c : FdContext) (fd : Nat) (sec : Section)
    (back : Option (List EpollEvent)) : Prop :=
  (∃ call, s.threads[tid]? = some (.enter call fc) ∧ fd = call.fd ∧ sec = call.lockedSection c ∧
    back = none) ∨
  ∃ event rest, s.threads[tid]? = some (.dispatch (event :: rest)) ∧ event.ptr = fc ∧ fd = c.fd ∧
    sec = dispatchSection event c ∧ back = some rest

theorem Starts.outside {s : State} {tid fc fd : Nat} {c : FdContext} {sec : Section}
    {back : Option (List EpollEvent)} (h : Starts s tid fc c fd sec back) :
    ∃ pc, s.threads[tid]? = some pc ∧ pc.Outside := by
  rcases h with ⟨call, hpc, -⟩ | ⟨event, rest, hpc, -⟩
  · exact ⟨_, hpc, trivial⟩
  · exact ⟨_, hpc, trivial⟩

/-- What one step can be. -/
inductive StepCase (s : State) : Label → State → Prop where
  /-- A thread outside the sections moves on, and nothing else changes. -/
  | goto (l : Label) (tid : Nat) (pc pc' : Pc) : s.threads[tid]? = some pc → pc.Outside →
      pc'.Outside → StepCase s l (s.setPc tid pc')
  | halt (l : Label) (h : Halt) : StepCase s l (s.halt h)
  | grow (tid fc : Nat) (ok : Bool) (call : Call) : s.threads[tid]? = some (.grow call) →
      call.fd * 2 < 2 ^ 31 → (s.contextResize (call.fd * 2)).table[call.fd]? = some fc →
      StepCase s (.move tid ok) ((s.contextResize (call.fd * 2)).setPc tid (.enter call fc))
  | growHalt (tid : Nat) (ok : Bool) (call : Call) (h : Halt) :
      s.threads[tid]? = some (.grow call) → call.fd * 2 < 2 ^ 31 →
      StepCase s (.move tid ok) ((s.contextResize (call.fd * 2)).halt h)
  /-- `epoll_ctl` succeeds. -/
  | lock (tid fc fd : Nat) (ok : Bool) (c : FdContext) (back : Option (List EpollEvent))
      (op : EpollOp) (mask : EpollMask) (prog : Prog) (epoll : Epoll) :
      s.contexts[fc]? = some c → c.owner = none → Starts s tid fc c fd (.ctl op mask prog) back →
      epollCtl s.epoll op fd ⟨mask, fc⟩ ok = some epoll →
      StepCase s (.move tid ok)
        (({ s with epoll := epoll }.setFc fc { c with owner := some tid }).setPc tid
          (.inside fc prog back))
  | unlock (tid fc : Nat) (ok : Bool) (c : FdContext) (result : Bool)
      (back : Option (List EpollEvent)) : s.contexts[fc]? = some c →
      s.threads[tid]? = some (.inside fc (.ret result) back) →
      StepCase s (.move tid ok)
        ((s.setFc fc { c with owner := none }).setPc tid (.leave back result))
  | branch (tid fc : Nat) (ok : Bool) (c : FdContext) (e : Event) (yes no : Prog)
      (back : Option (List EpollEvent)) : s.contexts[fc]? = some c →
      s.threads[tid]? = some (.inside fc (.ifEvent e yes no) back) →
      StepCase s (.move tid ok)
        (s.setPc tid (.inside fc (if c.events.has e then yes else no) back))
  | act (tid fc : Nat) (ok : Bool) (c c' : FdContext) (a : Act) (next : Prog)
      (back : Option (List EpollEvent)) : s.contexts[fc]? = some c →
      s.threads[tid]? = some (.inside fc (.act a next) back) →
      a.onContext s.added.length c = .ok c' →
      StepCase s (.move tid ok)
        (({ s with
            pending := s.pending + a.pending
            added := s.added ++ a.added s.added.length
            dropped := s.dropped ++ a.dropped c
            scheduled := s.scheduled ++ a.scheduled c }.setFc fc c').setPc tid
          (.inside fc next back))

theorem stepCase_of_lock {s : State} {tid fc fd : Nat} {ok : Bool} {c : FdContext} {sec : Section}
    {back : Option (List EpollEvent)} {pc : Pc} (hc : s.contexts[fc]? = some c)
    (howner : c.owner = none) (hpc : s.threads[tid]? = some pc) (hout : pc.Outside)
    (hstarts : Starts s tid fc c fd sec back) :
    StepCase s (.move tid ok) (s.lock tid fc c fd sec back ok) := by
  cases sec with
  | halt h => exact .halt _ h
  | leave result => exact .goto _ tid pc _ hpc hout (outside_leave ..)
  | ctl op mask prog =>
      rw [State.lock]
      split
      · exact .goto _ tid pc _ hpc hout (outside_leave ..)
      · rename_i epoll hctl
        exact .lock tid fc fd ok c back op mask prog epoll hc howner hstarts hctl

theorem stepCase_of_exec {s : State} {tid fc : Nat} {ok : Bool} {c : FdContext} {prog : Prog}
    {back : Option (List EpollEvent)} (hc : s.contexts[fc]? = some c)
    (hpc : s.threads[tid]? = some (.inside fc prog back)) :
    StepCase s (.move tid ok) (s.exec tid fc c prog back ok) := by
  cases prog with
  | ret result => exact .unlock tid fc ok c result back hc hpc
  | ifEvent e yes no => exact .branch tid fc ok c e yes no back hc hpc
  | act a next =>
      rw [State.exec]
      split
      · exact .halt _ _
      split
      · exact .halt _ _
      · rename_i c' hok
        exact .act tid fc ok c c' a next back hc hpc hok

theorem stepCase_of_move {s t : State} {tid : Nat} {ok : Bool} {pc : Pc}
    (hpc : s.threads[tid]? = some pc) (h : s.move tid ok pc = some t) :
    StepCase s (.move tid ok) t := by
  cases pc with
  | out result => cases h
  | lookup call =>
      simp only [State.move] at h
      cases hfc : s.table[call.fd]? with
      | some fc =>
          simp only [hfc] at h
          cases h
          exact .goto _ tid _ _ hpc trivial trivial
      | none =>
          simp only [hfc] at h
          cases call <;> cases h <;> exact .goto _ tid _ _ hpc trivial trivial
  | grow call =>
      rw [State.move] at h
      split at h
      · cases h
        exact .halt _ _
      rename_i hfit
      cases hfc : (s.contextResize (call.fd * 2)).table[call.fd]? with
      | some fc =>
          simp only [hfc] at h
          cases h
          exact .grow tid fc ok call hpc (Nat.lt_of_not_le hfit) hfc
      | none =>
          simp only [hfc] at h
          cases h
          exact .growHalt tid ok call _ hpc (Nat.lt_of_not_le hfit)
  | enter call fc =>
      rw [State.move] at h
      cases hc : s.contexts[fc]? with
      | none => rw [hc] at h; cases h
      | some c =>
          rw [hc] at h
          dsimp only at h
          split at h
          · rename_i howner
            cases h
            exact stepCase_of_lock hc howner hpc trivial (Or.inl ⟨call, hpc, rfl, rfl, rfl⟩)
          · cases h
  | dispatch events =>
      cases events with
      | nil =>
          cases h
          exact .goto _ tid _ _ hpc trivial trivial
      | cons event rest =>
          rw [State.move] at h
          cases hc : s.contexts[event.ptr]? with
          | none => rw [hc] at h; cases h
          | some c =>
              rw [hc] at h
              dsimp only at h
              split at h
              · rename_i howner
                cases h
                exact stepCase_of_lock hc howner hpc trivial
                  (Or.inr ⟨event, rest, hpc, rfl, rfl, rfl, rfl⟩)
              · cases h
  | inside fc prog back =>
      rw [State.move] at h
      cases hc : s.contexts[fc]? with
      | none => rw [hc] at h; cases h
      | some c =>
          rw [hc] at h
          cases h
          exact stepCase_of_exec hc hpc

/-- A step is one of the cases. -/
theorem stepCase_of_step {s t : State} {l : Label} (h : step s l = some t) : StepCase s l t := by
  unfold step at h
  split at h
  · cases l with
    | call tid call =>
        dsimp only at h
        split at h
        · rename_i hpc
          cases h
          exact .goto _ tid _ _ hpc trivial trivial
        · cases h
    | wait tid ready =>
        dsimp only at h
        split at h
        · rename_i hpc _
          cases h
          exact .goto _ tid _ _ hpc trivial trivial
        · cases h
    | move tid ok =>
        dsimp only at h
        split at h
        · rename_i hpc
          exact stepCase_of_move hpc h
        · cases h
  · cases h

/-- A statement changes neither the lock nor the descriptor. -/
theorem onContext_owner {a : Act} {call : Nat} {c c' : FdContext}
    (h : a.onContext call c = .ok c') : c'.owner = c.owner := by
  cases a with
  | fill e task scheduler =>
      cases task <;> cases e <;> cases h <;> rfl
  | schedule e =>
      simp only [Act.onContext] at h
      split at h
      · cases e <;> cases h <;> rfl
      · cases h
  | assertEmpty e | assertEvent e | assertNone =>
      simp only [Act.onContext] at h
      split at h
      · cases h; rfl
      · cases h
  | resetContext e | clearScheduler e => cases e <;> cases h <;> rfl
  | _ => cases h; rfl

/-- The program runs from `c` with `P` at each statement, and ends with `Q`, unless it is halted. -/
def Prog.Meets (P : Act → FdContext → Prop) (Q : FdContext → Prop) : Prog → FdContext → Prop
  | .ret _, c => Q c
  | .act a next, c => P a c ∧ ∀ call c', a.onContext call c = .ok c' → next.Meets P Q c'
  | .ifEvent e yes no, c => if c.events.has e then yes.Meets P Q c else no.Meets P Q c

/-- An invariant of the locked sections. -/
structure Framed (P : Act → FdContext → Prop) (Q J : FdContext → Prop) (s : State) : Prop where
  inside : ∀ (tid fc : Nat) (prog : Prog) (back : Option (List EpollEvent)),
    s.threads[tid]? = some (.inside fc prog back) →
    ∃ c, s.contexts[fc]? = some c ∧ c.owner = some tid ∧ prog.Meets P Q c
  unlocked : ∀ (fc : Nat) (c : FdContext), s.contexts[fc]? = some c → c.owner = none → J c
  locked : ∀ (fc : Nat) (c : FdContext) (tid : Nat), s.contexts[fc]? = some c →
    c.owner = some tid → ∃ prog back, s.threads[tid]? = some (.inside fc prog back)

section Framed

variable {P : Act → FdContext → Prop} {Q J : FdContext → Prop} {s t : State}

/-- A thread outside the sections may go to any other place outside them. -/
theorem Framed.goto (h : Framed P Q J s) {tid : Nat} {pc pc' : Pc}
    (hpc : s.threads[tid]? = some pc) (hout : pc.Outside) (hout' : pc'.Outside) :
    Framed P Q J (s.setPc tid pc') where
  inside := by
    intro tid' fc prog back hin
    rw [State.setPc, getElem?_set_of_some hpc] at hin
    split at hin
    · exact (hout'.ne_inside _ _ _ (Option.some.inj hin)).elim
    · exact h.inside tid' fc prog back hin
  unlocked := h.unlocked
  locked := by
    intro fc c tid' hc howner
    obtain ⟨prog, back, hin⟩ := h.locked fc c tid' hc howner
    refine ⟨prog, back, ?_⟩
    rw [State.setPc, getElem?_set_of_some hpc, if_neg]
    · exact hin
    · rintro rfl
      rw [hpc] at hin
      exact hout.ne_inside _ _ _ (Option.some.inj hin)

/-- The lock of context `fc` is free or `tid`'s, so it is not one that another thread holds. -/
theorem Framed.ne_of_inside (h : Framed P Q J s) {tid tid' fc fc' : Nat} {c : FdContext}
    {prog : Prog} {back : Option (List EpollEvent)} (hc : s.contexts[fc]? = some c)
    (howner : c.owner = none ∨ c.owner = some tid) (htid : tid' ≠ tid)
    (hpc : s.threads[tid']? = some (.inside fc' prog back)) : fc' ≠ fc := by
  rintro rfl
  obtain ⟨c₁, hc₁, howner₁, -⟩ := h.inside tid' fc' prog back hpc
  rw [hc] at hc₁
  cases hc₁
  rcases howner with hfree | hmine
  · rw [hfree] at howner₁
    cases howner₁
  · rw [hmine] at howner₁
    exact htid (Option.some.inj howner₁).symm

/-- A step of the thread that holds, takes or gives back the lock of context `fc`. -/
theorem Framed.setFc (h : Framed P Q J s) {tid fc : Nat} {c d : FdContext} {pc pc' : Pc}
    (hc : s.contexts[fc]? = some c) (hpc : s.threads[tid]? = some pc)
    (howner : c.owner = none ∨ c.owner = some tid)
    (hpc_out : c.owner = none → pc.Outside)
    (hin : ∀ fc' prog back, pc' = .inside fc' prog back →
      fc' = fc ∧ d.owner = some tid ∧ prog.Meets P Q d)
    (hnone : d.owner = none → J d)
    (hsome : ∀ tid', d.owner = some tid' → tid' = tid ∧ ∃ prog back, pc' = .inside fc prog back)
    (hcontexts : t.contexts = s.contexts.set fc d) (hthreads : t.threads = s.threads.set tid pc') :
    Framed P Q J t where
  inside := by
    intro tid' fc' prog back hpc'
    rw [hthreads, getElem?_set_of_some hpc] at hpc'
    split at hpc'
    · rename_i htid
      obtain ⟨rfl, howner', hmeets⟩ := hin fc' prog back (Option.some.inj hpc')
      refine ⟨d, ?_, htid ▸ howner', hmeets⟩
      rw [hcontexts, getElem?_set_of_some hc, if_pos rfl]
    · rename_i htid
      obtain ⟨c₁, hc₁, howner₁, hmeets⟩ := h.inside tid' fc' prog back hpc'
      refine ⟨c₁, ?_, howner₁, hmeets⟩
      rw [hcontexts, getElem?_set_of_some hc, if_neg (h.ne_of_inside hc howner htid hpc')]
      exact hc₁
  unlocked := by
    intro fc' c₁ hc₁ hfree
    rw [hcontexts, getElem?_set_of_some hc] at hc₁
    split at hc₁
    · cases hc₁
      exact hnone hfree
    · exact h.unlocked fc' c₁ hc₁ hfree
  locked := by
    intro fc' c₁ tid' hc₁ howner₁
    rw [hcontexts, getElem?_set_of_some hc] at hc₁
    rw [hthreads, getElem?_set_of_some hpc]
    split at hc₁
    · rename_i hfc
      cases hc₁
      obtain ⟨rfl, prog, back, hpc'⟩ := hsome tid' howner₁
      exact ⟨prog, back, by rw [if_pos rfl, hfc, hpc']⟩
    · rename_i hfc
      obtain ⟨prog, back, hin'⟩ := h.locked fc' c₁ tid' hc₁ howner₁
      refine ⟨prog, back, ?_⟩
      rw [if_neg]
      · exact hin'
      · rintro rfl
        rw [hpc] at hin'
        cases hin'
        rcases howner with hfree | hmine
        · exact hpc_out hfree
        · obtain ⟨_, _, hother⟩ := h.locked fc c tid' hc hmine
          rw [hpc] at hother
          cases hother
          exact hfc rfl

theorem Framed.of_eq (h : Framed P Q J s) (hcontexts : t.contexts = s.contexts)
    (hthreads : t.threads = s.threads) : Framed P Q J t where
  inside := by rw [hcontexts, hthreads]; exact h.inside
  unlocked := by rw [hcontexts]; exact h.unlocked
  locked := by rw [hcontexts, hthreads]; exact h.locked

/-- New contexts are not locked. -/
theorem Framed.contextResize (h : Framed P Q J s) (hnew : ∀ fd, J (.new fd)) (size : Nat) :
    Framed P Q J (s.contextResize size) where
  inside := by
    intro tid fc prog back hpc
    obtain ⟨c, hc, hrest⟩ := h.inside tid fc prog back hpc
    refine ⟨c, ?_, hrest⟩
    obtain ⟨hlt, -⟩ := List.getElem?_eq_some_iff.mp hc
    rw [State.contextResize, List.getElem?_append_left hlt]
    exact hc
  unlocked := by
    intro fc c hc hfree
    rw [State.contextResize] at hc
    rcases Nat.lt_or_ge fc s.contexts.length with hlt | hge
    · rw [List.getElem?_append_left hlt] at hc
      exact h.unlocked fc c hc hfree
    · rw [List.getElem?_append_right hge] at hc
      obtain ⟨i, -, rfl⟩ := List.mem_map.mp (List.mem_of_getElem? hc)
      exact hnew _
  locked := by
    intro fc c tid hc howner
    rw [State.contextResize] at hc
    rcases Nat.lt_or_ge fc s.contexts.length with hlt | hge
    · rw [List.getElem?_append_left hlt] at hc
      exact h.locked fc c tid hc howner
    · rw [List.getElem?_append_right hge] at hc
      obtain ⟨i, -, rfl⟩ := List.mem_map.mp (List.mem_of_getElem? hc)
      cases howner

theorem framed_init (hnew : ∀ fd, J (.new fd)) (threads : Nat) : Framed P Q J (init threads) := by
  refine Framed.contextResize ⟨?_, ?_, ?_⟩ hnew 32
  · intro tid fc prog back hpc
    have hout := List.mem_of_getElem? hpc
    rw [List.mem_replicate] at hout
    cases hout.2
  · intro fc c hc
    simp at hc
  · intro fc c tid hc
    simp at hc

/-- One step keeps the invariant of the sections, when the sections that it starts meet it. -/
theorem Framed.step (h : Framed P Q J s) {l : Label} (hstep : step s l = some t)
    (hnew : ∀ fd, J (.new fd)) (hdone : ∀ c, Q c → J { c with owner := none })
    (hstart : ∀ tid fc fd ok c op mask prog back, l = .move tid ok → s.contexts[fc]? = some c →
      c.owner = none → J c → Starts s tid fc c fd (.ctl op mask prog) back →
      (epollCtl s.epoll op fd ⟨mask, fc⟩ ok).isSome →
      prog.Meets P Q { c with owner := some tid }) : Framed P Q J t := by
  cases stepCase_of_step hstep with
  | goto _ tid pc pc' hpc hout hout' => exact h.goto hpc hout hout'
  | halt _ reason => exact h.of_eq rfl rfl
  | grow tid fc ok call hpc hfit hfc =>
      exact (h.contextResize hnew (call.fd * 2)).goto hpc trivial trivial
  | growHalt tid ok call reason hpc hfit => exact (h.contextResize hnew _).of_eq rfl rfl
  | lock tid fc fd ok c back op mask prog epoll hc howner hstarts hctl =>
      have hmeets := hstart tid fc fd ok c op mask prog back rfl hc howner (h.unlocked fc c hc howner)
        hstarts (by rw [hctl]; rfl)
      obtain ⟨pc, hpc, hout⟩ := hstarts.outside
      refine h.setFc hc hpc (Or.inl howner) (fun _ => hout) ?_ ?_ ?_ rfl rfl
      · intro fc' prog' back' heq
        cases heq
        exact ⟨rfl, rfl, hmeets⟩
      · intro hnone
        cases hnone
      · intro tid' hsome
        cases hsome
        exact ⟨rfl, prog, back, rfl⟩
  | unlock tid fc ok c result back hc hpc =>
      obtain ⟨c₁, hc₁, howner, hmeets⟩ := h.inside tid fc _ back hpc
      rw [hc] at hc₁
      cases hc₁
      refine h.setFc hc hpc (Or.inr howner) ?_ ?_ (fun _ => hdone c hmeets) ?_ rfl rfl
      · intro hnone
        rw [howner] at hnone
        cases hnone
      · intro fc' prog' back' heq
        exact ((outside_leave back result).ne_inside _ _ _ heq).elim
      · intro tid' hsome
        cases hsome
  | branch tid fc ok c e yes no back hc hpc =>
      obtain ⟨c₁, hc₁, howner, hmeets⟩ := h.inside tid fc _ back hpc
      rw [hc] at hc₁
      cases hc₁
      rw [Prog.Meets] at hmeets
      refine h.setFc (d := c) hc hpc (Or.inr howner) ?_ ?_ ?_ ?_ ?_ rfl
      · intro hnone
        rw [howner] at hnone
        cases hnone
      · intro fc' prog' back' heq
        cases heq
        refine ⟨rfl, howner, ?_⟩
        split <;> rename_i hhas
        · rwa [if_pos hhas] at hmeets
        · rwa [if_neg hhas] at hmeets
      · intro hnone
        rw [howner] at hnone
        cases hnone
      · intro tid' hsome
        rw [howner] at hsome
        cases hsome
        exact ⟨rfl, _, back, rfl⟩
      · exact (set_of_getElem? hc).symm
  | act tid fc ok c c' a next back hc hpc hok =>
      obtain ⟨c₁, hc₁, howner, hmeets⟩ := h.inside tid fc _ back hpc
      rw [hc] at hc₁
      cases hc₁
      have howner' : c'.owner = some tid := by rw [onContext_owner hok, howner]
      refine h.setFc hc hpc (Or.inr howner) ?_ ?_ ?_ ?_ rfl rfl
      · intro hnone
        rw [howner] at hnone
        cases hnone
      · intro fc' prog' back' heq
        cases heq
        exact ⟨rfl, howner', hmeets.2 _ c' hok⟩
      · intro hnone
        rw [howner'] at hnone
        cases hnone
      · intro tid' hsome
        rw [howner'] at hsome
        cases hsome
        exact ⟨rfl, next, back, rfl⟩

end Framed

end IOManager

end Saturn
