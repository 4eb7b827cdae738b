import Saturn.IOManager.Contexts

/-!
# What the operations do

A history beside the state: the operations that are in their locked sections, and those that are
over, each with what it returned, what became of its context, and what it added to the history. Every
operation that is over did what its result says.
-/

namespace Saturn

namespace IOManager

/-- An operation in its locked section: its context when it took the lock, and what it has added to
the history. -/
structure Begun where
  op : Op
  before : FdContext
  effects : List Effect

/-- An operation that is over: the context that the table or the event had for it, the outcome of its
call of `epoll_ctl` if it came to one, what it returned (`idle` returns nothing), its context before
and after if it locked one, and what it added to the history. -/
structure Finished where
  op : Op
  context : Option Nat
  ctl : Option Bool
  result : Option Bool
  span : Option (FdContext × FdContext)
  effects : List Effect
  deriving DecidableEq, Repr

/-- How the operation says whether it succeeded. -/
def Op.returns (result : Bool) : Op → Option Bool
  | .call _ => some result
  | .dispatch _ => none

/-- The operation did what it says. -/
inductive Right : Finished → Prop where
  /-- There was no context for the descriptor; `addEvent` makes one. -/
  | noContext (call : Call) : (∀ fd e task scheduler, call ≠ .addEvent fd e task scheduler) →
      Right ⟨.call call, none, none, some false, none, []⟩
  /-- There was nothing to do. -/
  | idle (op : Op) (fc : Nat) (c : FdContext) : op.Idle c →
      Right ⟨op, some fc, none, op.returns false, some (c, c), []⟩
  /-- `epoll_ctl` failed. -/
  | failed (op : Op) (fc : Nat) (c : FdContext) : ¬ op.Idle c →
      Right ⟨op, some fc, some false, op.returns false, some (c, c), []⟩
  | done (op : Op) (fc : Nat) (c c' : FdContext) (effects : List Effect) : ¬ op.Idle c →
      op.Does c c' effects → Right ⟨op, some fc, some true, op.returns true, some (c, c'), effects⟩

/-- The three histories as one. -/
def State.effects (s : State) : List Effect :=
  s.added.map .added ++ (s.dropped.map .dropped ++ s.scheduled.map .scheduled)

/-- What the histories of `t` have that those of `s` do not. -/
def State.since (s t : State) : List Effect :=
  (t.added.drop s.added.length).map .added ++
    ((t.dropped.drop s.dropped.length).map .dropped ++
      (t.scheduled.drop s.scheduled.length).map .scheduled)

/-- The outcome of the section's call of `epoll_ctl`, if it makes one. -/
def State.ctl (s : State) (fc fd : Nat) (ok : Bool) : Section → Option Bool
  | .ctl op mask _ => some (epollCtl s.epoll op fd ⟨mask, fc⟩ ok).isSome
  | _ => none

/-- The descriptor that the operation gives to `epoll_ctl`. -/
def Op.fd (c : FdContext) : Op → Nat
  | .call o => o.fd
  | .dispatch _ => c.fd

/-- What the last operation returned. -/
def Pc.result : Pc → Option Bool
  | .out result => result
  | _ => none

/-- A state with what has become of the operations up to it; `begun` has the operation of each thread
that is in a locked section. -/
structure Recorded where
  state : State
  begun : List (Option Begun)
  finished : List Finished

namespace Recorded

/-- Thread `tid` comes to the lock of context number `fc` for `op`, and goes on to `pc` in `t`. -/
def lock (r : Recorded) (t : State) (tid fc : Nat) (ok : Bool) (op : Op) (pc : Pc) : Recorded :=
  match r.state.contexts[fc]? with
  | some c =>
      match pc with
      | .inside .. => { r with state := t, begun := r.begun.set tid (some ⟨op, c, []⟩) }
      | _ =>
          { r with
            state := t
            finished := r.finished ++
              [⟨op, some fc, r.state.ctl fc (op.fd c) ok (op.lockedSection c), pc.result,
                t.contexts[fc]?.map (c, ·), []⟩] }
  | none => { r with state := t }

/-- Thread `tid` goes on in the section of context number `fc`, to `pc` in `t`. -/
def goOn (r : Recorded) (t : State) (tid fc : Nat) (pc : Pc) : Recorded :=
  match r.begun[tid]? with
  | some (some b) =>
      match pc with
      | .inside .. =>
          { r with
            state := t
            begun := r.begun.set tid (some { b with effects := b.effects ++ r.state.since t }) }
      | _ =>
          { state := t
            begun := r.begun.set tid none
            finished := r.finished ++
              [⟨b.op, some fc, some true, pc.result, t.contexts[fc]?.map (b.before, ·), b.effects⟩] }
  | _ => { r with state := t }

/-- What the step of thread `tid` from `pc` to `pc'`, in `t`, is for its operation. -/
def note (r : Recorded) (t : State) (tid : Nat) (ok : Bool) : Pc → Pc → Recorded
  | .lookup call, .out result =>
      { r with
        state := t
        finished := r.finished ++
          [⟨.call call, r.state.table[call.fd]?, none, result, none, []⟩] }
  | .enter call fc, pc' => r.lock t tid fc ok (.call call) pc'
  | .dispatch (event :: _), pc' => r.lock t tid event.ptr ok (.dispatch event) pc'
  | .inside fc _ _, pc' => r.goOn t tid fc pc'
  | _, _ => { r with state := t }

/-- The step function with the history. A step that halts ends no operation. -/
def step (r : Recorded) (l : Label) : Option Recorded :=
  (IOManager.step r.state l).map fun t =>
    match l with
    | .move tid ok =>
        match t.halted, r.state.threads[tid]?, t.threads[tid]? with
        | none, some pc, some pc' => r.note t tid ok pc pc'
        | _, _, _ => { r with state := t }
    | .call .. | .wait .. => { r with state := t }

/-- No operation under way, and none that has ended. -/
def init (threads : Nat) : Recorded :=
  ⟨IOManager.init threads, List.replicate threads none, []⟩

end Recorded

theorem state_step {r r' : Recorded} {l : Label} (h : r.step l = some r') :
    step r.state l = some r'.state := by
  obtain ⟨t, ht, rfl⟩ := Option.map_eq_some_iff.mp h
  rw [ht]
  refine congrArg some (Eq.symm ?_)
  cases l with
  | call | wait => rfl
  | move tid ok =>
      dsimp only
      split
      · unfold Recorded.note Recorded.lock Recorded.goOn
        split
        · rfl
        · split
          · split <;> rfl
          · rfl
        · split
          · split <;> rfl
          · rfl
        · split
          · split <;> rfl
          · rfl
        · rfl
      · rfl

/-- Every run has its history. -/
theorem exists_recorded {r : Recorded} {ls : List Label} {s : State}
    (h : run step r.state ls = some s) : ∃ r', run Recorded.step r ls = some r' ∧ r'.state = s := by
  refine exists_run_along Recorded.state (fun r l t ht => ?_) ls r s h
  obtain ⟨r', hr'⟩ : ∃ r', r.step l = some r' := by
    rw [Recorded.step, ht]
    exact ⟨_, rfl⟩
  exact ⟨r', hr', Option.some.inj ((state_step hr').symm.trans ht)⟩

/-- What an operation in its section has added to the history. -/
def begunEffects : Option Begun → List Effect
  | some b => b.effects
  | none => []

/-- The section of the operation, with `prog` left to run on context `c`, ends as it should. -/
structure Begun.Fits (b : Begun) (c : FdContext) (prog : Prog) (back : Option (List EpollEvent)) :
    Prop where
  returns : ∀ result, (Pc.leave back result).result = b.op.returns result
  busy : ¬ b.op.Idle b.before
  ends : prog.Ends FillsEmpty
    (fun result c' effects => b.op.Done b.before result { c' with owner := none } effects)
    c b.effects

/-- What is known of the operations: those in their sections are on the way to what they should do,
those that are over did it, and together they account for the history. -/
structure Tracked (r : Recorded) : Prop where
  length_eq : r.begun.length = r.state.threads.length
  inside : ∀ (tid fc : Nat) (prog : Prog) (back : Option (List EpollEvent)),
    r.state.threads[tid]? = some (.inside fc prog back) → ∃ b c, r.begun[tid]? = some (some b) ∧
      r.state.contexts[fc]? = some c ∧ b.Fits c prog back
  outside : ∀ (tid : Nat) (pc : Pc), r.state.threads[tid]? = some pc → pc.Outside →
    r.begun[tid]? = some none
  right : ∀ f ∈ r.finished, Right f
  history : r.state.effects.Perm
    (r.finished.flatMap Finished.effects ++ r.begun.flatMap begunEffects)

variable {r : Recorded} {t : State}

/-- Threads outside the sections go on, and operations that changed nothing end. -/
theorem Tracked.stays (h : Tracked r)
    (hcontexts : ∀ (fc : Nat) (c : FdContext),
      r.state.contexts[fc]? = some c → t.contexts[fc]? = some c)
    (hthreads : ∀ (tid : Nat) (pc : Pc), t.threads[tid]? = some pc →
      r.state.threads[tid]? = some pc ∨
        pc.Outside ∧ ∃ pc₀, r.state.threads[tid]? = some pc₀ ∧ pc₀.Outside)
    (hlength : t.threads.length = r.state.threads.length)
    (heffects : t.effects = r.state.effects)
    {fs : List Finished} (hfs : ∀ f ∈ fs, Right f ∧ f.effects = []) :
    Tracked { r with state := t, finished := r.finished ++ fs } where
  length_eq := h.length_eq.trans hlength.symm
  inside := by
    intro tid fc prog back hpc
    rcases hthreads tid _ hpc with hsame | ⟨hout, -⟩
    · obtain ⟨b, c, hb, hc, hfits⟩ := h.inside tid fc prog back hsame
      exact ⟨b, c, hb, hcontexts fc c hc, hfits⟩
    · exact hout.elim
  outside := by
    intro tid pc hpc hout
    rcases hthreads tid pc hpc with hsame | ⟨-, pc₀, hpc₀, hout₀⟩
    · exact h.outside tid pc hsame hout
    · exact h.outside tid pc₀ hpc₀ hout₀
  right := by
    intro f hf
    rcases List.mem_append.mp hf with hf | hf
    · exact h.right f hf
    · exact (hfs f hf).1
  history := by
    have hnil : fs.flatMap Finished.effects = [] :=
      List.flatMap_eq_nil_iff.mpr fun f hf => (hfs f hf).2
    change t.effects.Perm ((r.finished ++ fs).flatMap _ ++ _)
    rw [heffects, List.flatMap_append, hnil, List.append_nil]
    exact h.history

/-- A step of thread `tid` at the lock of context `fc` or in its section: what it adds to the history
is what its operation, in its section or over, adds. -/
theorem Tracked.works (h : Tracked r) (hk : Kept r.state) (x' : Option Begun)
    (fs : List Finished) (new : List Effect) {tid fc : Nat} {c d : FdContext} {pc pc' : Pc}
    {x : Option Begun}
    (hc : r.state.contexts[fc]? = some c) (hpc : r.state.threads[tid]? = some pc)
    (howner : c.owner = none ∨ c.owner = some tid) (hx : r.begun[tid]? = some x)
    (hcontexts : t.contexts = r.state.contexts.set fc d)
    (hthreads : t.threads = r.state.threads.set tid pc')
    (hin : ∀ fc' prog back, pc' = .inside fc' prog back →
      fc' = fc ∧ ∃ b, x' = some b ∧ b.Fits d prog back)
    (hout : pc'.Outside → x' = none)
    (heffects : t.effects.Perm (r.state.effects ++ new))
    (hnew : (fs.flatMap Finished.effects ++ begunEffects x').Perm (begunEffects x ++ new))
    (hfs : ∀ f ∈ fs, Right f) :
    Tracked { state := t, begun := r.begun.set tid x', finished := r.finished ++ fs } where
  length_eq := by
    change (r.begun.set tid x').length = t.threads.length
    rw [hthreads, List.length_set, List.length_set, h.length_eq]
  inside := by
    intro tid' fc' prog back hpc'
    change t.threads[tid']? = _ at hpc'
    change ∃ b c, (r.begun.set tid x')[tid']? = _ ∧ t.contexts[fc']? = _ ∧ _
    rw [hthreads, getElem?_set_of_some hpc] at hpc'
    rw [getElem?_set_of_some hx, hcontexts, getElem?_set_of_some hc]
    split at hpc' <;> rename_i htid
    · obtain ⟨rfl, b, rfl, hfits⟩ := hin fc' prog back (Option.some.inj hpc')
      exact ⟨b, d, if_pos htid, if_pos rfl, hfits⟩
    · obtain ⟨b, c₁, hb, hc₁, hfits⟩ := h.inside tid' fc' prog back hpc'
      have hne := hk.ne_of_inside hc howner htid hpc'
      exact ⟨b, c₁, (if_neg htid).trans hb, (if_neg hne).trans hc₁, hfits⟩
  outside := by
    intro tid' pc₁ hpc₁ hout₁
    change t.threads[tid']? = _ at hpc₁
    change (r.begun.set tid x')[tid']? = _
    rw [hthreads, getElem?_set_of_some hpc] at hpc₁
    rw [getElem?_set_of_some hx]
    split at hpc₁ <;> rename_i htid
    · cases hpc₁
      rw [if_pos htid, hout hout₁]
    · rw [if_neg htid]
      exact h.outside tid' pc₁ hpc₁ hout₁
  right := by
    intro f hf
    rcases List.mem_append.mp hf with hf | hf
    · exact h.right f hf
    · exact hfs f hf
  history := by
    have hset := flatMap_set_perm (f := begunEffects) x' hx
    have hhistory := h.history
    change t.effects.Perm ((r.finished ++ fs).flatMap _ ++ (r.begun.set tid x').flatMap _)
    rw [List.perm_iff_count] at heffects hnew hset hhistory ⊢
    intro a
    have h₁ := heffects a
    have h₂ := hnew a
    have h₃ := hset a
    have h₄ := hhistory a
    simp only [List.flatMap_append, List.count_append] at h₁ h₂ h₃ h₄ ⊢
    omega

theorem tracked_init (threads : Nat) : Tracked (.init threads) where
  length_eq := by simp [Recorded.init, init, State.contextResize]
  inside := by
    intro tid fc prog back hpc
    have hout := List.mem_of_getElem? hpc
    obtain ⟨-, hout⟩ := List.mem_replicate.mp hout
    cases hout
  outside := by
    intro tid pc hpc hout
    obtain ⟨hlt, -⟩ := List.getElem?_eq_some_iff.mp hpc
    have hlen : tid < threads := by simpa [Recorded.init, init, State.contextResize] using hlt
    exact List.getElem?_eq_some_iff.mpr
      ⟨by simpa [Recorded.init] using hlen, by simp [Recorded.init]⟩
  right := by
    intro f hf
    cases hf
  history := by
    have hnil : ∀ n : Nat, (List.replicate n none).flatMap begunEffects = [] := by
      intro n
      induction n with
      | zero => rfl
      | succ n ih => rw [List.replicate_succ, List.flatMap_cons, ih]; rfl
    change List.Perm [] ((List.replicate threads none).flatMap begunEffects)
    rw [hnil]

/-- What a statement adds to the histories. -/
theorem since_act {s t : State} {a : Act} {c : FdContext}
    (hadded : t.added = s.added ++ a.added s.added.length)
    (hdropped : t.dropped = s.dropped ++ a.dropped c)
    (hscheduled : t.scheduled = s.scheduled ++ a.scheduled c) :
    s.since t = a.effects s.added.length c := by
  rw [State.since, hadded, hdropped, hscheduled]
  simp only [List.drop_left, Act.effects]

theorem since_setPc (s : State) (tid : Nat) (pc : Pc) : s.since (s.setPc tid pc) = [] := by
  simp [State.since, State.setPc]

/-- A thread goes on outside the sections, where its operation may end that changed nothing. -/
theorem Tracked.goto (h : Tracked r) {tid : Nat} {pc pc' : Pc}
    (hpc : r.state.threads[tid]? = some pc) (hout : pc.Outside) (hout' : pc'.Outside)
    {fs : List Finished} (hfs : ∀ f ∈ fs, Right f ∧ f.effects = []) :
    Tracked { r with state := r.state.setPc tid pc', finished := r.finished ++ fs } := by
  refine h.stays (t := r.state.setPc tid pc') (fun _ _ hc => hc) (fun tid' pc₁ hpc₁ => ?_)
    (by simp [State.setPc]) rfl hfs
  rw [State.setPc, getElem?_set_of_some hpc] at hpc₁
  split at hpc₁ <;> rename_i htid
  · cases hpc₁
    exact Or.inr ⟨hout', pc, htid ▸ hpc, hout⟩
  · exact Or.inl hpc₁

theorem Tracked.skip (h : Tracked r) (tid : Nat) (pc' : Pc) {pc : Pc}
    (hpc : r.state.threads[tid]? = some pc) (hout : pc.Outside) (hout' : pc'.Outside) :
    Tracked { r with state := r.state.setPc tid pc' } := by
  have hgoto := h.goto hpc hout hout' (List.forall_mem_nil _)
  rwa [List.append_nil] at hgoto

theorem threads_setPc {s : State} {tid : Nat} {pc : Pc} (hpc : s.threads[tid]? = some pc)
    (pc' : Pc) : (s.setPc tid pc').threads[tid]? = some pc' := by
  rw [State.setPc, getElem?_set_of_some hpc, if_pos rfl]

theorem lock_some {tid fc : Nat} {ok : Bool} {op : Op} {c c' : FdContext} {pc : Pc}
    (hc : r.state.contexts[fc]? = some c) (hc' : t.contexts[fc]? = some c') (hout : pc.Outside) :
    r.lock t tid fc ok op pc = { r with
      state := t
      finished := r.finished ++
        [⟨op, some fc, r.state.ctl fc (op.fd c) ok (op.lockedSection c), pc.result, some (c, c'),
          []⟩] } := by
  simp only [Recorded.lock, hc, hc']
  cases pc with
  | inside => exact hout.elim
  | _ => rfl

theorem goOn_some {tid fc : Nat} {b : Begun} (c' : FdContext) {pc : Pc}
    (hb : r.begun[tid]? = some (some b)) (hc' : t.contexts[fc]? = some c') (hout : pc.Outside) :
    r.goOn t tid fc pc = {
      state := t
      begun := r.begun.set tid none
      finished := r.finished ++
        [⟨b.op, some fc, some true, pc.result, some (b.before, c'), b.effects⟩] } := by
  simp only [Recorded.goOn, hb, hc']
  cases pc with
  | inside => exact hout.elim
  | _ => rfl

/-- Thread `tid` at the lock of context number `fc`, which is free, for `op`. -/
theorem Tracked.lock (h : Tracked r) (hk : Kept r.state) (op : Op)
    (back : Option (List EpollEvent)) {tid fc : Nat} {c : FdContext} {ok : Bool} {pc pc' : Pc}
    (hc : r.state.contexts[fc]? = some c) (howner : c.owner = none)
    (hpc : r.state.threads[tid]? = some pc) (hout : pc.Outside)
    (hback : ∀ result, (Pc.leave back result).result = op.returns result)
    (ht : r.state.lock tid fc c (op.fd c) (op.lockedSection c) back ok = t)
    (hgoes : t.halted = none) (hpc' : t.threads[tid]? = some pc') :
    Tracked (r.lock t tid fc ok op pc') := by
  subst ht
  have hc' : ∀ pc, (r.state.setPc tid pc).contexts[fc]? = some c := fun _ => hc
  cases hsec : op.lockedSection c with
  | halt reason =>
      rw [hsec] at hgoes
      cases hgoes
  | leave result =>
      rw [hsec, State.lock, threads_setPc hpc] at hpc'
      cases hpc'
      obtain ⟨rfl, hidle⟩ := lockedSection_leave hsec
      rw [State.lock, lock_some hc (hc' _) (outside_leave ..), hback, hsec]
      refine h.goto hpc hout (outside_leave back false) fun f hf => ?_
      obtain rfl := List.mem_singleton.mp hf
      exact ⟨.idle op fc c hidle, rfl⟩
  | ctl o mask prog =>
      have hbusy := lockedSection_ctl hsec
      cases hctl : epollCtl r.state.epoll o (op.fd c) ⟨mask, fc⟩ ok with
      | none =>
          simp only [hsec, State.lock, hctl] at hpc' ⊢
          rw [threads_setPc hpc] at hpc'
          cases hpc'
          rw [lock_some hc (hc' _) (outside_leave ..), hback, hsec, State.ctl, hctl]
          refine h.goto hpc hout (outside_leave back false) fun f hf => ?_
          obtain rfl := List.mem_singleton.mp hf
          exact ⟨.failed op fc c hbusy, rfl⟩
      | some epoll =>
          simp only [hsec, State.lock, hctl] at hpc' ⊢
          rw [threads_setPc (by exact hpc)] at hpc'
          cases hpc'
          have hends := lockedSection_ends_locked (hk.unlocked fc c hc howner) howner hsec tid
          have hworks := h.works (t := ({ r.state with epoll := epoll }.setFc fc
              { c with owner := some tid }).setPc tid (.inside fc prog back))
            hk (some ⟨op, c, []⟩) [] [] hc hpc (Or.inl howner) (h.outside tid pc hpc hout) rfl rfl
            ?_ False.elim ?_ (List.Perm.refl _) (List.forall_mem_nil _)
          · rw [List.append_nil] at hworks
            simp only [Recorded.lock, hc]
            exact hworks
          · intro fc' prog' back' heq
            cases heq
            exact ⟨rfl, _, rfl, hback, hbusy, hends⟩
          · rw [List.append_nil]
            exact List.Perm.refl _

theorem perm_act {s t : State} {a : Act} {c : FdContext}
    (hadded : t.added = s.added ++ a.added s.added.length)
    (hdropped : t.dropped = s.dropped ++ a.dropped c)
    (hscheduled : t.scheduled = s.scheduled ++ a.scheduled c) :
    t.effects.Perm (s.effects ++ a.effects s.added.length c) := by
  rw [List.perm_iff_count]
  intro x
  simp only [State.effects, Act.effects, hadded, hdropped, hscheduled, List.map_append,
    List.count_append]
  omega

/-- Thread `tid` goes on in its section. -/
theorem Tracked.goOn (h : Tracked r) (hk : Kept r.state) {tid fc : Nat} {c : FdContext} {ok : Bool}
    {prog : Prog} {back : Option (List EpollEvent)} {pc' : Pc}
    (hc : r.state.contexts[fc]? = some c)
    (hpc : r.state.threads[tid]? = some (.inside fc prog back))
    (ht : r.state.exec tid fc c prog back ok = t) (hgoes : t.halted = none)
    (hpc' : t.threads[tid]? = some pc') : Tracked (r.goOn t tid fc pc') := by
  subst ht
  obtain ⟨b, c₁, hb, hc₁, hfits⟩ := h.inside tid fc prog back hpc
  rw [hc] at hc₁
  cases hc₁
  obtain ⟨c₁, hc₁, howner, -⟩ := hk.inside tid fc prog back hpc
  rw [hc] at hc₁
  cases hc₁
  cases prog with
  | ret result =>
      rw [State.exec, threads_setPc (by exact hpc)] at hpc'
      cases hpc'
      obtain ⟨rfl, hdoes⟩ := hfits.ends
      rw [State.exec, goOn_some { c with owner := none } hb ?_ (outside_leave ..),
        hfits.returns]
      · refine h.works hk none _ [] hc hpc (Or.inr howner) hb rfl rfl ?_ (fun _ => rfl) ?_ ?_ ?_
        · intro fc' prog' back' heq
          exact ((outside_leave back true).ne_inside _ _ _ heq).elim
        · rw [List.append_nil]
          exact List.Perm.refl _
        · simp [begunEffects]
        · intro f hf
          obtain rfl := List.mem_singleton.mp hf
          exact .done b.op fc b.before _ _ hfits.busy hdoes
      · change (r.state.contexts.set fc _)[fc]? = _
        rw [getElem?_set_of_some hc, if_pos rfl]
  | ifEvent e yes no =>
      rw [State.exec, threads_setPc hpc] at hpc'
      cases hpc'
      have hends := hfits.ends
      rw [Prog.Ends] at hends
      simp only [Recorded.goOn, hb]
      rw [State.exec, since_setPc, List.append_nil]
      have hworks := h.works (t := r.state.setPc tid
          (.inside fc (if c.events.has e then yes else no) back)) (d := c) hk (some b) [] []
        hc hpc (Or.inr howner) hb (set_of_getElem? hc).symm rfl ?_ False.elim ?_ (by simp)
        (List.forall_mem_nil _)
      · rw [List.append_nil] at hworks
        exact hworks
      · intro fc' prog' back' heq
        cases heq
        refine ⟨rfl, b, rfl, hfits.returns, hfits.busy, ?_⟩
        split <;> rename_i hhas
        · rwa [if_pos hhas] at hends
        · rwa [if_neg hhas] at hends
      · rw [List.append_nil]
        exact List.Perm.refl _
  | act a next =>
      rw [State.exec] at hgoes hpc' ⊢
      split at hgoes
      · cases hgoes
      rename_i hexec
      rw [if_neg hexec] at hpc' ⊢
      cases hok : a.onContext r.state.added.length c with
      | error reason =>
          simp only [hok] at hgoes
          cases hgoes
      | ok c' =>
          simp only [hok] at hpc' ⊢
          rw [threads_setPc (by exact hpc)] at hpc'
          cases hpc'
          simp only [Recorded.goOn, hb]
          rw [since_act (a := a) (c := c) rfl rfl rfl]
          have hworks := h.works (t := ({ r.state with
                pending := r.state.pending + a.pending
                added := r.state.added ++ a.added r.state.added.length
                dropped := r.state.dropped ++ a.dropped c
                scheduled := r.state.scheduled ++ a.scheduled c }.setFc fc c').setPc tid
              (.inside fc next back)) (d := c') hk
            (some { b with effects := b.effects ++ a.effects r.state.added.length c }) []
            (a.effects r.state.added.length c) hc hpc (Or.inr howner) hb rfl rfl ?_ False.elim ?_
            (by simp [begunEffects]) (List.forall_mem_nil _)
          · rw [List.append_nil] at hworks
            exact hworks
          · intro fc' prog' back' heq
            cases heq
            exact ⟨rfl, _, rfl, hfits.returns, hfits.busy, hfits.ends.2 _ c' hok⟩
          · exact perm_act rfl rfl rfl

theorem Tracked.contextResize (h : Tracked r) (size : Nat) :
    Tracked { r with state := r.state.contextResize size } := by
  have hstays := h.stays (t := r.state.contextResize size) (fun fc c hc => ?_)
    (fun tid pc hpc => Or.inl hpc) rfl rfl (List.forall_mem_nil _)
  · rwa [List.append_nil] at hstays
  · obtain ⟨hlt, -⟩ := List.getElem?_eq_some_iff.mp hc
    rw [State.contextResize, List.getElem?_append_left hlt, hc]

theorem Tracked.halt (h : Tracked r) (reason : Halt) :
    Tracked { r with state := r.state.halt reason } := by
  have hstays := h.stays (t := r.state.halt reason) (fun _ _ hc => hc)
    (fun tid pc hpc => Or.inl hpc) rfl rfl (List.forall_mem_nil _)
  rwa [List.append_nil] at hstays

/-- A step that halts ends nothing. -/
theorem Tracked.halts (h : Tracked r) {l : Label} (ht : IOManager.step r.state l = some t)
    (hhalted : t.halted ≠ none) : Tracked { r with state := t } := by
  have hrunning : r.state.halted = none := by
    unfold IOManager.step at ht
    split at ht
    · assumption
    · cases ht
  cases stepCase_of_step ht with
  | halt _ reason => exact h.halt reason
  | growHalt tid ok call reason hpc hfit => exact (h.contextResize (call.fd * 2)).halt reason
  | _ => exact (hhalted hrunning).elim

theorem tracked_move {tid : Nat} {ok : Bool} {pc pc' : Pc} (h : Tracked r) (hk : Kept r.state)
    (hpc : r.state.threads[tid]? = some pc) (ht : r.state.move tid ok pc = some t)
    (hgoes : t.halted = none) (hpc' : t.threads[tid]? = some pc') :
    Tracked (r.note t tid ok pc pc') := by
  cases pc with
  | out result => cases ht
  | lookup call =>
      simp only [State.move] at ht
      cases hfc : r.state.table[call.fd]? with
      | some fc =>
          simp only [hfc] at ht
          cases ht
          rw [threads_setPc hpc] at hpc'
          cases hpc'
          exact h.skip tid _ hpc trivial trivial
      | none =>
          simp only [hfc] at ht
          cases call with
          | addEvent fd e task scheduler =>
              cases ht
              rw [threads_setPc hpc] at hpc'
              cases hpc'
              exact h.skip tid _ hpc trivial trivial
          | delEvent | cancelEvent | cancelAll =>
              cases ht
              rw [threads_setPc hpc] at hpc'
              cases hpc'
              have hout : Pc.Outside (.out (some false)) := trivial
              refine h.goto hpc trivial hout fun f hf => ?_
              obtain rfl := List.mem_singleton.mp hf
              rw [hfc]
              exact ⟨.noContext _ (by simp), rfl⟩
  | grow call =>
      rw [State.move] at ht
      split at ht
      · cases ht
        cases hgoes
      cases hfc : (r.state.contextResize (call.fd * 2)).table[call.fd]? with
      | none =>
          simp only [hfc] at ht
          cases ht
          cases hgoes
      | some fc =>
          simp only [hfc] at ht
          cases ht
          rw [threads_setPc (by exact hpc)] at hpc'
          cases hpc'
          exact (h.contextResize (call.fd * 2)).skip tid (.enter call fc) hpc trivial trivial
  | enter call fc =>
      rw [State.move] at ht
      cases hc : r.state.contexts[fc]? with
      | none => rw [hc] at ht; cases ht
      | some c =>
          simp only [hc] at ht
          split at ht
          · rename_i howner
            exact h.lock hk (.call call) none hc howner hpc trivial (fun _ => rfl)
              (Option.some.inj ht) hgoes hpc'
          · cases ht
  | dispatch events =>
      cases events with
      | nil =>
          cases ht
          rw [threads_setPc hpc] at hpc'
          cases hpc'
          exact h.skip tid _ hpc trivial trivial
      | cons event rest =>
          rw [State.move] at ht
          cases hc : r.state.contexts[event.ptr]? with
          | none => rw [hc] at ht; cases ht
          | some c =>
              simp only [hc] at ht
              split at ht
              · rename_i howner
                exact h.lock hk (.dispatch event) (some rest) hc howner hpc trivial
                  (fun _ => rfl) (Option.some.inj ht) hgoes hpc'
              · cases ht
  | inside fc prog back =>
      rw [State.move] at ht
      cases hc : r.state.contexts[fc]? with
      | none => rw [hc] at ht; cases ht
      | some c =>
          simp only [hc] at ht
          exact h.goOn hk hc hpc (Option.some.inj ht) hgoes hpc'

theorem threads_length_step {s t : State} {l : Label} (h : IOManager.step s l = some t) :
    t.threads.length = s.threads.length := by
  cases stepCase_of_step h with
  | halt | growHalt => rfl
  | _ => simp [State.setPc, State.setFc, State.contextResize]

theorem tracked_step {r' : Recorded} {l : Label} (h : Tracked r) (hk : Kept r.state)
    (hstep : r.step l = some r') : Tracked r' := by
  obtain ⟨t, ht, rfl⟩ := Option.map_eq_some_iff.mp hstep
  have hhalts := h.halts ht
  have hlength := threads_length_step ht
  unfold IOManager.step at ht
  split at ht
  · cases l with
    | call tid call =>
        dsimp only at ht
        split at ht
        · rename_i hpc
          cases ht
          exact h.skip tid _ hpc trivial trivial
        · cases ht
    | wait tid ready =>
        dsimp only at ht
        split at ht
        · rename_i hpc _
          cases ht
          exact h.skip tid _ hpc trivial trivial
        · cases ht
    | move tid ok =>
        dsimp only at ht ⊢
        split
        · rename_i hgoes hpc hpc'
          rw [hpc] at ht
          exact tracked_move h hk hpc ht hgoes hpc'
        · rename_i hcases
          -- a thread that moves is still there behind the step, so it has halted
          refine hhalts fun hgoes => ?_
          split at ht
          · rename_i pc hpc
            obtain ⟨hlt, -⟩ := List.getElem?_eq_some_iff.mp hpc
            rw [← hlength] at hlt
            exact hcases _ _ hgoes hpc (List.getElem?_eq_getElem hlt)
          · cases ht
  · cases ht

end IOManager

end Saturn
