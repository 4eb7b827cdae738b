import Saturn.Hook.Contexts

/-!
# When a new socket starts with a fresh context

A context leaves the table only in a `close` made with the hook enabled. Where the number of a
socket closed without it is handed out again, `get(fd, true)` finds the old context and keeps it.
-/

namespace Saturn

namespace Hook

/-- `get(fd)` yields a context as `FdContext(fd)` makes it for a socket, and the kernel has
`O_NONBLOCK` set. -/
def FreshContext (s : Process) (fd : Int) : Prop :=
  ∃ ctx ∈ s.get fd, ctx.isInit = true ∧ ctx.isSocket = true ∧ ctx.isClosed = false ∧
    ctx.sysNonblock = true ∧ ctx.userNonblock = false ∧ ctx.getTimeout SO_RCVTIMEO = -1 ∧
    ctx.getTimeout SO_SNDTIMEO = -1 ∧ isNonblock (s.kernelGetfl fd) = true

instance (s : Process) (fd : Int) : Decidable (FreshContext s fd) :=
  inferInstanceAs (Decidable (∃ ctx ∈ s.get fd, _))

/-- The number and the flags that a hooked `socket` or `accept` gets from the kernel. -/
def Call.newSocket : Call → Option (Int × Flags)
  | .socket true ret | .accept true ret => ret
  | _ => none

/-- A hooked `socket` or `accept` that returns a descriptor leaves a fresh context for it. -/
def NewSocketsFresh (s : Process) (c : Call) : Prop :=
  ∀ t, step s c = some t → ∀ ret ∈ c.newSocket, FreshContext t ret.1

/-- The number has no context left from an earlier socket, or one that happens to be as a new one,
for a socket that the kernel hands out with `O_NONBLOCK` set. -/
def NumberIsClean (s : Process) (c : Call) : Prop :=
  ∀ ret ∈ c.newSocket, 0 ≤ ret.1 → s.kernel ret.1 = none →
    s.get ret.1 = none ∨ ∃ ctx ∈ s.get ret.1, ctx.userNonblock = false ∧
      ctx.getTimeout SO_RCVTIMEO = -1 ∧ ctx.getTimeout SO_SNDTIMEO = -1 ∧ isNonblock ret.2 = true

variable {s : Process}

/-- A call that returns a new socket to a thread with the hook. -/
theorem step_of_newSocket {c : Call} {fd : Int} {flags : Flags}
    (hc : c.newSocket = some (fd, flags)) :
    step s c = if fd < 0 ∨ (s.kernel fd).isSome then none
      else some ((s.opened fd flags).getOrCreate fd) := by
  rw [Call.newSocket.eq_def] at hc
  split at hc
  · subst hc
    rfl
  · subst hc
    rfl
  · cases hc

theorem step_newSocket {c : Call} {fd : Int} {flags : Flags} {t : Process}
    (hc : c.newSocket = some (fd, flags)) (hstep : step s c = some t) :
    0 ≤ fd ∧ s.kernel fd = none ∧ t = (s.opened fd flags).getOrCreate fd := by
  rw [step_of_newSocket hc] at hstep
  split at hstep
  · cases hstep
  · rename_i hnew
    refine ⟨by omega, ?_, (Option.some.inj hstep).symm⟩
    rw [← Option.not_isSome_iff_eq_none]
    exact fun hopen => hnew (Or.inr hopen)

theorem freshContext_of_new (h : HasSockets s) {fd : Int} (flags : Flags) (hfd : 0 ≤ fd)
    (hget : s.get fd = none) : FreshContext ((s.opened fd flags).getOrCreate fd) fd := by
  rw [Process.getOrCreate_of_none (s := s.opened fd flags) hfd hget (kernel_opened_self fd flags)]
  refine ⟨.new fd (some true), ?_, rfl, rfl, rfl, rfl, rfl, rfl, rfl, ?_⟩
  · refine (Process.get_insert (s := s.opened fd flags) h.size_pos hfd _ fd).trans ?_
    rw [if_pos rfl]
  · simp only [Process.kernelGetfl, Function.update_self]
    exact isNonblock_or flags

/-- The context that is there stays as it is, and so do the new socket's flags. -/
theorem freshContext_of_old (h : HasSockets s) {fd : Int} {flags : Flags} {ctx : FdContext}
    (hget : s.get fd = some ctx) :
    FreshContext ((s.opened fd flags).getOrCreate fd) fd ↔
      ctx.userNonblock = false ∧ ctx.getTimeout SO_RCVTIMEO = -1 ∧
        ctx.getTimeout SO_SNDTIMEO = -1 ∧ isNonblock flags = true := by
  rw [Process.getOrCreate_of_some (s := s.opened fd flags) hget]
  have hflags : (s.opened fd flags).kernelGetfl fd = flags := by
    rw [Process.kernelGetfl, kernel_opened_self]
  constructor
  · rintro ⟨ctx', hctx', -, -, -, -, huser, hrecv, hsend, hnb⟩
    obtain rfl : ctx = ctx' := Option.some.inj (hget.symm.trans hctx')
    rw [hflags] at hnb
    exact ⟨huser, hrecv, hsend, hnb⟩
  · rintro ⟨huser, hrecv, hsend, hnb⟩
    obtain ⟨hinit, hsocket, hsys, hclosed⟩ := h.context fd ctx hget
    exact ⟨ctx, hget, hinit, hsocket, hclosed, hsys, huser, hrecv, hsend, by rwa [hflags]⟩

/-- One call leaves a fresh context for its new socket exactly if the number was clean. -/
theorem newSocketsFresh_iff (h : HasSockets s) (c : Call) :
    NewSocketsFresh s c ↔ NumberIsClean s c := by
  constructor
  · rintro hfresh ⟨fd, flags⟩ hc hfd hclosed
    have hstep : step s c = some ((s.opened fd flags).getOrCreate fd) := by
      rw [step_of_newSocket hc, if_neg]
      simp [hclosed, hfd]
    have hfresh := hfresh _ hstep _ hc
    cases hget : s.get fd with
    | none => exact Or.inl rfl
    | some ctx => exact Or.inr ⟨ctx, rfl, (freshContext_of_old h hget).mp hfresh⟩
  · rintro hclean t hstep ⟨fd, flags⟩ hc
    obtain ⟨hfd, hclosed, rfl⟩ := step_newSocket hc hstep
    rcases hclean _ hc hfd hclosed with hget | ⟨ctx, hget, hctx⟩
    · exact freshContext_of_new h flags hfd hget
    · exact (freshContext_of_old h hget).mpr hctx

/-- Whenever a hooked `socket` or `accept` returns a descriptor it has a fresh context, in exactly
the runs in which every such descriptor has no context left from an earlier socket, or one that does
not differ from a new one. -/
theorem newSocketsFresh_iff_numberIsClean (kernel : Int → Option File) (calls : List Call) :
    StepsMeet step NewSocketsFresh (initProcess kernel) calls ↔
      StepsMeet step NumberIsClean (initProcess kernel) calls :=
  stepsMeet_congr_of_invariant (fun _ _ _ h _ hstep => h.step hstep)
    (fun _ c h => newSocketsFresh_iff h c) calls _ (hasSockets_init kernel)

/-- Numbers are clean where no descriptor with a context is closed without the hook. -/
theorem newSocketsFresh_of_closesHooked (kernel : Int → Option File) (calls : List Call)
    (h : StepsMeet step ClosesHooked (initProcess kernel) calls) :
    StepsMeet step NewSocketsFresh (initProcess kernel) calls := by
  refine stepsMeet_of_invariant (I := Tracked) ?_ ?_ calls _ (tracked_init kernel) h
  · intro s c hs _
    refine (newSocketsFresh_iff hs.toHasSockets c).mpr ?_
    intro ret _ _ hclosed
    exact Or.inl (hs.get_eq_none hclosed)
  · intro s c t hs hc hstep
    exact hs.step hc hstep

/-- A socket with a receive timeout, closed without the hook; its number is handed out again. -/
def reusedNumber : List Call :=
  [.socket true (some (5, 2#32)), .setsockopt true 5 SOL_SOCKET SO_RCVTIMEO 2 0, .close false 5,
    .socket true (some (5, 2#32))]

/-- The new socket has the old one's timeout, and the kernel's `O_NONBLOCK` is not set on it. -/
theorem reusedNumber_not_fresh :
    ¬ StepsMeet step NewSocketsFresh (initProcess fun _ => none) reusedNumber := by
  intro h
  obtain ⟨-, h⟩ := (stepsMeet_append _ (reusedNumber.take 3) (reusedNumber.drop 3)).mp h
  have hlast := (h ((run step (initProcess fun _ => none) (reusedNumber.take 3)).get
    (by decide)) (Option.some_get _).symm).1
  obtain ⟨ctx, hctx, -, -, -, -, -, hrecv, -⟩ := hlast
    ((run step (initProcess fun _ => none) reusedNumber).get (by decide))
    (by rw [Option.some_get]; rfl) (5, 2#32) rfl
  have hstale : ((run step (initProcess fun _ => none) reusedNumber).get (by decide)).get 5 =
      some { isInit := true, isSocket := true, sysNonblock := true, userNonblock := false,
             isClosed := false, fd := 5, recvTimeout := 2000, sendTimeout := -1 } := by
    decide +kernel
  rw [hstale] at hctx
  obtain rfl := Option.some.inj hctx
  revert hrecv
  decide

end Hook

end Saturn
