import Saturn.Log.Reload

/-!
# What the log configuration sets up

After a new value of the `log` variable every entry has its logger: registered under its name, with its
level, formatter and appenders, however the values before it were and whatever is logged in between. So
an event that is logged to it is written by the appenders of the entry, in their order.
-/

namespace Saturn

namespace Log

open Http (Bytes ascii cstr)

/-- What a call of `log` writes: an event in a format, or the message that there is no formatter. -/
inductive Write
  | event (kind : AppenderKind) (format : Bytes)
  | invalid
  deriving Repr, DecidableEq

namespace State

variable (fresh : Nat → Int)

/-- What `log` of an appender writes. -/
def appenderWrites (s : State) (name : Bytes) (level : Int) (ap : LogAppender) : List Write :=
  if ap.level ≤ level then
    match ap.formatter with
    | some format => [.event ap.kind format]
    | none =>
      let r := s.getLogger fresh (cstr name)
      match r.1 with
      | some p =>
        match r.2.formatterOf p with
        | some format => [.event ap.kind format]
        | none => [.invalid]
      | none => []
  else []

/-- What the loop over the appenders writes. -/
def appendersWrites (name : Bytes) (level : Int) : State → List LogAppender → List Write
  | _, [] => []
  | s, ap :: aps =>
    let r := s.appenderLog fresh name level ap
    s.appenderWrites fresh name level ap ++
      if r.1 = .returned then appendersWrites name level r.2 aps else []

/-- What `Logger::log` on the logger `p` writes, with the arguments of `log`. -/
def writes : Nat → List Nat → Nat → Int → State → List Write
  | 0, _, _, _, _ => []
  | fuel + 1, held, p, level, s =>
    if p ∈ held then []
    else
      match s.loggers[p]? with
      | none => []
      | some l =>
        if l.level ≤ level then
          if l.appenders ≠ [] then appendersWrites fresh l.name level s l.appenders
          else
            let r := s.getLogger fresh rootName
            match r.1 with
            | some root => writes fuel (p :: held) root level r.2
            | none => []
        else []

end State

namespace LogConfig

/-- The appenders of an entry whose types are known. -/
def known (val : LogConfig) : List LogAppender := val.appenders.filterMap newAppender

/-- The logger that an entry describes. -/
def logger (val : LogConfig) : Logger := ⟨val.name, val.level, makeFormatter val.formatter, val.known⟩

end LogConfig

/-- What appenders write of an event, where they have this formatter to fall back on. -/
def output (fallback : Option Bytes) (level : Int) : List LogAppender → List Write
  | [] => []
  | ap :: aps =>
    if ap.level ≤ level then
      match ap.formatter.or fallback with
      | some format => .event ap.kind format :: output fallback level aps
      | none => [.invalid]
    else output fallback level aps

/-- The logger of the entry is registered. -/
def SetUp (s : State) (val : LogConfig) : Prop :=
  ∃ p, s.registered val.name = some (some p) ∧ s.loggers[p]? = some val.logger

section SetUp

variable {fresh : Nat → Int} {s t : State} {val val' : LogConfig} {p : Nat} {f : Logger → Logger}

theorem foldl_addAppender (aps : List LogAppender) : ∀ l : Logger,
    aps.foldl Logger.addAppender l = { l with appenders := l.appenders ++ aps } := by
  induction aps with
  | nil => simp
  | cons ap aps ih =>
      intro l
      rw [List.foldl_cons, ih]
      simp [Logger.addAppender]

theorem configure_eq (l : Logger) (hname : l.name = val.name) : l.configure val = val.logger := by
  rw [Logger.configure, foldl_addAppender]
  simp [Logger.setLevel, Logger.setFormatter, Logger.clearAppenders, LogConfig.logger, LogConfig.known,
    hname]

theorem setUp_grows (h : Grows s t) (hs : SetUp s val) : SetUp t val := by
  obtain ⟨p, hp, hl⟩ := hs
  exact ⟨p, h.registered _ _ hp, h.loggers _ _ hl⟩

/-- A change of the logger of another name. -/
theorem setUp_modify (hp : ∀ l, s.loggers[p]? = some l → l.name ≠ val.name) (hs : SetUp s val) :
    SetUp (s.modify p f) val := by
  obtain ⟨q, hq, hl⟩ := hs
  refine ⟨q, hq, loggers_modify.mpr ⟨_, hl, if_neg ?_⟩⟩
  rintro rfl
  exact hp _ hl rfl

theorem setUp_delLogger {name : Bytes} (hname : val.name ≠ name) (hs : SetUp s val) :
    SetUp (s.delLogger name) val := by
  obtain ⟨q, hq, hl⟩ := hs
  refine ⟨q, ?_, hl⟩
  change Function.update s.registered name none val.name = _
  rw [Function.update_of_ne hname, hq]

/-- An entry sets up its logger and no other one. -/
theorem setUp_configure (hs : Wf s) (hname : cstr val.name = val.name)
    (ht : s.configure fresh val = some t) :
    Wf t ∧ SetUp t val ∧ ∀ val', val'.name ≠ val.name → SetUp s val' → SetUp t val' := by
  obtain ⟨p, hp, rfl⟩ := Option.map_eq_some_iff.mp ht
  obtain ⟨hwf, hgrows⟩ := getLogger_spec fresh hs val.name
  have hreg := registered_getLogger fresh s val.name
  rw [hp, hname] at hreg
  obtain ⟨l, hl, hlname⟩ := hwf.named _ _ hreg
  refine ⟨wf_getLogger_modify hs hp fun l => name_configure l val, ⟨p, hreg, ?_⟩, fun val' hne hs' => ?_⟩
  · exact loggers_modify.mpr ⟨l, hl, by rw [if_pos rfl, configure_eq l hlname]⟩
  · refine setUp_modify (fun l' hl' heq => hne ?_) (setUp_grows hgrows hs')
    rw [← heq, (getLogger_logger hs hp).1 l' hl', hname]

theorem setUp_run_configure {new : List LogConfig} : ∀ {s t : State}, Wf s →
    (new.map LogConfig.name).Nodup → (∀ val ∈ new, cstr val.name = val.name) →
    run (State.configure fresh) s new = some t → Wf t ∧ ∀ val ∈ new, SetUp t val := by
  have hkeep : ∀ (new : List LogConfig) {s t : State}, Wf s → (∀ val ∈ new, cstr val.name = val.name) →
      run (State.configure fresh) s new = some t →
      Wf t ∧ ∀ val, val.name ∉ new.map LogConfig.name → SetUp s val → SetUp t val := by
    intro new
    induction new with
    | nil =>
        intro s t hs _ ht
        cases ht
        exact ⟨hs, fun _ _ h => h⟩
    | cons val new ih =>
        intro s t hs hnames ht
        obtain ⟨u, hu, ht⟩ := Option.bind_eq_some_iff.mp ht
        obtain ⟨hwf, -, hothers⟩ := setUp_configure hs (hnames val List.mem_cons_self) hu
        obtain ⟨hwf', hrest⟩ := ih hwf (fun v hv => hnames v (List.mem_cons_of_mem _ hv)) ht
        refine ⟨hwf', fun v hv hsv => ?_⟩
        rw [List.map_cons, List.mem_cons, not_or] at hv
        exact hrest v hv.2 (hothers v hv.1 hsv)
  induction new with
  | nil =>
      intro s t hs _ _ ht
      cases ht
      exact ⟨hs, fun v hv => absurd hv List.not_mem_nil⟩
  | cons val new ih =>
      intro s t hs hnodup hnames ht
      obtain ⟨u, hu, hrun⟩ := Option.bind_eq_some_iff.mp ht
      obtain ⟨hfresh, hnodup⟩ := List.nodup_cons.mp hnodup
      have hrest : ∀ v ∈ new, cstr v.name = v.name := fun v hv => hnames v (List.mem_cons_of_mem _ hv)
      obtain ⟨hwf, hsetUp, -⟩ := setUp_configure hs (hnames val List.mem_cons_self) hu
      obtain ⟨hwf', hnew⟩ := ih hwf hnodup hrest hrun
      refine ⟨hwf', fun v hv => ?_⟩
      rcases List.mem_cons.mp hv with rfl | hv
      · exact (hkeep new hwf hrest hrun).2 v hfresh hsetUp
      · exact hnew v hv

theorem registered_getLogger_of_ne {name key : Bytes} (hname : cstr name = name) (hkey : key ≠ name) :
    (s.getLogger fresh name).2.registered key = s.registered key := by
  have hindex : ∀ u : State, (u.index name).2.registered key = u.registered key := by
    intro u
    cases h : u.registered name with
    | some ptr => rw [index_of_registered h]
    | none =>
        rw [index_of_unregistered h]
        exact Function.update_of_ne hkey (some none) u.registered
  rw [State.getLogger, hname]
  split
  · exact hindex s
  · rw [hindex, State.emplace]
    split
    · rfl
    · exact Function.update_of_ne hkey _ s.registered

/-- An entry of the old value that is left out of the new one is not registered any more. -/
theorem setUp_remove {new : List LogConfig} (hs : Wf s) (hname : cstr val.name = val.name)
    (ht : s.remove fresh new val = some t) :
    Wf t ∧ (∀ val' ∈ new, SetUp s val' → SetUp t val') ∧
      (∀ key, key ≠ val.name → t.registered key = s.registered key) ∧
      (val.name ∉ new.map LogConfig.name → t.registered val.name = none) := by
  have hwf := (remove_spec hs ht).1
  refine ⟨hwf, ?_⟩
  unfold State.remove at ht
  split at ht
  · rename_i hkept
    cases ht
    refine ⟨fun _ _ h => h, fun _ _ => rfl, fun hnot => ?_⟩
    obtain ⟨val', hval', heq⟩ := hkept
    exact absurd (List.mem_map.mpr ⟨val', hval', heq⟩) hnot
  · rename_i hnot
    obtain ⟨p, hp, rfl⟩ := Option.map_eq_some_iff.mp ht
    obtain ⟨-, hgrows⟩ := getLogger_spec fresh hs val.name
    refine ⟨fun val' hval' hs' => ?_, fun key hkey => ?_, fun _ => Function.update_self _ _ _⟩
    · have hne : val'.name ≠ val.name := fun heq => hnot ⟨val', hval', heq⟩
      refine setUp_delLogger hne (setUp_modify (fun l hl heq => hne ?_) (setUp_grows hgrows hs'))
      rw [← heq, (getLogger_logger hs hp).1 l hl, hname]
    · exact (Function.update_of_ne hkey none _).trans (registered_getLogger_of_ne hname hkey)

theorem setUp_run_remove {new old : List LogConfig} : ∀ {s t : State}, Wf s →
    (∀ val ∈ old, cstr val.name = val.name) → run (State.remove fresh · new) s old = some t →
    Wf t ∧ (∀ val ∈ new, SetUp s val → SetUp t val) ∧
      ∀ key, key ∉ new.map LogConfig.name → (key ∈ old.map LogConfig.name ∨ s.registered key = none) →
        t.registered key = none := by
  induction old with
  | nil =>
      intro s t hs _ ht
      cases ht
      refine ⟨hs, fun _ _ h => h, fun key _ hkey => hkey.resolve_left List.not_mem_nil⟩
  | cons val old ih =>
      intro s t hs hnames ht
      obtain ⟨u, hu, ht⟩ := Option.bind_eq_some_iff.mp ht
      obtain ⟨hwf, hkeep, hother, hgone⟩ := setUp_remove hs (hnames val List.mem_cons_self) hu
      obtain ⟨hwf', hkeep', hgone'⟩ := ih hwf (fun v hv => hnames v (List.mem_cons_of_mem _ hv)) ht
      refine ⟨hwf', fun v hv hsv => hkeep' v hv (hkeep v hv hsv), fun key hnew hkey => ?_⟩
      refine hgone' key hnew ?_
      by_cases heq : key = val.name
      · subst heq
        exact Or.inr (hgone hnew)
      · rw [hother key heq]
        exact hkey.imp_left fun hmem => (List.mem_cons.mp hmem).resolve_left heq

end SetUp

section Logging

variable {fresh : Nat → Int} {s : State}

variable (fresh) in
theorem appenderLog_grows (hs : Wf s) (name : Bytes) (level : Int) (ap : LogAppender) :
    Wf (s.appenderLog fresh name level ap).2 ∧ Grows s (s.appenderLog fresh name level ap).2 := by
  unfold State.appenderLog
  split
  · dsimp only
    split
    · exact getLogger_spec fresh hs (cstr name)
    · exact getLogger_spec fresh hs (cstr name)
  · exact ⟨hs, .refl s⟩

theorem appendersLog_grows (name : Bytes) (level : Int) (aps : List LogAppender) :
    ∀ {s : State}, Wf s → Wf (State.appendersLog fresh name level s aps).2 ∧
      Grows s (State.appendersLog fresh name level s aps).2 := by
  induction aps with
  | nil => exact fun hs => ⟨hs, .refl _⟩
  | cons ap aps ih =>
      intro s hs
      obtain ⟨hwf, hgrows⟩ := appenderLog_grows fresh hs name level ap
      rw [State.appendersLog]
      split
      · obtain ⟨hwf', hgrows'⟩ := ih hwf
        exact ⟨hwf', hgrows.trans hgrows'⟩
      · exact ⟨hwf, hgrows⟩

variable (fresh) in
/-- A call of `log` only adds loggers and names, whatever its end. -/
theorem log_grows (fuel : Nat) : ∀ (held : List Nat) (p : Nat) (level : Int) {s : State}, Wf s →
    Wf (State.log fresh fuel held p level s).2 ∧ Grows s (State.log fresh fuel held p level s).2 := by
  induction fuel with
  | zero => exact fun _ _ _ {s} hs => ⟨hs, .refl s⟩
  | succ fuel ih =>
      intro held p level s hs
      rw [State.log]
      split
      · exact ⟨hs, .refl s⟩
      · split
        · exact ⟨hs, .refl s⟩
        · split
          · split
            · exact appendersLog_grows _ level _ hs
            · obtain ⟨hwf, hgrows⟩ := getLogger_spec fresh hs rootName
              dsimp only
              split
              · rename_i root _
                obtain ⟨hwf', hgrows'⟩ := ih (p :: held) root level hwf
                exact ⟨hwf', hgrows.trans hgrows'⟩
              · exact ⟨hwf, hgrows⟩
          · exact ⟨hs, .refl s⟩

variable (fresh) in
/-- The loop over the appenders of a registered logger. -/
theorem appendersWrites_eq {name : Bytes} {p : Nat} (hname : cstr name = name)
    (hreg : s.registered name = some (some p)) (level : Int) (aps : List LogAppender) :
    State.appendersWrites fresh name level s aps = output (s.formatterOf p) level aps := by
  have hget : s.getLogger fresh (cstr name) = (some p, s) :=
    getLogger_of_registered (by rw [hname, hname, hreg])
  induction aps with
  | nil => rfl
  | cons ap aps ih =>
      rw [State.appendersWrites, State.appenderLog, State.appenderWrites, output, hget]
      by_cases hlevel : ap.level ≤ level
      · cases hformat : ap.formatter with
        | some format => simp [hlevel, ih]
        | none =>
            cases hfallback : s.formatterOf p with
            | some format =>
                rw [hfallback] at ih
                simp [hlevel, hfallback, ih]
            | none => simp [hlevel, hfallback]
      · simp [hlevel, ih]

variable (fresh) in
/-- A logger that is registered with appenders writes by these. -/
theorem writes_of_known {val : LogConfig} {p : Nat} (hname : cstr val.name = val.name)
    (hreg : s.registered val.name = some (some p)) (hl : s.loggers[p]? = some val.logger)
    (hne : val.known ≠ []) {held : List Nat} (hheld : p ∉ held) (fuel : Nat) (level : Int) :
    State.writes fresh (fuel + 1) held p level s =
      if val.level ≤ level then output (makeFormatter val.formatter) level val.known else [] := by
  have hformatter : s.formatterOf p = makeFormatter val.formatter := by
    rw [State.formatterOf, hl]
    rfl
  have hwrites := appendersWrites_eq fresh hname hreg level val.known
  rw [hformatter] at hwrites
  rw [State.writes, if_neg hheld, hl]
  change (if val.level ≤ level then if val.known ≠ [] then _ else _ else []) = _
  rw [if_pos hne]
  exact if_congr Iff.rfl hwrites rfl

end Logging

/-- No two entries have one name, and none has a null character in its name. -/
def Clean : Label → Prop
  | .reload new => (new.map LogConfig.name).Nodup ∧ ∀ val ∈ new, cstr val.name = val.name
  | _ => True

/-- The loggers are as the value of the `log` variable says. -/
structure Configured (s : State) : Prop where
  wf : Wf s
  names : ∀ val ∈ s.value, cstr val.name = val.name
  setUp : ∀ val ∈ s.value, SetUp s val

section Run

variable {fresh : Nat → Int} {s t : State}

theorem Configured.grows (h : Configured s) (hwf : Wf t) (hgrows : Grows s t) : Configured t := by
  refine ⟨hwf, ?_, ?_⟩
  · rw [hgrows.value]
    exact h.names
  · rw [hgrows.value]
    exact fun val hval => setUp_grows hgrows (h.setUp val hval)

/-- A new value sets up its entries, and what the old value had besides is not registered any more. -/
theorem configured_reload {new : List LogConfig} (h : Configured s) (hclean : Clean (.reload new))
    (ht : s.reload fresh new = some t) : Configured t ∧
      ∀ val ∈ s.value, val.name ∉ new.map LogConfig.name → t.registered val.name = none := by
  obtain ⟨hnodup, hnames⟩ := hclean
  obtain ⟨v, hv, rfl⟩ := Option.map_eq_some_iff.mp ht
  obtain ⟨u, hu, hv⟩ := Option.bind_eq_some_iff.mp hv
  obtain ⟨hwf, hsetUp⟩ := setUp_run_configure h.wf hnodup hnames hu
  obtain ⟨hwf', hkeep, hgone⟩ := setUp_run_remove hwf h.names hv
  refine ⟨⟨⟨hwf'.named, hwf'.kept⟩, hnames, fun val hval => hkeep val hval (hsetUp val hval)⟩,
    fun val hval hnot => hgone val.name hnot (Or.inl (List.mem_map_of_mem hval))⟩

theorem configured_step {label : Label} (h : Configured s) (hclean : Clean label)
    (ht : step fresh s label = some t) : Configured t := by
  cases label with
  | reload new => exact (configured_reload h hclean ht).1
  | getLogger name =>
      cases ht
      obtain ⟨hwf, hgrows⟩ := getLogger_spec fresh h.wf name
      exact h.grows hwf hgrows
  | log p level =>
      simp only [step, Option.ite_none_right_eq_some, Option.some.injEq] at ht
      obtain ⟨hwf, hgrows⟩ := log_grows fresh 3 [] p level h.wf
      exact ht.2 ▸ h.grows hwf hgrows

/-- What the configuration is for. -/
structure Follows (fresh : Nat → Int) (s : State) : Prop where
  /-- An event for the logger of an entry is written as the entry says. -/
  writes : ∀ val ∈ s.value, val.known ≠ [] → ∃ p, s.getLogger fresh val.name = (some p, s) ∧
    ∀ (fuel : Nat) (level : Int), State.writes fresh (fuel + 1) [] p level s =
      if val.level ≤ level then output (makeFormatter val.formatter) level val.known else []
  /-- Where the entry has no appenders, as the entry of the root logger says. -/
  root : ∀ val ∈ s.value, val.known = [] → ∀ root ∈ s.value, root.name = rootName → root.known ≠ [] →
    ∃ p, s.getLogger fresh val.name = (some p, s) ∧
    ∀ (fuel : Nat) (level : Int), State.writes fresh (fuel + 2) [] p level s =
      if val.level ≤ level ∧ root.level ≤ level then
        output (makeFormatter root.formatter) level root.known else []
  /-- An entry that a new value leaves out is not registered any more. -/
  drops : ∀ (new : List LogConfig) (t : State), Clean (.reload new) → s.reload fresh new = some t →
    ∀ val ∈ s.value, val.name ∉ new.map LogConfig.name → t.registered val.name = none

theorem follows_of_configured (h : Configured s) : Follows fresh s where
  writes := by
    intro val hval hne
    have hname := h.names val hval
    obtain ⟨p, hreg, hl⟩ := h.setUp val hval
    exact ⟨p, getLogger_of_registered (by rw [hname, hreg]), fun fuel level =>
      writes_of_known fresh hname hreg hl hne List.not_mem_nil fuel level⟩
  root := by
    intro val hval hnil root hroot hrootName hne
    have hname := h.names val hval
    obtain ⟨p, hreg, hl⟩ := h.setUp val hval
    obtain ⟨r, hrootReg, hr⟩ := h.setUp root hroot
    have hother : r ∉ [p] := by
      rw [List.mem_singleton]
      rintro rfl
      rw [hl] at hr
      exact hne ((congrArg Logger.appenders (Option.some.inj hr)).symm.trans hnil)
    have hget : s.getLogger fresh rootName = (some r, s) :=
      getLogger_of_registered (by rw [cstr_rootName, ← hrootName, hrootReg])
    refine ⟨p, getLogger_of_registered (by rw [hname, hreg]), fun fuel level => ?_⟩
    have hwrites := writes_of_known fresh (h.names root hroot) hrootReg hr hne hother fuel level
    rw [State.writes, if_neg List.not_mem_nil, hl]
    change (if val.level ≤ level then if val.known ≠ [] then _ else _ else []) = _
    rw [if_neg (not_not_intro hnil), hget]
    by_cases hlevel : val.level ≤ level
    · rw [if_pos hlevel]
      refine hwrites.trans (if_congr ?_ rfl rfl)
      exact (and_iff_right hlevel).symm
    · rw [if_neg hlevel, if_neg fun hand => hlevel hand.1]
  drops := fun new t hclean ht => (configured_reload h hclean ht).2

end Run

/-- In every run of new values, lookups and logging, the loggers follow the value of the `log` variable,
whatever values were there before it. -/
theorem follows_of_run (fresh : Nat → Int) (labels : List Label)
    (hclean : ∀ label ∈ labels, Clean label) :
    StatesMeet (step fresh) (Follows fresh) (init fresh) labels :=
  statesMeet_of_invariant (C := fun _ label => Clean label) (fun _ => follows_of_configured)
    (fun _ _ _ h hl ht => configured_step h hl ht) labels _
    ⟨inv_init.wf, fun _ hval => absurd hval List.not_mem_nil, fun _ hval => absurd hval List.not_mem_nil⟩
    (stepsMeet_of_forall_mem _ fun label hlabel _ => hclean label hlabel)

/-- A file that takes errors in the format of the logger, and a console; then another value. -/
def storeConfig : LogConfig :=
  ⟨ascii "store", 2, ascii "%p%m", [⟨2, 4, [], ascii "errors.txt"⟩, ⟨1, 1, ascii "%m", []⟩]⟩

theorem follows_store :
    ((run (step fun _ => 0) (init fun _ => 0) [.reload [consoleRoot, storeConfig]]).map fun s =>
      State.writes (fun _ => 0) 1 [] 1 4 s) =
        some [.event (.file (ascii "errors.txt")) (ascii "%p%m"), .event .stdout (ascii "%m")] ∧
    StatesMeet (step fun _ => 0) (Follows fun _ => 0) (init fun _ => 0)
      [.reload [consoleRoot, storeConfig], .log 1 4, .reload [consoleRoot], .getLogger (ascii "store")] := by
  refine ⟨by decide, follows_of_run (fun _ => 0) _ ?_⟩
  simp only [List.forall_mem_cons, List.not_mem_nil, false_imp_iff, implies_true, and_true]
  exact ⟨⟨by decide, by decide⟩, trivial, ⟨by decide, by decide⟩, trivial⟩

end Log

end Saturn
