import Mathlib.Data.List.TakeWhile
import Saturn.Log.Logger
import Saturn.Misc.ListUpdate

/-!
# Reloading the log configuration

A logger without appenders depends on the root logger: that it is registered, and that it has an
appender. The names of the entries decide both, read up to their first null character, and the last
entry of a value that names root decides about its appenders.
-/

namespace Saturn

namespace Log

open Http (Bytes ascii cstr)

theorem cstr_cstr (s : Bytes) : cstr (cstr s) = cstr s := List.takeWhile_idem

theorem cstr_rootName : cstr rootName = rootName := rfl

/-- Loggers are registered under their names, and those with appenders are registered, under names
without null characters. -/
structure Wf (s : State) : Prop where
  named : ∀ key p, s.registered key = some (some p) → ∃ l, s.loggers[p]? = some l ∧ l.name = key
  kept : ∀ p l, s.loggers[p]? = some l → l.appenders ≠ [] →
    cstr l.name = l.name ∧ s.registered l.name = some (some p)

/-- `t` is `s` with more loggers, which have no appenders, and with more names registered. -/
structure Grows (s t : State) : Prop where
  registered : ∀ key ptr, s.registered key = some ptr → t.registered key = some ptr
  loggers : ∀ (p : Nat) l, s.loggers[p]? = some l → t.loggers[p]? = some l
  new : ∀ (p : Nat) l, t.loggers[p]? = some l → s.loggers[p]? = some l ∨ l.appenders = []
  value : t.value = s.value

theorem Grows.refl (s : State) : Grows s s :=
  ⟨fun _ _ h => h, fun _ _ h => h, fun _ _ h => Or.inl h, rfl⟩

theorem Grows.trans {s t u : State} (h : Grows s t) (h' : Grows t u) : Grows s u := by
  refine ⟨fun key ptr hs => h'.registered key ptr (h.registered key ptr hs),
    fun p l hs => h'.loggers p l (h.loggers p l hs), fun p l hu => ?_, h'.value.trans h.value⟩
  rcases h'.new p l hu with ht | hnone
  · exact h.new p l ht
  · exact Or.inr hnone

section Lookups

variable {fresh : Nat → Int} {s : State}

theorem index_of_registered {key : Bytes} {ptr : Option Nat} (h : s.registered key = some ptr) :
    s.index key = (ptr, s) := by
  simp [State.index, h]

theorem index_of_unregistered {key : Bytes} (h : s.registered key = none) :
    s.index key = (none, { s with registered := Function.update s.registered key (some none) }) := by
  simp [State.index, h]

/-- To register something under a new name leaves the other names. -/
theorem registered_update {key key' : Bytes} {x : Option Nat} {v : Option (Option Nat)}
    (h : s.registered key = none) (hkey : s.registered key' = some x) :
    Function.update s.registered key v key' = some x := by
  rw [Function.update_of_ne, hkey]
  rintro rfl
  rw [h] at hkey
  cases hkey

theorem wf_index (hs : Wf s) (key : Bytes) : Wf (s.index key).2 ∧ Grows s (s.index key).2 := by
  cases h : s.registered key with
  | some ptr =>
      rw [index_of_registered h]
      exact ⟨hs, .refl s⟩
  | none =>
      rw [index_of_unregistered h]
      refine ⟨⟨fun key' p hp => ?_, fun p l hl hne => ?_⟩, fun key' ptr hp => registered_update h hp,
        fun _ _ hl => hl, fun _ _ hl => Or.inl hl, rfl⟩
      · change Function.update s.registered key (some none) key' = some (some p) at hp
        rw [Function.update_apply] at hp
        split at hp
        · cases hp
        · exact hs.named key' p hp
      · obtain ⟨hname, hreg⟩ := hs.kept p l hl hne
        exact ⟨hname, registered_update h hreg⟩

theorem wf_emplace (fresh : Nat → Int) (hs : Wf s) (name : Bytes) :
    Wf (s.emplace fresh name) ∧ Grows s (s.emplace fresh name) := by
  unfold State.emplace
  cases h : s.registered name with
  | some ptr => exact ⟨hs, .refl s⟩
  | none =>
      have hold : ∀ (p : Nat) l, s.loggers[p]? = some l →
          (s.loggers ++ [⟨name, fresh s.loggers.length, none, []⟩])[p]? = some l := by
        intro p l hl
        rw [List.getElem?_append_left (List.getElem?_eq_some_iff.mp hl).1, hl]
      have hnew : ∀ (p : Nat) l, (s.loggers ++ [⟨name, fresh s.loggers.length, none, []⟩])[p]? = some l →
          s.loggers[p]? = some l ∨ l.appenders = [] := by
        intro p l hl
        rcases getElem?_concat_cases hl with hl | rfl
        · exact Or.inl hl
        · exact Or.inr rfl
      refine ⟨⟨fun key p hp => ?_, fun p l hl hne => ?_⟩, fun key ptr hp => registered_update h hp,
        hold, hnew, rfl⟩
      · change Function.update s.registered name (some (some s.loggers.length)) key = some (some p) at hp
        rw [Function.update_apply] at hp
        split at hp
        · rename_i hkey
          cases hp
          exact ⟨_, List.getElem?_concat_length, hkey.symm⟩
        · obtain ⟨l, hl, hname⟩ := hs.named key p hp
          exact ⟨l, hold p l hl, hname⟩
      · rcases hnew p l hl with hl | hnone
        · obtain ⟨hname, hreg⟩ := hs.kept p l hl hne
          exact ⟨hname, registered_update h hreg⟩
        · exact absurd hnone hne

theorem registered_index (key : Bytes) : (s.index key).2.registered key = some (s.index key).1 := by
  cases h : s.registered key with
  | some ptr => rw [index_of_registered h, h]
  | none =>
      rw [index_of_unregistered h]
      exact Function.update_self key (some none) s.registered

/-- What `getLogger` returns is registered under the name up to the first null character. -/
theorem registered_getLogger (fresh : Nat → Int) (s : State) (name : Bytes) :
    (s.getLogger fresh name).2.registered (cstr name) = some (s.getLogger fresh name).1 := by
  unfold State.getLogger
  split
  · exact registered_index (cstr name)
  · exact registered_index (cstr name)

/-- `getLogger` only adds loggers and names. -/
theorem getLogger_spec (fresh : Nat → Int) (hs : Wf s) (name : Bytes) :
    Wf (s.getLogger fresh name).2 ∧ Grows s (s.getLogger fresh name).2 := by
  unfold State.getLogger
  split
  · exact wf_index hs (cstr name)
  · obtain ⟨hwf, hgrows⟩ := wf_emplace fresh hs name
    obtain ⟨hwf', hgrows'⟩ := wf_index hwf (cstr name)
    exact ⟨hwf', hgrows.trans hgrows'⟩

theorem getLogger_of_registered {name : Bytes} {ptr : Option Nat}
    (h : s.registered (cstr name) = some ptr) : s.getLogger fresh name = (ptr, s) := by
  rw [State.getLogger, if_pos (by rw [h]; rfl), index_of_registered h]

end Lookups

section Changes

variable {fresh : Nat → Int} {s t : State} {p : Nat} {f : Logger → Logger}

theorem loggers_modify {q : Nat} {l : Logger} : (s.modify p f).loggers[q]? = some l ↔
    ∃ l', s.loggers[q]? = some l' ∧ (if p = q then f l' else l') = l := by
  rw [State.modify, List.getElem?_modify, Option.map_eq_map, Option.map_eq_some_iff]

theorem wf_modify (hs : Wf s) (hf : ∀ l, (f l).name = l.name)
    (hp : ∀ l, s.loggers[p]? = some l → cstr l.name = l.name ∧ s.registered l.name = some (some p)) :
    Wf (s.modify p f) := by
  have hname : ∀ (q : Nat) l, (if p = q then f l else l).name = l.name := by
    intro q l
    split
    · exact hf l
    · rfl
  refine ⟨fun key q hq => ?_, fun q l hl hne => ?_⟩
  · obtain ⟨l, hl, hkey⟩ := hs.named key q hq
    exact ⟨_, loggers_modify.mpr ⟨l, hl, rfl⟩, (hname q l).trans hkey⟩
  · obtain ⟨l', hl', rfl⟩ := loggers_modify.mp hl
    rw [hname]
    by_cases hpq : p = q
    · subst hpq
      exact hp l' hl'
    · rw [if_neg hpq] at hne
      exact hs.kept q l' hl' hne

theorem wf_delLogger {name : Bytes} (hs : Wf s)
    (h : ∀ (q : Nat) l, s.loggers[q]? = some l → l.appenders ≠ [] → l.name ≠ name) :
    Wf (s.delLogger name) := by
  refine ⟨fun key q hq => ?_, fun q l hl hne => ?_⟩
  · change Function.update s.registered name none key = some (some q) at hq
    rw [Function.update_apply] at hq
    split at hq
    · cases hq
    · exact hs.named key q hq
  · obtain ⟨hname, hreg⟩ := hs.kept q l hl hne
    refine ⟨hname, ?_⟩
    change Function.update s.registered name none l.name = _
    rw [Function.update_of_ne (h q l hl hne), hreg]

/-- The logger that `getLogger` returns: its name is the one that is looked for, and it is the only one
of the name that may have appenders. -/
theorem getLogger_logger {name : Bytes} (hs : Wf s) (hp : (s.getLogger fresh name).1 = some p) :
    (∀ l, (s.getLogger fresh name).2.loggers[p]? = some l → l.name = cstr name) ∧
    ∀ (q : Nat) l, (s.getLogger fresh name).2.loggers[q]? = some l → l.name = cstr name →
      l.appenders ≠ [] → q = p := by
  obtain ⟨hwf, -⟩ := getLogger_spec fresh hs name
  have hreg := registered_getLogger fresh s name
  rw [hp] at hreg
  refine ⟨fun l hl => ?_, fun q l hl hname hne => ?_⟩
  · obtain ⟨l', hl', hname⟩ := hwf.named _ _ hreg
    rw [hl] at hl'
    cases hl'
    exact hname
  · obtain ⟨-, hq⟩ := hwf.kept q l hl hne
    rw [hname, hreg] at hq
    cases hq
    rfl

theorem wf_getLogger_modify {name : Bytes} (hs : Wf s) (hp : (s.getLogger fresh name).1 = some p)
    (hf : ∀ l, (f l).name = l.name) : Wf ((s.getLogger fresh name).2.modify p f) := by
  obtain ⟨hwf, -⟩ := getLogger_spec fresh hs name
  have hreg := registered_getLogger fresh s name
  rw [hp] at hreg
  refine wf_modify hwf hf fun l hl => ?_
  rw [(getLogger_logger hs hp).1 l hl, cstr_cstr]
  exact ⟨rfl, hreg⟩

/-- The appenders of the logger that is registered as root. -/
def RootHas (s : State) (aps : List LogAppender) : Prop :=
  ∃ r l, s.registered rootName = some (some r) ∧ s.loggers[r]? = some l ∧ l.appenders = aps

theorem rootHas_grows {aps : List LogAppender} (h : Grows s t) (hroot : RootHas s aps) :
    RootHas t aps := by
  obtain ⟨r, l, hr, hl, haps⟩ := hroot
  exact ⟨r, l, h.registered _ _ hr, h.loggers _ _ hl, haps⟩

/-- A change of another logger leaves the root logger. -/
theorem rootHas_modify {aps : List LogAppender} (hs : Wf s) (hroot : RootHas s aps)
    (hp : ∀ l, s.loggers[p]? = some l → l.name ≠ rootName) : RootHas (s.modify p f) aps := by
  obtain ⟨r, l, hr, hl, haps⟩ := hroot
  refine ⟨r, l, hr, loggers_modify.mpr ⟨l, hl, if_neg ?_⟩, haps⟩
  rintro rfl
  obtain ⟨l', hl', hname⟩ := hs.named _ _ hr
  exact hp l' hl' hname

theorem rootHas_modify_self {name : Bytes} {g : List LogAppender} (hs : Wf s)
    (hp : (s.getLogger fresh name).1 = some p) (hname : cstr name = rootName)
    (hf : ∀ l, (f l).appenders = g) : RootHas ((s.getLogger fresh name).2.modify p f) g := by
  obtain ⟨hwf, -⟩ := getLogger_spec fresh hs name
  have hreg := registered_getLogger fresh s name
  rw [hp] at hreg
  obtain ⟨l, hl, -⟩ := hwf.named _ _ hreg
  rw [hname] at hreg
  exact ⟨p, f l, hreg, loggers_modify.mpr ⟨l, hl, if_pos rfl⟩, hf l⟩

theorem appenders_configure (l : Logger) (val : LogConfig) :
    (l.configure val).appenders = val.appenders.filterMap newAppender := by
  have hfold : ∀ (aps : List LogAppender) (l : Logger),
      (aps.foldl Logger.addAppender l).appenders = l.appenders ++ aps := by
    intro aps
    induction aps with
    | nil => intro l; simp
    | cons ap aps ih => intro l; simp [ih, Logger.addAppender]
  exact (hfold _ _).trans (List.nil_append _)

theorem name_configure (l : Logger) (val : LogConfig) : (l.configure val).name = l.name := by
  have hfold : ∀ (aps : List LogAppender) (l : Logger),
      (aps.foldl Logger.addAppender l).name = l.name := by
    intro aps
    induction aps with
    | nil => intro l; rfl
    | cons ap aps ih => intro l; simp [ih, Logger.addAppender]
  exact hfold _ _

/-- An entry of the new value sets up the logger that its name leads to. -/
theorem configure_spec {val : LogConfig} {aps : List LogAppender} (hs : Wf s) (hroot : RootHas s aps)
    (ht : s.configure fresh val = some t) : Wf t ∧ t.value = s.value ∧
      RootHas t (if cstr val.name = rootName then val.appenders.filterMap newAppender else aps) := by
  obtain ⟨p, hp, rfl⟩ := Option.map_eq_some_iff.mp ht
  obtain ⟨hwf, hgrows⟩ := getLogger_spec fresh hs val.name
  refine ⟨wf_getLogger_modify hs hp fun l => name_configure l val, hgrows.value, ?_⟩
  by_cases hname : cstr val.name = rootName
  · rw [if_pos hname]
    exact rootHas_modify_self hs hp hname fun l => appenders_configure l val
  · rw [if_neg hname]
    refine rootHas_modify hwf (rootHas_grows hgrows hroot) fun l hl => ?_
    rw [(getLogger_logger hs hp).1 l hl]
    exact hname

/-- An entry of the old value that is not in the new one takes away the appenders of the logger that
its name leads to. -/
theorem remove_spec {new : List LogConfig} {val : LogConfig} (hs : Wf s)
    (ht : s.remove fresh new val = some t) : Wf t ∧ t.value = s.value ∧
      ((∃ val' ∈ new, val'.name = val.name) ∨ cstr val.name ≠ rootName →
        ∀ aps, RootHas s aps → RootHas t aps) := by
  unfold State.remove at ht
  split at ht
  · cases ht
    exact ⟨hs, rfl, fun _ aps h => h⟩
  · rename_i hnot
    obtain ⟨p, hp, rfl⟩ := Option.map_eq_some_iff.mp ht
    obtain ⟨hwf, hgrows⟩ := getLogger_spec fresh hs val.name
    have hmodify := wf_getLogger_modify (f := Logger.clearAppenders) hs hp fun _ => rfl
    obtain ⟨hlogger, honly⟩ := getLogger_logger hs hp
    refine ⟨wf_delLogger hmodify fun q l hl hne hname => ?_, hgrows.value, fun hkept aps hroot => ?_⟩
    · -- a logger of the very name that is deleted is the one whose appenders are gone
      obtain ⟨l', hl', rfl⟩ := loggers_modify.mp hl
      by_cases hpq : p = q
      · rw [if_pos hpq] at hne
        exact hne rfl
      · rw [if_neg hpq] at hne hname
        have hcstr := (hwf.kept q l' hl' hne).1
        rw [hname] at hcstr
        exact hpq (honly q l' hl' (hname.trans hcstr.symm) hne).symm
    · have hname := hkept.resolve_left hnot
      have hroot' : RootHas ((s.getLogger fresh val.name).2.modify p Logger.clearAppenders) aps := by
        refine rootHas_modify hwf (rootHas_grows hgrows hroot) fun l hl => ?_
        rw [hlogger l hl]
        exact hname
      obtain ⟨r, l, hr, hl, haps⟩ := hroot'
      refine ⟨r, l, ?_, hl, haps⟩
      change Function.update (s.getLogger fresh val.name).2.registered val.name none rootName = _
      rw [Function.update_of_ne]
      · exact hr
      · intro hdel
        exact hname (by rw [← hdel, cstr_rootName])

end Changes

/-- The name leads to the root logger. -/
def LogConfig.isRoot (val : LogConfig) : Bool := cstr val.name = rootName

/-- The last entry that leads to the root logger gives it an appender, and no entry that does so is
left out. -/
def RootKept (old new : List LogConfig) : Prop :=
  (∀ val ∈ (new.filter LogConfig.isRoot).getLast?, ∃ ap ∈ val.appenders, ap.type = 1 ∨ ap.type = 2) ∧
  ∀ val ∈ old, val.isRoot → ∃ val' ∈ new, val'.name = val.name

/-- The condition on a step: only a new value can do harm. -/
def Kept (s : State) : Label → Prop
  | .reload new => RootKept s.value new
  | _ => True

/-- The root logger is registered and has an appender. -/
structure Inv (s : State) : Prop where
  wf : Wf s
  root : ∃ aps, aps ≠ [] ∧ RootHas s aps

/-- What the loop over the new value makes of the appenders of the root logger. -/
def rootAppenders (aps : List LogAppender) (new : List LogConfig) : List LogAppender :=
  ((new.filter LogConfig.isRoot).getLast?.map fun val => val.appenders.filterMap newAppender).getD aps

theorem rootAppenders_cons (aps : List LogAppender) (val : LogConfig) (new : List LogConfig) :
    rootAppenders aps (val :: new) = rootAppenders
      (if cstr val.name = rootName then val.appenders.filterMap newAppender else aps) new := by
  unfold rootAppenders
  by_cases hroot : cstr val.name = rootName
  · rw [List.filter_cons_of_pos (by simpa [LogConfig.isRoot] using hroot), if_pos hroot,
      List.getLast?_cons]
    cases (new.filter LogConfig.isRoot).getLast? <;> rfl
  · rw [List.filter_cons_of_neg (by simpa [LogConfig.isRoot] using hroot), if_neg hroot]

theorem filterMap_newAppender_eq_nil {aps : List LogAppenderConfig} :
    aps.filterMap newAppender = [] ↔ ¬ ∃ ap ∈ aps, ap.type = 1 ∨ ap.type = 2 := by
  have hnone : ∀ ap, newAppender ap = none ↔ ¬ (ap.type = 1 ∨ ap.type = 2) := by
    intro ap
    unfold newAppender
    by_cases h1 : ap.type = 1
    · simp [h1]
    · by_cases h2 : ap.type = 2 <;> simp [h1, h2]
  simp only [List.filterMap_eq_nil_iff, hnone, not_exists, not_and]

section Runs

variable {fresh : Nat → Int}

theorem run_configure {new : List LogConfig} : ∀ {s t : State} {aps : List LogAppender}, Wf s →
    RootHas s aps → run (State.configure fresh) s new = some t →
      Wf t ∧ t.value = s.value ∧ RootHas t (rootAppenders aps new) := by
  induction new with
  | nil =>
      intro s t aps hs hroot ht
      cases ht
      exact ⟨hs, rfl, hroot⟩
  | cons val new ih =>
      intro s t aps hs hroot ht
      obtain ⟨u, hu, ht⟩ := Option.bind_eq_some_iff.mp ht
      obtain ⟨hwf, hvalue, hroot⟩ := configure_spec hs hroot hu
      rw [rootAppenders_cons, ← hvalue]
      exact ih hwf hroot ht

/-- A value that keeps the root logger keeps the invariant. -/
theorem inv_reload {s t : State} {new : List LogConfig} (h : Inv s) (hkept : RootKept s.value new)
    (ht : s.reload fresh new = some t) : Inv t := by
  obtain ⟨hlast, hold⟩ := hkept
  obtain ⟨aps, haps, hroot⟩ := h.root
  obtain ⟨v, hv, rfl⟩ := Option.map_eq_some_iff.mp ht
  obtain ⟨u, hu, hv⟩ := Option.bind_eq_some_iff.mp hv
  obtain ⟨hwf, -, hroot⟩ := run_configure h.wf hroot hu
  have hne : rootAppenders aps new ≠ [] := by
    unfold rootAppenders
    cases hval : (new.filter LogConfig.isRoot).getLast? with
    | none => exact haps
    | some val =>
        have hap := hlast val hval
        intro hnil
        exact filterMap_newAppender_eq_nil.mp hnil hap
  have hfinal := run_invariant (I := fun t => Wf t ∧ RootHas t (rootAppenders aps new))
    (C := fun _ val => (∃ val' ∈ new, val'.name = val.name) ∨ cstr val.name ≠ rootName)
    (fun s' val t' hs' hval ht' => by
      obtain ⟨hwf', -, hroot'⟩ := remove_spec hs'.1 ht'
      exact ⟨hwf', hroot' hval _ hs'.2⟩)
    s.value u v ⟨hwf, hroot⟩ (stepsMeet_of_forall_mem u fun val hval _ => by
      by_cases hname : cstr val.name = rootName
      · exact Or.inl (hold val hval (decide_eq_true hname))
      · exact Or.inr hname) hv
  exact ⟨⟨hfinal.1.named, hfinal.1.kept⟩, _, hne, hfinal.2⟩

theorem inv_getLogger {s : State} (h : Inv s) (name : Bytes) : Inv (s.getLogger fresh name).2 := by
  obtain ⟨hwf, hgrows⟩ := getLogger_spec fresh h.wf name
  obtain ⟨aps, haps, hroot⟩ := h.root
  exact ⟨hwf, aps, haps, rootHas_grows hgrows hroot⟩

/-- The call returns or throws. -/
def Ending.Ends (e : Ending) : Prop := e = .returned ∨ e = .threw

theorem appenderLog_ends (fresh : Nat → Int) {s : State} {name : Bytes} {p : Nat}
    (hname : cstr name = name) (hreg : s.registered name = some (some p)) (level : Int)
    (ap : LogAppender) :
    ∃ e : Ending, e.Ends ∧ s.appenderLog fresh name level ap = (e, s) := by
  unfold State.appenderLog
  split
  · rw [getLogger_of_registered (by rw [hname, hname, hreg])]
    by_cases hformatter : (s.formatterOf p).isSome = true
    · exact ⟨.returned, Or.inl rfl, by simp [hformatter]⟩
    · exact ⟨.threw, Or.inr rfl, by simp [hformatter]⟩
  · exact ⟨.returned, Or.inl rfl, rfl⟩

theorem appendersLog_ends (fresh : Nat → Int) {s : State} {name : Bytes} {p : Nat}
    (hname : cstr name = name) (hreg : s.registered name = some (some p)) (level : Int)
    (aps : List LogAppender) :
    ∃ e : Ending, e.Ends ∧ State.appendersLog fresh name level s aps = (e, s) := by
  induction aps with
  | nil => exact ⟨.returned, Or.inl rfl, rfl⟩
  | cons ap aps ih =>
      obtain ⟨e, he, hap⟩ := appenderLog_ends fresh hname hreg level ap
      rw [State.appendersLog, hap]
      rcases he with rfl | rfl
      · exact ih
      · exact ⟨.threw, Or.inr rfl, rfl⟩

/-- A logger with appenders ends its call, and changes nothing. -/
theorem log_of_appenders (fresh : Nat → Int) {s : State} (hs : Wf s) {held : List Nat} {p : Nat}
    {l : Logger} (hheld : p ∉ held) (hl : s.loggers[p]? = some l) (hne : l.appenders ≠ []) (fuel : Nat)
    (level : Int) : ∃ e : Ending, e.Ends ∧ State.log fresh (fuel + 1) held p level s = (e, s) := by
  obtain ⟨hname, hreg⟩ := hs.kept p l hl hne
  rw [State.log, if_neg hheld, hl]
  by_cases hlevel : l.level ≤ level
  · obtain ⟨e, he, hlog⟩ := appendersLog_ends fresh hname hreg level l.appenders
    exact ⟨e, he, by simp [hlevel, hne, hlog]⟩
  · exact ⟨.returned, Or.inl rfl, by simp [hlevel]⟩

theorem root_of_inv (fresh : Nat → Int) {s : State} (h : Inv s) :
    ∃ r root, s.getLogger fresh rootName = (some r, s) ∧ s.loggers[r]? = some root ∧
      root.appenders ≠ [] := by
  obtain ⟨aps, haps, r, root, hr, hroot, rfl⟩ := h.root
  exact ⟨r, root, getLogger_of_registered (by rw [cstr_rootName, hr]), hroot, haps⟩

/-- Two calls are enough: that of the logger, and that of the root logger. -/
theorem log_ends (fresh : Nat → Int) {s : State} (h : Inv s) {p : Nat} {l : Logger}
    (hl : s.loggers[p]? = some l) (fuel : Nat) (level : Int) :
    ∃ e : Ending, e.Ends ∧ State.log fresh (fuel + 2) [] p level s = (e, s) := by
  by_cases hne : l.appenders = []
  · obtain ⟨r, root, hget, hroot, happenders⟩ := root_of_inv fresh h
    have hother : r ∉ [p] := by
      rw [List.mem_singleton]
      rintro rfl
      rw [hl] at hroot
      cases hroot
      exact happenders hne
    obtain ⟨e, he, hlog⟩ := log_of_appenders fresh h.wf hother hroot happenders fuel level
    rw [State.log, if_neg (by simp), hl]
    by_cases hlevel : l.level ≤ level
    · exact ⟨e, he, by simp [hlevel, hne, hget, hlog]⟩
    · exact ⟨.returned, Or.inl rfl, by simp [hlevel]⟩
  · exact log_of_appenders fresh h.wf (by simp) hl hne (fuel + 1) level

theorem appenderLog_ne_outOfFuel (name : Bytes) (level : Int) (ap : LogAppender) (s : State) :
    (s.appenderLog fresh name level ap).1 ≠ .outOfFuel := by
  unfold State.appenderLog
  split
  · dsimp only
    split
    · split <;> simp
    · simp
  · simp

theorem appendersLog_ne_outOfFuel (name : Bytes) (level : Int) (aps : List LogAppender) (s : State) :
    (State.appendersLog fresh name level s aps).1 ≠ .outOfFuel := by
  induction aps generalizing s with
  | nil => simp [State.appendersLog]
  | cons ap aps ih =>
      rw [State.appendersLog]
      split
      · exact ih _
      · exact appenderLog_ne_outOfFuel name level ap s

/-- A call has an end of its own, or that of the call on the root logger within it. -/
theorem log_cases (fresh : Nat → Int) (fuel : Nat) (held : List Nat) (p : Nat) (level : Int) (s : State) :
    (State.log fresh (fuel + 1) held p level s).1 ≠ .outOfFuel ∨
    ∃ root, (s.getLogger fresh rootName).1 = some root ∧ State.log fresh (fuel + 1) held p level s =
      State.log fresh fuel (p :: held) root level (s.getLogger fresh rootName).2 := by
  rw [State.log]
  split
  · exact Or.inl (by simp)
  · split
    · exact Or.inl (by simp)
    · split
      · split
        · exact Or.inl (appendersLog_ne_outOfFuel _ _ _ _)
        · dsimp only
          split
          · rename_i root hroot
            exact Or.inr ⟨root, hroot, rfl⟩
          · exact Or.inl (by simp)
      · exact Or.inl (by simp)

/-- In whatever state, the third call within a call locks a mutex that is held, if there is one. -/
theorem log_ne_outOfFuel (s : State) (p : Nat) (level : Int) :
    (State.log fresh 3 [] p level s).1 ≠ .outOfFuel := by
  rcases log_cases fresh 2 [] p level s with hend | ⟨root, hroot, hlog⟩
  · exact hend
  · have hreg := registered_getLogger fresh s rootName
    rw [hroot] at hreg
    rw [hlog]
    rcases log_cases fresh 1 [p] root level (s.getLogger fresh rootName).2 with
      hend | ⟨root', hroot', hlog'⟩
    · exact hend
    · rw [getLogger_of_registered hreg] at hroot' hlog'
      cases hroot'
      rw [hlog', State.log, if_pos List.mem_cons_self]
      simp

/-- Every call of `log` ends, and where the logger has no appenders, the root logger that is found is
another one and has some. -/
def Sound (fresh : Nat → Int) (s : State) : Prop :=
  ∀ (p : Nat) (l : Logger) (level : Int), s.loggers[p]? = some l →
    (∃ fuel, (State.log fresh fuel [] p level s).1.Ends) ∧
    (l.level ≤ level → l.appenders = [] → ∃ r root, (s.getLogger fresh rootName).1 = some r ∧ r ≠ p ∧
      (s.getLogger fresh rootName).2.loggers[r]? = some root ∧ root.appenders ≠ [])

theorem sound_of_inv {s : State} (h : Inv s) : Sound fresh s := by
  intro p l level hl
  obtain ⟨e, he, hlog⟩ := log_ends fresh h hl 0 level
  refine ⟨⟨2, by rw [hlog]; exact he⟩, fun _ hnil => ?_⟩
  obtain ⟨r, root, hget, hroot, hne⟩ := root_of_inv fresh h
  rw [hget]
  refine ⟨r, root, rfl, ?_, hroot, hne⟩
  rintro rfl
  rw [hl] at hroot
  cases hroot
  exact hne hnil

theorem inv_step {s t : State} {label : Label} (h : Inv s) (hkept : Kept s label)
    (ht : step fresh s label = some t) : Inv t := by
  cases label with
  | reload new => exact inv_reload h hkept ht
  | getLogger name =>
      cases ht
      exact inv_getLogger h name
  | log p level =>
      simp only [step] at ht
      cases hl : s.loggers[p]? with
      | none => simp [State.log, hl] at ht
      | some l =>
          obtain ⟨e, he, hlog⟩ := log_ends fresh h hl 1 level
          have hlog : State.log fresh 3 [] p level s = (e, s) := hlog
          rw [hlog] at ht
          have ht := (if_pos he).symm.trans ht
          cases ht
          exact h

theorem inv_init : Inv (init fresh) := by
  have hreg : (init fresh).registered rootName = some (some 0) := by simp [init]
  refine ⟨⟨fun key p hp => ?_, fun p l hl _ => ?_⟩, _, ?_, 0, _, hreg, rfl, rfl⟩
  · change Function.update (fun _ => none) rootName (some (some 0)) key = some (some p) at hp
    rw [Function.update_apply] at hp
    split at hp
    · rename_i hkey
      cases hp
      exact ⟨_, rfl, hkey.symm⟩
    · cases hp
  · cases p with
    | zero =>
        cases hl
        exact ⟨cstr_rootName, hreg⟩
    | succ p => simp [init] at hl
  · simp

/-- The root logger has lost its appenders, also as an object that is not registered any more. -/
structure Rootless (s : State) : Prop where
  exists_root : ∃ (p : Nat) (l : Logger), s.loggers[p]? = some l ∧ l.name = rootName
  none : ∀ (p : Nat) l, s.loggers[p]? = some l → l.name = rootName → l.appenders = []

theorem rootless_of_rootHas_nil {s : State} (hs : Wf s) (h : RootHas s []) : Rootless s := by
  obtain ⟨r, root, hr, hroot, hnil⟩ := h
  obtain ⟨root', hroot', hname⟩ := hs.named _ _ hr
  refine ⟨⟨r, root', hroot', hname⟩, fun p l hl hlname => ?_⟩
  by_contra hne
  obtain ⟨-, hp⟩ := hs.kept p l hl hne
  rw [hlname, hr] at hp
  cases hp
  rw [hroot] at hl
  cases hl
  exact hne hnil

theorem rootless_grows {s t : State} (h : Grows s t) (hs : Rootless s) : Rootless t := by
  obtain ⟨p, l, hl, hname⟩ := hs.exists_root
  refine ⟨⟨p, l, h.loggers p l hl, hname⟩, fun q l' hl' hname' => ?_⟩
  rcases h.new q l' hl' with hold | hnone
  · exact hs.none q l' hold hname'
  · exact hnone

/-- To clear the appenders of a logger makes no difference, unless it is that of root. -/
theorem rootless_clear {s : State} {p : Nat} (hs : Rootless s) :
    Rootless (s.modify p Logger.clearAppenders) := by
  obtain ⟨q, l, hl, hname⟩ := hs.exists_root
  refine ⟨⟨q, _, loggers_modify.mpr ⟨l, hl, rfl⟩, ?_⟩, fun q' l' hl' hname' => ?_⟩
  · split
    · exact hname
    · exact hname
  · obtain ⟨l'', hl'', rfl⟩ := loggers_modify.mp hl'
    by_cases hpq : p = q'
    · rw [if_pos hpq]
      rfl
    · rw [if_neg hpq] at hname' ⊢
      exact hs.none q' l'' hl'' hname'

theorem rootless_remove {s t : State} {new : List LogConfig} {val : LogConfig} (hs : Wf s)
    (h : Rootless s) (ht : s.remove fresh new val = some t) : Rootless t := by
  unfold State.remove at ht
  split at ht
  · cases ht
    exact h
  · obtain ⟨p, hp, rfl⟩ := Option.map_eq_some_iff.mp ht
    obtain ⟨-, hgrows⟩ := getLogger_spec fresh hs val.name
    have hcleared := rootless_clear (p := p) (rootless_grows hgrows h)
    exact ⟨hcleared.exists_root, hcleared.none⟩

/-- An entry that leads to the root logger and is left out takes its appenders away. -/
theorem rootless_of_left_out {s t : State} {new : List LogConfig} {val : LogConfig} (hs : Wf s)
    (hnot : ¬ ∃ val' ∈ new, val'.name = val.name) (hroot : cstr val.name = rootName)
    (ht : s.remove fresh new val = some t) : Rootless t := by
  rw [State.remove, if_neg hnot] at ht
  obtain ⟨p, hp, rfl⟩ := Option.map_eq_some_iff.mp ht
  obtain ⟨hwf, -⟩ := getLogger_spec fresh hs val.name
  have hreg := registered_getLogger fresh s val.name
  rw [hp] at hreg
  obtain ⟨-, honly⟩ := getLogger_logger hs hp
  obtain ⟨l, hl, hname⟩ := hwf.named _ _ hreg
  refine ⟨⟨p, l.clearAppenders, loggers_modify.mpr ⟨l, hl, if_pos rfl⟩, hname.trans hroot⟩,
    fun q l' hl' hname' => ?_⟩
  obtain ⟨l'', hl'', rfl⟩ := loggers_modify.mp hl'
  by_cases hpq : p = q
  · rw [if_pos hpq]
    rfl
  · rw [if_neg hpq] at hname' ⊢
    by_contra hne
    exact hpq (honly q l'' hl'' (hname'.trans hroot.symm) hne).symm

/-- The root logger itself then has no other logger to fall back on. -/
theorem not_sound_of_rootless {s : State} (hs : Wf s) (h : Rootless s) : ¬ Sound fresh s := by
  intro hsound
  obtain ⟨p, l, hl, hname⟩ := h.exists_root
  obtain ⟨-, hfallback⟩ := hsound p l l.level hl
  obtain ⟨r, root, hr, -, hroot, hne⟩ := hfallback (Int.le_refl _) (h.none p l hl hname)
  obtain ⟨-, hgrows⟩ := getLogger_spec fresh hs rootName
  have hrootName := (getLogger_logger hs hr).1 root hroot
  exact hne ((rootless_grows hgrows h).none r root hroot hrootName)

/-- A value that does not keep the root logger leaves it without appenders. -/
theorem rootless_reload {s t : State} {new : List LogConfig} (h : Inv s)
    (hkept : ¬ RootKept s.value new) (ht : s.reload fresh new = some t) : Wf t ∧ Rootless t := by
  obtain ⟨aps, -, hroot⟩ := h.root
  obtain ⟨v, hv, rfl⟩ := Option.map_eq_some_iff.mp ht
  obtain ⟨u, hu, hv⟩ := Option.bind_eq_some_iff.mp hv
  obtain ⟨hwf, -, hroot⟩ := run_configure h.wf hroot hu
  have hstep : ∀ s' val t', Wf s' → True → s'.remove fresh new val = some t' → Wf t' :=
    fun s' val t' hs' _ ht' => (remove_spec hs' ht').1
  have hrest : ∀ (vals : List LogConfig) (s' t' : State), Wf s' ∧ Rootless s' →
      run (State.remove fresh · new) s' vals = some t' → Wf t' ∧ Rootless t' := by
    intro vals s' t' hs' ht'
    refine run_invariant (I := fun t => Wf t ∧ Rootless t) (C := fun _ _ => True)
      (fun s' val t' hs' _ ht' => ?_) vals s' t' hs'
      (stepsMeet_true vals s') ht'
    exact ⟨hstep s' val t' hs'.1 trivial ht', rootless_remove hs'.1 hs'.2 ht'⟩
  suffices hfinal : Wf v ∧ Rootless v from
    ⟨⟨hfinal.1.named, hfinal.1.kept⟩, hfinal.2.exists_root, hfinal.2.none⟩
  by_cases hold : ∀ val ∈ s.value, val.isRoot → ∃ val' ∈ new, val'.name = val.name
  · -- the last entry for root has no appender
    have hnil : rootAppenders aps new = [] := by
      unfold rootAppenders
      cases hval : (new.filter LogConfig.isRoot).getLast? with
      | none => exact absurd ⟨by simp [hval], hold⟩ hkept
      | some val =>
          refine filterMap_newAppender_eq_nil.mpr fun hap => hkept ⟨fun val' hval' => ?_, hold⟩
          rw [hval] at hval'
          cases hval'
          exact hap
    rw [hnil] at hroot
    exact hrest s.value u v ⟨hwf, rootless_of_rootHas_nil hwf hroot⟩ hv
  · push Not at hold
    obtain ⟨val, hval, hname, hout⟩ := hold
    obtain ⟨before, after, hsplit⟩ := List.append_of_mem hval
    rw [hsplit, run_append] at hv
    obtain ⟨w, hw, hv⟩ := Option.bind_eq_some_iff.mp hv
    obtain ⟨x, hx, hv⟩ := Option.bind_eq_some_iff.mp hv
    have hwfw := run_invariant (C := fun _ _ => True) hstep before u w hwf (stepsMeet_true before u) hw
    have hnot : ¬ ∃ val' ∈ new, val'.name = val.name := by
      rintro ⟨val', hval', heq⟩
      exact hout val' hval' heq
    have hx' := rootless_of_left_out hwfw hnot (of_decide_eq_true hname) hx
    exact hrest after x v ⟨hstep w val x hwfw trivial hx, hx'⟩ hv

/-- In a run whose new values keep the root logger, logging always ends; and a run that comes to its
end and in which logging always ends has no other new values. -/
theorem logging_ends (fresh : Nat → Int) (labels : List Label) :
    (StepsMeet (step fresh) Kept (init fresh) labels →
      StatesMeet (step fresh) (Sound fresh) (init fresh) labels) ∧
    ((run (step fresh) (init fresh) labels).isSome →
      StatesMeet (step fresh) (Sound fresh) (init fresh) labels →
      StepsMeet (step fresh) Kept (init fresh) labels) := by
  constructor
  · exact statesMeet_of_invariant (fun s => sound_of_inv) (fun s label t => inv_step) labels _ inv_init
  · refine stepsMeet_of_statesMeet (I := Inv) (fun s label t => inv_step) (fun s label t h hnot ht => ?_)
      labels _ inv_init
    cases label with
    | reload new =>
        obtain ⟨hwf, hrootless⟩ := rootless_reload h hnot ht
        exact not_sound_of_rootless hwf hrootless
    | getLogger name => exact absurd trivial hnot
    | log p level => exact absurd trivial hnot

/-- An entry for root without appenders. -/
def bareRoot : LogConfig := ⟨rootName, 1, ascii "%m", []⟩

/-- An entry for root that prints to the console. -/
def consoleRoot : LogConfig := ⟨rootName, 1, ascii "%m", [⟨1, 1, ascii "%m", []⟩]⟩

/-- A new value may give root no appenders, and it may leave out the root of the old value. -/
theorem root_lost :
    ¬ StatesMeet (step fun _ => 0) (Sound fun _ => 0) (init fun _ => 0) [.reload [bareRoot]] ∧
    ¬ StatesMeet (step fun _ => 0) (Sound fun _ => 0) (init fun _ => 0)
      [.reload [consoleRoot], .reload []] := by
  have hinit : Inv (init fun _ => 0) := inv_init
  constructor
  · intro h
    have hkept : ¬ RootKept [] [bareRoot] := by
      rintro ⟨hlast, -⟩
      obtain ⟨ap, hap, -⟩ := hlast _ rfl
      cases hap
    obtain ⟨hwf, hrootless⟩ := rootless_reload hinit hkept rfl
    exact not_sound_of_rootless hwf hrootless (h.2 _ rfl)
  · intro h
    have hfirst : RootKept [] [consoleRoot] := by
      refine ⟨fun val hval => ?_, by simp⟩
      cases hval
      exact ⟨_, List.mem_cons_self, Or.inl rfl⟩
    have hkept : ¬ RootKept [consoleRoot] [] := by
      rintro ⟨-, hold⟩
      obtain ⟨val, hval, -⟩ := hold _ List.mem_cons_self rfl
      cases hval
    obtain ⟨t, ht⟩ : ∃ t, step (fun _ => 0) (init fun _ => 0) (.reload [consoleRoot]) = some t := ⟨_, rfl⟩
    have hvalue : t.value = [consoleRoot] := by
      cases ht
      rfl
    obtain ⟨u, hu⟩ : ∃ u, step (fun _ => 0) t (.reload []) = some u := by
      cases ht
      exact ⟨_, rfl⟩
    obtain ⟨hwf, hrootless⟩ := rootless_reload (inv_reload hinit hfirst ht) (hvalue ▸ hkept) hu
    exact not_sound_of_rootless hwf hrootless (statesMeet_head ((h.2 t ht).2 u hu))

end Runs

end Log

end Saturn
