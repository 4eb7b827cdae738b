import Saturn.Config.Paths
import Saturn.Log.Cast
import Saturn.Log.Configured

/-!
# From a document to the loggers

`loadFromYaml` calls `fromString` of the `log` variable with the text of the node `log`. A text that
`cast` refuses leaves the value and the loggers as they are, and is complained about to the root logger.
So what the loggers write is what the last document says that was not refused, or the value that the
program itself has set since.
-/

namespace Saturn

namespace Log

open Http (Bytes ascii cstr)
open Config (iterateNodes StringView)

/-- `parseFormat` does not read beyond the end of a format of the entry. -/
def LogConfig.parses (val : LogConfig) : Bool :=
  (val.formatter :: val.appenders.map LogAppenderConfig.formatter).all fun format =>
    (parseFormat format).isOk

/-- The text that `loadFromYaml` passes on for a node. -/
def Yaml.text (yaml : Yaml) (node : Config.Node) : Bytes := node.print fun n => yaml.print (some n)

/-- The texts with which `loadFromYaml` calls `fromString` of the `log` variable. -/
def Yaml.logTexts (yaml : Yaml) (root : Config.Node) : List Bytes :=
  ((iterateNodes [] root).filter fun p =>
    decide (p.1 ≠ [] ∧ (StringView.ofString p.1).data = ascii "log")).map fun p => yaml.text p.2

namespace State

variable (yaml : Yaml) (fresh : Nat → Int)

/-- `SATURN_LOG_ERROR(LOGGER())`. An exception of `log` ends the program in `~LogEventWrapper`. -/
def complain (s : State) : Option State :=
  let r := s.getLogger fresh rootName
  r.1.bind fun root =>
    r.2.loggers[root]?.bind fun l =>
      if l.level ≤ 4 then
        let e := r.2.log fresh 3 [] root 4
        if e.1 = .returned then some e.2 else none
      else some r.2

/-- `fromString` of the `log` variable. A format that is read beyond its end leaves no state. -/
def fromString (s : State) (text : Bytes) : Option State :=
  match yaml.setOfString text with
  | .ok value => if value.all LogConfig.parses then s.reload fresh value else none
  | .error _ => s.complain fresh

end State

/-- A document is loaded, or there is a call of `setValue`, `getLogger` or `log`. -/
inductive Call
  | loadFromYaml (root : Config.Node)
  | setValue (new : List LogConfig)
  | getLogger (name : Bytes)
  | log (p : Nat) (level : Int)

/-- The step function. -/
def callStep (yaml : Yaml) (fresh : Nat → Int) (s : State) : Call → Option State
  | .loadFromYaml root => run (State.fromString yaml fresh) s (yaml.logTexts root)
  | .setValue new => if new.all LogConfig.parses then step fresh s (.reload new) else none
  | .getLogger name => step fresh s (.getLogger name)
  | .log p level => step fresh s (.log p level)

/-- The new value that a call has for the `log` variable: a document has none where it is refused. -/
def Call.value (yaml : Yaml) : Call → Option (List LogConfig)
  | .loadFromYaml root =>
      (root.at [ascii "log"]).bind fun node => (yaml.setOfString (yaml.text node)).toOption
  | .setValue new => some new
  | .getLogger _ | .log .. => none

/-- The last new value. -/
def accepted (yaml : Yaml) (value : List LogConfig) (calls : List Call) : List LogConfig :=
  calls.foldl (fun value call => (call.value yaml).getD value) value

/-- The types of the appenders are known, and consoles have no path. -/
def AppendersKnown (value : List LogConfig) : Prop := ∀ var ∈ value, ∀ ap ∈ var.appenders, ap.Known

/-- A set of entries, as the type of the variable has it: in the order of their names, with levels of
the enumeration. -/
structure Typed (value : List LogConfig) : Prop where
  sorted : StdSet.Sorted LogConfig.less value
  levels : ∀ var ∈ value, var.HasLevels

/-- The keys of a document can be told apart, and no entry has a null character in its name. -/
structure Call.Clean (yaml : Yaml) (call : Call) : Prop where
  keys : ∀ root, call = .loadFromYaml root → root.Proper
  typed : ∀ new, call = .setValue new → Typed new
  names : ∀ value, call.value yaml = some value → ∀ var ∈ value, cstr var.name = var.name

/-- A call without a new value, such as a document that is refused, changes nothing that is there. -/
def LeavesAlone (yaml : Yaml) (fresh : Nat → Int) (s : State) (call : Call) : Prop :=
  call.value yaml = none → ∀ t, callStep yaml fresh s call = some t → Grows s t

/-- Where the library reads back what it prints of a value, `cast` does so exactly if the appenders are
of the types and the files that it knows. -/
def ReadsBack (yaml : Yaml) (value : List LogConfig) : Prop :=
  (∀ var ∈ value, yaml.Reloads var.node) → yaml.Reloads (pushBack (value.map LogConfig.node)) →
    ((yaml.setToString value).bind yaml.setOfString = .ok value ↔ AppendersKnown value)

section Run

variable {yaml : Yaml} {fresh : Nat → Int} {s t : State}

/-- At most one node of a document is for the variable. -/
theorem logTexts_eq {root : Config.Node} (h : root.Proper) :
    yaml.logTexts root = ((root.at [ascii "log"]).map yaml.text).toList := by
  have hname : (ascii "log").splitOn 46 = [ascii "log"] := by decide
  have hnodes := Config.filter_iterateNodes h (ascii "log")
  have htext : (fun p : Bytes × Config.Node => yaml.text p.2) = yaml.text ∘ Prod.snd := rfl
  rw [hname] at hnodes
  rw [Yaml.logTexts, htext, ← List.map_map, hnodes]
  cases root.at [ascii "log"] <;> rfl

theorem complain_grows (hs : Wf s) (ht : s.complain fresh = some t) : Wf t ∧ Grows s t := by
  obtain ⟨root, -, ht⟩ := Option.bind_eq_some_iff.mp ht
  obtain ⟨l, -, ht⟩ := Option.bind_eq_some_iff.mp ht
  obtain ⟨hwf, hgrows⟩ := getLogger_spec fresh hs rootName
  split at ht
  · simp only [Option.ite_none_right_eq_some, Option.some.injEq] at ht
    obtain ⟨hwf', hgrows'⟩ := log_grows fresh 3 [] root 4 hwf
    exact ht.2 ▸ ⟨hwf', hgrows.trans hgrows'⟩
  · cases ht
    exact ⟨hwf, hgrows⟩

/-- What holds between two calls: the loggers are as the value says. -/
structure Documented (s : State) : Prop where
  configured : Configured s
  typed : Typed s.value

theorem Documented.grows (h : Documented s) (ht : Wf t ∧ Grows s t) : Documented t := by
  obtain ⟨hwf, hgrows⟩ := ht
  refine ⟨h.configured.grows hwf hgrows, ?_⟩
  rw [hgrows.value]
  exact h.typed

/-- No two entries of a set have one name. -/
theorem Typed.nodup {value : List LogConfig} (h : Typed value) : (value.map LogConfig.name).Nodup :=
  (StdSet.sorted_byKey.mp h.sorted).nodup Yaml.isOrder_lex

theorem documented_reload {new : List LogConfig} (h : Documented s) (htyped : Typed new)
    (hnames : ∀ var ∈ new, cstr var.name = var.name) (ht : s.reload fresh new = some t) :
    Documented t ∧ t.value = new := by
  have hconfigured := (configured_reload h.configured ⟨htyped.nodup, hnames⟩ ht).1
  obtain ⟨u, -, rfl⟩ := Option.map_eq_some_iff.mp ht
  exact ⟨⟨hconfigured, htyped⟩, rfl⟩

theorem documented_fromString {text : Bytes} (h : Documented s)
    (hnames : ∀ value, yaml.setOfString text = .ok value → ∀ var ∈ value, cstr var.name = var.name)
    (ht : s.fromString yaml fresh text = some t) :
    Documented t ∧ ((yaml.setOfString text).toOption = none → Grows s t) ∧
      ∀ value, (yaml.setOfString text).toOption = some value → t.value = value := by
  unfold State.fromString at ht
  cases htext : yaml.setOfString text with
  | error e =>
      rw [htext] at ht
      have hgrows := complain_grows h.configured.wf ht
      refine ⟨h.grows hgrows, fun _ => hgrows.2, fun value hvalue => ?_⟩
      cases hvalue
  | ok value =>
      simp only [htext, Option.ite_none_right_eq_some] at ht
      have hreadable := Yaml.readable_of_setOfString htext
      obtain ⟨hdocumented, hvalue⟩ :=
        documented_reload h ⟨hreadable.sorted, hreadable.levels⟩ (hnames value htext) ht.2
      refine ⟨hdocumented, fun hnone => ?_, fun value' hvalue' => hvalue.trans (Option.some.inj hvalue')⟩
      cases hnone

/-- What one call does: without a new value it leaves everything that is there alone. -/
theorem documented_call {call : Call} (h : Documented s) (hclean : call.Clean yaml)
    (ht : callStep yaml fresh s call = some t) :
    Documented t ∧ (call.value yaml = none → Grows s t) ∧
      ∀ value, call.value yaml = some value → t.value = value := by
  cases call with
  | loadFromYaml root =>
      rw [callStep, logTexts_eq (hclean.keys root rfl)] at ht
      have hnames := hclean.names
      simp only [Call.value] at hnames ⊢
      cases hnode : root.at [ascii "log"] with
      | none =>
          rw [hnode] at ht
          cases ht
          refine ⟨h, fun _ => .refl s, fun value hvalue => ?_⟩
          cases hvalue
      | some node =>
          simp only [hnode, Option.bind_some] at hnames ⊢
          have hrun : (s.fromString yaml fresh (yaml.text node)).bind some = some t := by
            rw [hnode] at ht
            exact ht
          rw [Option.bind_fun_some] at hrun
          exact documented_fromString h (fun value hok => hnames value (by rw [hok]; rfl)) hrun
  | setValue new =>
      simp only [callStep, step, Option.ite_none_right_eq_some] at ht
      obtain ⟨hdocumented, hvalue⟩ :=
        documented_reload h (hclean.typed new rfl) (hclean.names new rfl) ht.2
      refine ⟨hdocumented, fun hnone => ?_, fun value hvalue' => hvalue.trans (Option.some.inj hvalue')⟩
      cases hnone
  | getLogger name =>
      cases ht
      have hgrows := getLogger_spec fresh h.configured.wf name
      refine ⟨h.grows hgrows, fun _ => hgrows.2, fun value hvalue => ?_⟩
      cases hvalue
  | log p level =>
      simp only [callStep, step, Option.ite_none_right_eq_some, Option.some.injEq] at ht
      have hgrows := log_grows fresh 3 [] p level h.configured.wf
      rw [← ht.2]
      refine ⟨h.grows hgrows, fun _ => hgrows.2, fun value hvalue => ?_⟩
      cases hvalue

theorem value_call {call : Call} (h : Documented s) (hclean : call.Clean yaml)
    (ht : callStep yaml fresh s call = some t) : t.value = (call.value yaml).getD s.value := by
  obtain ⟨-, hnone, hsome⟩ := documented_call h hclean ht
  cases hvalue : call.value yaml with
  | none => exact (hnone hvalue).value
  | some value => exact hsome value hvalue

theorem documented_run : ∀ (calls : List Call) {s t : State}, Documented s →
    (∀ call ∈ calls, call.Clean yaml) → run (callStep yaml fresh) s calls = some t →
    Documented t ∧ t.value = accepted yaml s.value calls := by
  intro calls
  induction calls with
  | nil =>
      intro s t h _ ht
      cases ht
      exact ⟨h, rfl⟩
  | cons call calls ih =>
      intro s t h hclean ht
      obtain ⟨u, hu, ht⟩ := Option.bind_eq_some_iff.mp ht
      have hcall := hclean call List.mem_cons_self
      obtain ⟨hdocumented, hvalue⟩ := ih (documented_call h hcall hu).1
        (fun c hc => hclean c (List.mem_cons_of_mem _ hc)) ht
      refine ⟨hdocumented, ?_⟩
      rw [hvalue, value_call h hcall hu, accepted, accepted, List.foldl_cons]

/-- What every new value has, and the empty one, the last one has. -/
theorem accepted_induction {P : List LogConfig → Prop} : ∀ (calls : List Call) (value : List LogConfig),
    P value → (∀ call ∈ calls, ∀ new, call.value yaml = some new → P new) →
    P (accepted yaml value calls) := by
  intro calls
  induction calls with
  | nil => exact fun _ h _ => h
  | cons call calls ih =>
      intro value h hcalls
      refine ih _ ?_ fun c hc => hcalls c (List.mem_cons_of_mem _ hc)
      cases hnew : call.value yaml with
      | none =>
          simp only [hnew]
          exact h
      | some new =>
          simp only [hnew]
          exact hcalls call List.mem_cons_self new hnew

/-- What a document says has appenders that `cast` knows. -/
theorem appendersKnown_of_loadFromYaml {root : Config.Node} {value : List LogConfig}
    (h : Call.value yaml (.loadFromYaml root) = some value) : AppendersKnown value := by
  obtain ⟨node, -, hvalue⟩ := Option.bind_eq_some_iff.mp h
  cases htext : yaml.setOfString (yaml.text node) with
  | error e =>
      rw [htext] at hvalue
      cases hvalue
  | ok value' =>
      rw [htext] at hvalue
      cases hvalue
      exact (Yaml.readable_of_setOfString htext).known

/-- After any run of documents, new values, lookups and logging the loggers follow the last document
that was not refused, or the last value since. The other calls change nothing that is there, and what
`toString` writes is read back, at any rate where no call of `setValue` brings in other appenders. -/
theorem follows_documents (yaml : Yaml) (fresh : Nat → Int) (calls : List Call)
    (hclean : ∀ call ∈ calls, call.Clean yaml) (s : State)
    (hrun : run (callStep yaml fresh) (init fresh) calls = some s) :
    s.value = accepted yaml [] calls ∧ Follows fresh s ∧
      StepsMeet (callStep yaml fresh) (LeavesAlone yaml fresh) (init fresh) calls ∧
      ReadsBack yaml s.value ∧
      ((∀ new, Call.setValue new ∈ calls → AppendersKnown new) → AppendersKnown s.value) := by
  have hinit : Documented (init fresh) := by
    refine ⟨⟨inv_init.wf, ?_, ?_⟩, ⟨StdSet.sorted_nil, ?_⟩⟩
    all_goals exact fun _ hval => absurd hval List.not_mem_nil
  obtain ⟨hdocumented, hvalue⟩ := documented_run calls hinit hclean hrun
  have htyped := hdocumented.typed
  refine ⟨hvalue, follows_of_configured hdocumented.configured, ?_,
    Yaml.setOfString_setToString_iff yaml s.value htyped.sorted htyped.levels, fun hknown => ?_⟩
  · exact stepsMeet_of_invariant (I := Documented) (C := fun _ call => call.Clean yaml)
      (fun u call hu hcall hnone t ht => (documented_call hu hcall ht).2.1 hnone)
      (fun u call t hu hcall ht => (documented_call hu hcall ht).1) calls _ hinit
      (stepsMeet_of_forall_mem _ fun call hcall _ => hclean call hcall)
  · rw [hvalue]
    refine accepted_induction calls [] (fun _ hvar => absurd hvar List.not_mem_nil) ?_
    intro call hcall new hnew
    cases call with
    | loadFromYaml root => exact appendersKnown_of_loadFromYaml hnew
    | setValue new' =>
        cases hnew
        exact hknown new hcall
    | getLogger | log => cases hnew

end Run

section Store

open Yaml (store storeYaml)

/-- A document with a logger. -/
def storeDocument : Config.Node := .map [(ascii "log", .sequence [store.node])]

/-- One that is refused. -/
def refusedDocument : Config.Node := .map [(ascii "log", .scalar (ascii "store"))]

/-- Both are loaded, and then the program sets a value of its own. -/
def storeCalls : List Call :=
  [.loadFromYaml storeDocument, .log 1 4, .loadFromYaml refusedDocument, .getLogger (ascii "store"),
    .setValue [storeConfig]]

theorem storeConfig_typed : Typed [storeConfig] := by
  refine ⟨List.pairwise_singleton _ _, fun var hvar => ?_⟩
  obtain rfl := List.mem_singleton.mp hvar
  refine ⟨by unfold IsLevel; decide, fun ap hap => ?_⟩
  simp only [storeConfig, List.mem_cons, List.not_mem_nil, or_false] at hap
  rcases hap with rfl | rfl
  all_goals
    unfold IsLevel
    decide

theorem clean_loadFromYaml {node : Config.Node} (hnode : node.Proper)
    (hnames : ∀ value, Call.value storeYaml (.loadFromYaml (.map [(ascii "log", node)])) = some value →
      ∀ var ∈ value, cstr var.name = var.name) :
    Call.Clean storeYaml (.loadFromYaml (.map [(ascii "log", node)])) where
  keys root hroot := by
    cases hroot
    exact ⟨by decide, List.not_mem_nil, hnode, trivial⟩
  typed new hnew := by cases hnew
  names := hnames

theorem storeCalls_clean : ∀ call ∈ storeCalls, call.Clean storeYaml := by
  have hstore : (Call.loadFromYaml storeDocument).value storeYaml = some [store] := by decide +kernel
  have hrefused : (Call.loadFromYaml refusedDocument).value storeYaml = none := by decide +kernel
  have hother : ∀ call : Call, (∀ root, call ≠ .loadFromYaml root) → (∀ new, call ≠ .setValue new) →
      call.value storeYaml = none → call.Clean storeYaml := by
    intro call hload hset hnone
    refine ⟨fun root h => absurd h (hload root), fun new h => absurd h (hset new), fun value h => ?_⟩
    cases hnone.symm.trans h
  simp only [storeCalls, List.forall_mem_cons, List.not_mem_nil, false_imp_iff, implies_true, and_true]
  refine ⟨clean_loadFromYaml trivial fun value hvalue => ?_, hother _ nofun nofun rfl,
    clean_loadFromYaml trivial fun value hvalue => ?_, hother _ nofun nofun rfl, ?_⟩
  · obtain rfl := Option.some.inj (hstore.symm.trans hvalue)
    decide
  · cases hrefused.symm.trans hvalue
  · refine ⟨nofun, fun new hnew => ?_, fun value hvalue => ?_⟩
    · cases hnew
      exact storeConfig_typed
    · cases hvalue
      decide

theorem follows_documents_store : ∃ s : State,
    run (callStep storeYaml fun _ => 0) (init fun _ => 0) storeCalls = some s ∧
      s.value = [storeConfig] ∧ Follows (fun _ => 0) s ∧ AppendersKnown s.value := by
  have hrun : ∃ s, run (callStep storeYaml fun _ => 0) (init fun _ => 0) storeCalls = some s :=
    Option.isSome_iff_exists.mp (by decide +kernel)
  obtain ⟨s, hs⟩ := hrun
  obtain ⟨hvalue, hfollows, -, -, hknown⟩ :=
    follows_documents storeYaml (fun _ => 0) storeCalls storeCalls_clean s hs
  refine ⟨s, hs, hvalue.trans (by decide +kernel), hfollows, hknown fun new hnew => ?_⟩
  simp only [storeCalls, List.mem_cons, List.not_mem_nil, or_false, reduceCtorEq, false_or,
    Call.setValue.injEq] at hnew
  subst hnew
  unfold AppendersKnown LogAppenderConfig.Known
  decide

end Store

end Log

end Saturn
