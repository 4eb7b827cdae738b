import Mathlib.Data.List.Forall2
import Saturn.Config.Defs
import Saturn.Log.Logger
import Saturn.Misc.KeyedSet

/-!
# The log configuration as text

`cast` reads the value of the `log` variable from the text of a document, and writes it as one. Between
the text and the nodes stands the YAML library: each entry is printed and loaded on its own, in both
directions. What is read can be written and read again, but not everything that can be written is read.
-/

namespace Saturn

namespace Log

open Http (Bytes ascii)

/-- What `cast` calls of the YAML library. -/
structure Yaml where
  /-- `YAML::Load`, which may throw. -/
  load : Bytes → Option Config.Node
  /-- `operator<<`, which also prints an undefined node. -/
  print : Option Config.Node → Bytes
  /-- `node[i]`, where the node is a map. -/
  index : List (Bytes × Config.Node) → Nat → Option Config.Node
  /-- `as<std::string>`, where the node is not a scalar. -/
  convert : Config.Node → Option Bytes

/-- The exceptions that `cast` throws: those of the library, and its own. -/
inductive CastError
  | yaml
  | logic (what : Bytes)
  deriving Repr, DecidableEq

/-- `level_str` -/
def levelStr : List Bytes :=
  [ascii "UNKNOWN", ascii "DEBUG", ascii "INFO", ascii "WARN", ascii "ERROR", ascii "FATAL"]

/-- `cast<LogLevel, std::string>` -/
def levelToString (level : Int) : Bytes := levelStr.getD level.toNat []

/-- `cast<std::string, LogLevel>` -/
def levelOfString (var : Bytes) : Int :=
  if var = ascii "DEBUG" then 1
  else if var = ascii "INFO" then 2
  else if var = ascii "WARN" then 3
  else if var = ascii "ERROR" then 4
  else if var = ascii "FATAL" then 5
  else 0

/-- `node[key]`. A node without entries becomes a map. -/
def subscript (key : Bytes) : Option Config.Node → Except CastError (Option Config.Node)
  | some (.map entries) => .ok (entries.lookup key)
  | some (.scalar _) => .error .yaml
  | _ => .ok none

/-- A new node after `push_back` of these. -/
def pushBack (nodes : List Config.Node) : Config.Node := if nodes.isEmpty then .null else .sequence nodes

namespace Yaml

variable (yaml : Yaml)

/-- `YAML::Load(str)` -/
def loadNode (text : Bytes) : Except CastError Config.Node :=
  match yaml.load text with
  | some node => .ok node
  | none => .error .yaml

/-- `node.as<std::string>()` -/
def asString : Config.Node → Except CastError Bytes
  | .scalar text => .ok text
  | node =>
    match yaml.convert node with
    | some text => .ok text
    | none => .error .yaml

/-- The nodes `node[i]` for the `i` below `node.size()`. -/
def elements : Config.Node → List (Option Config.Node)
  | .sequence items => items.map some
  | .map entries => (List.range entries.length).map (yaml.index entries)
  | _ => []

/-- The text of `node[key]`; if it is not defined, a `logic_error` is thrown. -/
def required (key what : Bytes) (node : Option Config.Node) : Except CastError Bytes :=
  (subscript key node).bind fun
    | some value => yaml.asString value
    | none => .error (.logic what)

/-- The level of a node, or `UNKNOWN`. -/
def level (node : Option Config.Node) : Except CastError Int :=
  (subscript (ascii "level") node).bind fun
    | some value => (yaml.asString value).map levelOfString
    | none => .ok 0

/-- The formatter of a node, or none. -/
def formatter (node : Option Config.Node) : Except CastError Bytes :=
  (subscript (ascii "formatter") node).bind fun
    | some value => yaml.asString value
    | none => .ok []

/-- `la_config.type` and `la_config.file` -/
def typeAndFile (ap : Option Config.Node) : Except CastError (Int × Bytes) :=
  (yaml.required (ascii "type") (ascii "appender type undefined") ap).bind fun type =>
    if type = ascii "StdoutLogAppender" then .ok (1, [])
    else if type = ascii "FileLogAppender" then
      (yaml.required (ascii "file") (ascii "file path undefined") ap).map fun file => (2, file)
    else .error (.logic (ascii "unknown log appender type"))

/-- The loop over the appenders, for one of them. -/
def appenderOfNode (ap : Option Config.Node) : Except CastError LogAppenderConfig :=
  (yaml.typeAndFile ap).bind fun r =>
    (yaml.level ap).bind fun level =>
      (yaml.formatter ap).map fun formatter => ⟨r.1, level, formatter, r.2⟩

/-- The appenders of a node, in their order. -/
def appendersOfNode (node : Option Config.Node) : Except CastError (List LogAppenderConfig) :=
  (subscript (ascii "appenders") node).bind fun
    | some aps => (yaml.elements aps).mapM yaml.appenderOfNode
    | none => .ok []

/-- `cast<std::string, LogConfig>`, on the node. -/
def configOfNode (node : Config.Node) : Except CastError LogConfig :=
  (yaml.required (ascii "name") (ascii "name undefined") (some node)).bind fun name =>
    (yaml.level (some node)).bind fun level =>
      (yaml.formatter (some node)).bind fun formatter =>
        (yaml.appendersOfNode (some node)).map fun appenders => ⟨name, level, formatter, appenders⟩

/-- `cast<std::string, LogConfig>` -/
def configOfString (text : Bytes) : Except CastError LogConfig :=
  (yaml.loadNode text).bind yaml.configOfNode

/-- `cast<std::string, To>` for a container of values: the elements, in the order of the document. -/
def valuesOfString {T : Type*} (item : Bytes → Except CastError T) (text : Bytes) :
    Except CastError (List T) :=
  (yaml.loadNode text).bind fun node => (yaml.elements node).mapM fun n => item (yaml.print n)

/-- `cast<From, std::string>` for a container of values. -/
def valuesToString {T : Type*} (item : T → Except CastError Bytes) (values : List T) :
    Except CastError Bytes :=
  (values.mapM fun value => (item value).bind yaml.loadNode).map fun nodes =>
    yaml.print (some (pushBack nodes))

end Yaml

namespace LogAppenderConfig

/-- The node that `cast` makes of it. -/
def node (ap : LogAppenderConfig) : Config.Node :=
  .map ((if ap.type = 1 then [(ascii "type", .scalar (ascii "StdoutLogAppender"))]
    else if ap.type = 2 then
      [(ascii "type", .scalar (ascii "FileLogAppender")), (ascii "file", .scalar ap.file)]
    else []) ++
    [(ascii "level", .scalar (levelToString ap.level)), (ascii "formatter", .scalar ap.formatter)])

end LogAppenderConfig

namespace LogConfig

/-- The node that `cast<LogConfig, std::string>` prints. -/
def node (var : LogConfig) : Config.Node :=
  .map ([(ascii "name", .scalar var.name), (ascii "level", .scalar (levelToString var.level)),
      (ascii "formatter", .scalar var.formatter)] ++
    if var.appenders.isEmpty then []
    else [(ascii "appenders", .sequence (var.appenders.map LogAppenderConfig.node))])

/-- `operator<` -/
def less : LogConfig → LogConfig → Bool := StdSet.byKey (fun a b => a.lex b) LogConfig.name

end LogConfig

namespace Yaml

variable (yaml : Yaml)

/-- `cast<LogConfig, std::string>` -/
def configToString (var : LogConfig) : Bytes := yaml.print (some var.node)

/-- `cast<std::string, std::set<LogConfig>>` -/
def setOfString (text : Bytes) : Except CastError (List LogConfig) :=
  (yaml.valuesOfString yaml.configOfString text).map (StdSet.ofList LogConfig.less)

/-- `cast<std::set<LogConfig>, std::string>` -/
def setToString (value : List LogConfig) : Except CastError Bytes :=
  yaml.valuesToString (fun var => .ok (yaml.configToString var)) value

/-- A node that is printed is loaded as it was. -/
def Reloads (node : Config.Node) : Prop := yaml.load (yaml.print (some node)) = some node

end Yaml

section Results

variable {ε α β : Type*}

theorem bind_eq_ok {x : Except ε α} {f : α → Except ε β} {b : β} :
    x.bind f = .ok b ↔ ∃ a, x = .ok a ∧ f a = .ok b := by
  cases x <;> simp [Except.bind]

theorem map_eq_ok {x : Except ε α} {f : α → β} {b : β} :
    x.map f = .ok b ↔ ∃ a, x = .ok a ∧ f a = b := by
  cases x <;> simp [Except.map]

/-- A loop that returns has done so for each element. -/
theorem mapM_eq_ok {f : α → Except ε β} {l : List α} {l' : List β} :
    l.mapM f = .ok l' ↔ List.Forall₂ (fun a b => f a = .ok b) l l' := by
  induction l generalizing l' with
  | nil =>
      rw [List.mapM_nil, List.forall₂_nil_left_iff]
      exact ⟨fun h => by cases h; rfl, fun h => by rw [h]; rfl⟩
  | cons a l ih =>
      rw [List.mapM_cons, List.forall₂_cons_left_iff]
      change (f a).bind (fun b => (l.mapM f).bind fun l' => .ok (b :: l')) = .ok l' ↔ _
      simp only [bind_eq_ok, Except.ok.injEq, ih]
      constructor
      · rintro ⟨b, hb, bs, hbs, rfl⟩
        exact ⟨b, bs, hb, hbs, rfl⟩
      · rintro ⟨b, bs, hb, hbs, rfl⟩
        exact ⟨b, hb, bs, hbs, rfl⟩

theorem mapM_eq_ok_self {f : α → Except ε α} {l : List α} :
    l.mapM f = .ok l ↔ ∀ a ∈ l, f a = .ok a := by
  rw [mapM_eq_ok, List.forall₂_same]

theorem mapM_congr {f g : α → Except ε β} {l : List α} (h : ∀ a ∈ l, f a = g a) :
    l.mapM f = l.mapM g := by
  induction l with
  | nil => rfl
  | cons a l ih =>
      rw [List.mapM_cons, List.mapM_cons, h a List.mem_cons_self,
        ih fun b hb => h b (List.mem_cons_of_mem _ hb)]

/-- What a loop returns comes from the elements. -/
theorem exists_of_mapM {f : α → Except ε β} {l : List α} {l' : List β} (h : l.mapM f = .ok l') {b : β}
    (hb : b ∈ l') : ∃ a ∈ l, f a = .ok b := by
  rw [mapM_eq_ok] at h
  induction h with
  | nil => exact absurd hb List.not_mem_nil
  | cons ha _ ih =>
      rcases List.mem_cons.mp hb with rfl | hb
      · exact ⟨_, List.mem_cons_self, ha⟩
      · obtain ⟨a, hmem, hok⟩ := ih hb
        exact ⟨a, List.mem_cons_of_mem _ hmem, hok⟩

end Results

/-- A level is one of the enumerators. -/
def IsLevel (level : Int) : Prop := 0 ≤ level ∧ level ≤ 5

/-- `cast` can read what it writes for the appender: the type is known, and no path is left out. -/
def LogAppenderConfig.Known (ap : LogAppenderConfig) : Prop :=
  ap.type = 2 ∨ ap.type = 1 ∧ ap.file = []

/-- The levels are what a `LogLevel` can be. -/
structure LogConfig.HasLevels (var : LogConfig) : Prop where
  level : IsLevel var.level
  appenders : ∀ ap ∈ var.appenders, IsLevel ap.level

/-- A value of the variable that `cast` can read. -/
structure Readable (value : List LogConfig) : Prop where
  sorted : StdSet.Sorted LogConfig.less value
  levels : ∀ var ∈ value, var.HasLevels
  known : ∀ var ∈ value, ∀ ap ∈ var.appenders, ap.Known

section Levels

theorem levelOfString_levelToString {level : Int} (h : IsLevel level) :
    levelOfString (levelToString level) = level := by
  obtain ⟨hlow, hhigh⟩ := h
  obtain rfl | rfl | rfl | rfl | rfl | rfl :
      level = 0 ∨ level = 1 ∨ level = 2 ∨ level = 3 ∨ level = 4 ∨ level = 5 := by omega
  all_goals decide

theorem isLevel_levelOfString (var : Bytes) : IsLevel (levelOfString var) := by
  unfold levelOfString IsLevel
  split_ifs <;> decide

end Levels

namespace Yaml

variable {yaml : Yaml}

section Nodes

theorem level_eq_ok {node : Option Config.Node} {level : Int} (h : yaml.level node = .ok level) :
    IsLevel level := by
  obtain ⟨value, -, hvalue⟩ := bind_eq_ok.mp h
  cases value with
  | none =>
      cases hvalue
      exact isLevel_levelOfString []
  | some value =>
      obtain ⟨text, -, rfl⟩ := map_eq_ok.mp hvalue
      exact isLevel_levelOfString text

theorem typeAndFile_eq_ok {ap : Option Config.Node} {r : Int × Bytes} (h : yaml.typeAndFile ap = .ok r) :
    r.1 = 2 ∨ r.1 = 1 ∧ r.2 = [] := by
  obtain ⟨type, -, htype⟩ := bind_eq_ok.mp h
  split at htype
  · cases htype
    exact Or.inr ⟨rfl, rfl⟩
  · split at htype
    · obtain ⟨file, -, rfl⟩ := map_eq_ok.mp htype
      exact Or.inl rfl
    · cases htype

/-- An appender that is read has a known type, and a level. -/
theorem appenderOfNode_eq_ok {node : Option Config.Node} {ap : LogAppenderConfig}
    (h : yaml.appenderOfNode node = .ok ap) : ap.Known ∧ IsLevel ap.level := by
  obtain ⟨r, hr, h⟩ := bind_eq_ok.mp h
  obtain ⟨level, hlevel, h⟩ := bind_eq_ok.mp h
  obtain ⟨formatter, -, rfl⟩ := map_eq_ok.mp h
  exact ⟨typeAndFile_eq_ok hr, level_eq_ok hlevel⟩

theorem configOfNode_eq_ok {node : Config.Node} {var : LogConfig} (h : yaml.configOfNode node = .ok var) :
    var.HasLevels ∧ ∀ ap ∈ var.appenders, ap.Known := by
  obtain ⟨name, -, h⟩ := bind_eq_ok.mp h
  obtain ⟨level, hlevel, h⟩ := bind_eq_ok.mp h
  obtain ⟨formatter, -, h⟩ := bind_eq_ok.mp h
  obtain ⟨aps, haps, rfl⟩ := map_eq_ok.mp h
  obtain ⟨value, -, hvalue⟩ := bind_eq_ok.mp haps
  have hall : ∀ ap ∈ aps, ap.Known ∧ IsLevel ap.level := by
    cases value with
    | none =>
        cases hvalue
        exact fun ap hap => absurd hap List.not_mem_nil
    | some value =>
        intro ap hap
        obtain ⟨n, -, hn⟩ := exists_of_mapM hvalue hap
        exact appenderOfNode_eq_ok hn
  exact ⟨⟨level_eq_ok hlevel, fun ap hap => (hall ap hap).2⟩, fun ap hap => (hall ap hap).1⟩

/-- The node of an appender, read: without a known type it is refused, and a console has no path. -/
theorem appenderOfNode_node {ap : LogAppenderConfig} (h : IsLevel ap.level) :
    yaml.appenderOfNode (some ap.node) =
      if ap.type = 1 then .ok { ap with file := [] }
      else if ap.type = 2 then .ok ap
      else .error (.logic (ascii "appender type undefined")) := by
  have hlevel := levelOfString_levelToString h
  obtain ⟨type, level, formatter, file⟩ := ap
  by_cases hout : type = 1
  · subst hout
    have hread : yaml.appenderOfNode (some (LogAppenderConfig.node ⟨1, level, formatter, file⟩)) =
        .ok ⟨1, levelOfString (levelToString level), formatter, []⟩ := rfl
    rw [hread, hlevel, if_pos rfl]
  · by_cases hfile : type = 2
    · subst hfile
      have hread : yaml.appenderOfNode (some (LogAppenderConfig.node ⟨2, level, formatter, file⟩)) =
          .ok ⟨2, levelOfString (levelToString level), formatter, file⟩ := rfl
      rw [hread, hlevel, if_neg hout, if_pos rfl]
    · have hnode : LogAppenderConfig.node ⟨type, level, formatter, file⟩ =
          .map [(ascii "level", .scalar (levelToString level)), (ascii "formatter", .scalar formatter)] := by
        simp [LogAppenderConfig.node, hout, hfile]
      rw [hnode, if_neg hout, if_neg hfile]
      rfl

theorem appenderOfNode_node_iff {ap : LogAppenderConfig} (h : IsLevel ap.level) :
    yaml.appenderOfNode (some ap.node) = .ok ap ↔ ap.Known := by
  rw [appenderOfNode_node h, LogAppenderConfig.Known]
  split_ifs with hout hfile
  · obtain ⟨type, level, formatter, file⟩ := ap
    simp_all [eq_comm]
  · simp [hfile]
  · simp [hout, hfile]

/-- The entry behind a node that is read, if there is one. -/
theorem appendersOfNode_node (var : LogConfig) :
    yaml.appendersOfNode (some var.node) =
      var.appenders.mapM fun ap => yaml.appenderOfNode (some ap.node) := by
  obtain ⟨name, level, formatter, aps⟩ := var
  cases aps with
  | nil => rfl
  | cons ap aps =>
      have hread : yaml.appendersOfNode (some (LogConfig.node ⟨name, level, formatter, ap :: aps⟩)) =
          (((ap :: aps).map LogAppenderConfig.node).map some).mapM yaml.appenderOfNode := rfl
      rw [hread, List.map_map, List.mapM_map]
      rfl

theorem configOfNode_node {var : LogConfig} (h : IsLevel var.level) :
    yaml.configOfNode var.node =
      (var.appenders.mapM fun ap => yaml.appenderOfNode (some ap.node)).map fun appenders =>
        { var with appenders } := by
  have hlevel := levelOfString_levelToString h
  obtain ⟨name, level, formatter, aps⟩ := var
  have hread : yaml.configOfNode (LogConfig.node ⟨name, level, formatter, aps⟩) =
      (yaml.appendersOfNode (some (LogConfig.node ⟨name, level, formatter, aps⟩))).map fun appenders =>
        ⟨name, levelOfString (levelToString level), formatter, appenders⟩ := rfl
  rw [hread, hlevel, appendersOfNode_node]

theorem configOfNode_node_iff {var : LogConfig} (h : var.HasLevels) :
    yaml.configOfNode var.node = .ok var ↔ ∀ ap ∈ var.appenders, ap.Known := by
  have hiff : yaml.configOfNode var.node = .ok var ↔
      (var.appenders.mapM fun ap => yaml.appenderOfNode (some ap.node)) = .ok var.appenders := by
    rw [configOfNode_node h.level, map_eq_ok]
    constructor
    · rintro ⟨aps, haps, hvar⟩
      rw [haps, ← congrArg LogConfig.appenders hvar]
    · exact fun haps => ⟨_, haps, rfl⟩
  rw [hiff, mapM_eq_ok_self]
  exact forall₂_congr fun ap hap => appenderOfNode_node_iff (h.appenders ap hap)

theorem name_of_configOfNode {var var' : LogConfig} (h : IsLevel var.level)
    (hread : yaml.configOfNode var.node = .ok var') : var'.name = var.name := by
  rw [configOfNode_node h] at hread
  obtain ⟨aps, -, rfl⟩ := map_eq_ok.mp hread
  rfl

end Nodes

section Containers

variable {T : Type*}

theorem loadNode_print {node : Config.Node} (h : yaml.Reloads node) :
    yaml.loadNode (yaml.print (some node)) = .ok node := by
  rw [loadNode, h]

theorem valuesToString_eq {item : T → Except CastError Bytes} {node : T → Config.Node} {values : List T}
    (h : ∀ v ∈ values, (item v).bind yaml.loadNode = .ok (node v)) :
    yaml.valuesToString item values = .ok (yaml.print (some (pushBack (values.map node)))) := by
  have hnodes : (values.mapM fun v => (item v).bind yaml.loadNode) = .ok (values.map node) := by
    rw [mapM_eq_ok, List.forall₂_map_right_iff, List.forall₂_same]
    exact h
  rw [valuesToString, hnodes]
  rfl

/-- The elements of a container that is printed are read one by one. -/
theorem valuesOfString_print {item : Bytes → Except CastError T} {nodes : List Config.Node}
    (h : yaml.Reloads (pushBack nodes)) :
    yaml.valuesOfString item (yaml.print (some (pushBack nodes))) =
      nodes.mapM fun n => item (yaml.print (some n)) := by
  have helements : yaml.elements (pushBack nodes) = nodes.map some := by
    cases nodes with
    | nil => rfl
    | cons => rfl
  rw [valuesOfString, loadNode_print h]
  change (yaml.elements (pushBack nodes)).mapM _ = _
  rw [helements, List.mapM_map]
  rfl

end Containers

section Sets

variable {value : List LogConfig}

theorem isOrder_lex : StdSet.IsOrder fun a b : Bytes => a.lex b where
  irrefl a := by simp [← Bool.not_eq_true]
  trans a b c hab hbc := by
    rw [List.lex_eq_true_iff_lt] at *
    exact List.lt_trans hab hbc
  total a b hab hba := by
    rw [← Bool.not_eq_true, List.lex_eq_true_iff_lt] at *
    exact List.le_antisymm hba hab

/-- A value, written and read. -/
theorem setOfString_setToString (hitems : ∀ var ∈ value, yaml.Reloads var.node)
    (hvalue : yaml.Reloads (pushBack (value.map LogConfig.node))) :
    (yaml.setToString value).bind yaml.setOfString =
      (value.mapM fun var => yaml.configOfNode var.node).map (StdSet.ofList LogConfig.less) := by
  have hstring : yaml.setToString value =
      .ok (yaml.print (some (pushBack (value.map LogConfig.node)))) :=
    valuesToString_eq fun var hvar => loadNode_print (hitems var hvar)
  have hread : (value.mapM fun var => yaml.configOfString (yaml.configToString var)) =
      value.mapM fun var => yaml.configOfNode var.node := by
    refine mapM_congr fun var hvar => ?_
    rw [configOfString, configToString, loadNode_print (hitems var hvar)]
    rfl
  rw [hstring]
  change yaml.setOfString _ = _
  rw [setOfString, valuesOfString_print hvalue, List.mapM_map]
  exact congrArg _ hread

/-- What is read could be read again. -/
theorem readable_of_setOfString {text : Bytes} (h : yaml.setOfString text = .ok value) :
    Readable value := by
  obtain ⟨vars, hvars, rfl⟩ := map_eq_ok.mp h
  obtain ⟨node, -, hvars⟩ := bind_eq_ok.mp hvars
  have hall : ∀ var ∈ StdSet.ofList LogConfig.less vars,
      var.HasLevels ∧ ∀ ap ∈ var.appenders, ap.Known := by
    intro var hvar
    obtain ⟨before, after, rfl, -⟩ := (StdSet.mem_ofList_byKey isOrder_lex).mp hvar
    obtain ⟨n, -, hn⟩ := exists_of_mapM hvars (List.mem_append_right _ List.mem_cons_self)
    obtain ⟨m, -, hm⟩ := bind_eq_ok.mp hn
    exact configOfNode_eq_ok hm
  refine ⟨?_, fun var hvar => (hall var hvar).1, fun var hvar => (hall var hvar).2⟩
  rw [LogConfig.less, StdSet.sorted_byKey, StdSet.map_ofList]
  exact StdSet.sorted_ofList isOrder_lex _

/-- A value that can be read is read as it was written. -/
theorem setOfString_of_readable (h : Readable value) (hitems : ∀ var ∈ value, yaml.Reloads var.node)
    (hvalue : yaml.Reloads (pushBack (value.map LogConfig.node))) :
    (yaml.setToString value).bind yaml.setOfString = .ok value := by
  have hall : (value.mapM fun var => yaml.configOfNode var.node) = .ok value :=
    mapM_eq_ok_self.mpr fun var hvar => (configOfNode_node_iff (h.levels var hvar)).mpr (h.known var hvar)
  rw [setOfString_setToString hitems hvalue, hall]
  exact congrArg _ (StdSet.ofList_sorted h.sorted)

/-- Entries that are read have the names under which they were written. -/
theorem names_of_mapM {vars : List LogConfig} (hlevels : ∀ var ∈ value, var.HasLevels)
    (h : (value.mapM fun var => yaml.configOfNode var.node) = .ok vars) :
    vars.map LogConfig.name = value.map LogConfig.name := by
  rw [mapM_eq_ok] at h
  induction h with
  | nil => rfl
  | cons hvar _ ih =>
      rw [List.map_cons, List.map_cons, ih fun var hvar => hlevels var (List.mem_cons_of_mem _ hvar),
        name_of_configOfNode (hlevels _ List.mem_cons_self).level hvar]

/-- A value that is written is read as it was exactly if the type of every appender is known, and no
console has a path. -/
theorem setOfString_setToString_iff (yaml : Yaml) (value : List LogConfig)
    (hset : StdSet.Sorted LogConfig.less value) (hlevels : ∀ var ∈ value, var.HasLevels)
    (hitems : ∀ var ∈ value, yaml.Reloads var.node)
    (hvalue : yaml.Reloads (pushBack (value.map LogConfig.node))) :
    (yaml.setToString value).bind yaml.setOfString = .ok value ↔
      ∀ var ∈ value, ∀ ap ∈ var.appenders, ap.Known := by
  refine ⟨fun h => ?_, fun hknown => setOfString_of_readable ⟨hset, hlevels, hknown⟩ hitems hvalue⟩
  rw [setOfString_setToString hitems hvalue] at h
  obtain ⟨vars, hvars, hlist⟩ := map_eq_ok.mp h
  -- the entries that were read have their places already, so they are the value
  have hsorted : StdSet.Sorted LogConfig.less vars := by
    rw [LogConfig.less, StdSet.sorted_byKey] at hset ⊢
    rwa [names_of_mapM hlevels hvars]
  rw [StdSet.ofList_sorted hsorted] at hlist
  subst hlist
  intro var hvar
  exact (configOfNode_node_iff (hlevels var hvar)).mp (mapM_eq_ok_self.mp hvars var hvar)

end Sets

section Store

/-- A logger with a file for its errors. -/
def store : LogConfig := ⟨ascii "store", 2, ascii "%m", [⟨2, 4, [], ascii "store.log"⟩]⟩

/-- The text of one entry. -/
def storeText : Bytes :=
  ascii "name: store\nlevel: INFO\nformatter: \"%m\"\nappenders:\n  - type: FileLogAppender\n    " ++
    ascii "file: store.log\n    level: ERROR\n    formatter: \"\""

/-- The text of a list with it. -/
def storesText : Bytes :=
  ascii "- name: store\n  level: INFO\n  formatter: \"%m\"\n  appenders:\n    - type: " ++
    ascii "FileLogAppender\n      file: store.log\n      level: ERROR\n      formatter: \"\""

/-- The library, for these nodes. -/
def storeYaml : Yaml where
  load text :=
    if text = storeText then some store.node
    else if text = storesText then some (.sequence [store.node])
    else none
  print
    | some (.map _) => storeText
    | some (.sequence _) => storesText
    | _ => ascii "~"
  index _ _ := none
  convert _ := none

theorem reloads_store : storeYaml.Reloads store.node := by
  simp [Reloads, storeYaml, LogConfig.node]

theorem reloads_stores : storeYaml.Reloads (.sequence [store.node]) := by
  have hne : storesText ≠ storeText := fun h => absurd (congrArg List.head? h) (by decide)
  simp [Reloads, storeYaml, hne]

theorem setOfString_setToString_iff_store :
    (storeYaml.setToString [store]).bind storeYaml.setOfString = .ok [store] ↔
      ∀ var ∈ [store], ∀ ap ∈ var.appenders, ap.Known := by
  refine setOfString_setToString_iff storeYaml [store] (List.pairwise_singleton _ _) ?_ ?_ reloads_stores
  · intro var hvar
    obtain rfl := List.mem_singleton.mp hvar
    refine ⟨by unfold IsLevel; decide, fun ap hap => ?_⟩
    obtain rfl := List.mem_singleton.mp hap
    unfold IsLevel
    decide
  · intro var hvar
    obtain rfl := List.mem_singleton.mp hvar
    exact reloads_store

end Store

end Yaml

end Log

end Saturn
