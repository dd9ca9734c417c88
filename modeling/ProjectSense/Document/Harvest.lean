import ProjectSense.Document.ToolsVersion
import ProjectSense.Framework.Basic
import ProjectSense.Markup.Tree
import ProjectSense.Path.Template
import ProjectSense.Schema.Basic
import ProjectSense.Schema.Grammar

/-!
# What a document declares

A walk over the elements that the grammar knows records the properties, items, metadata, tasks,
parameters and targets of a document, and the values that its properties take.

* `Harvest.ofTree`: everything that a tree declares.
* `Harvest.schema`: the same as a schema.
-/

namespace ProjectSense

/-- what has been recorded so far; names keep their first spelling and their order -/
structure Harvest where
  items : NameMap ItemDecl
  properties : NameMap PropertyDecl
  metadata : NameMap (NameMap MetadataDecl)
  tasks : NameMap TaskDecl
  parameters : NameMap (NameMap ParameterDecl)
  targets : NameMap TargetDecl
  /-- the literal values seen for each property -/
  values : Values
  /-- those that the document offers on purpose: a property's own text may still be being typed -/
  declared : Values
  version : Option ToolsVersion
  /-- the project imports an SDK -/
  sdkStyle : Bool
deriving Repr, Inhabited

/-- text without references, and some of it -/
def isLiteral (value : String) : Bool :=
  !value.isEmpty && !value.toList.any fun c => c == '$' || c == '@' || c == '%'

namespace Condition

/-- the quoted text at the end -/
def lastQuoted? (cs : List Char) : Option (List Char) :=
  match (Text.trimEnd cs).reverse with
  | '\'' :: before => if before.contains '\'' then
      some (before.takeWhile (· ≠ '\'')).reverse else none
  | _ => none

/-- the quoted text in front -/
def firstQuoted? (cs : List Char) : Option (List Char) :=
  match Text.trimStart cs with
  | '\'' :: after => if after.contains '\'' then some (after.takeWhile (· ≠ '\'')) else none
  | _ => none

/-- the name in `$(name)` -/
def property? (cs : List Char) : Option String :=
  match Text.trim cs with
  | '$' :: '(' :: rest =>
    if rest.getLast? = some ')' then some (String.ofList (Text.trim rest.dropLast)) else none
  | _ => none

/-- the comparisons of properties with values in `'$(A)|$(B)' == 'x|y'` -/
def pairsOf (left right : List Char) : List (String × String) :=
  let names := Text.splitOn (· == '|') left
  let values := Text.splitOn (· == '|') right
  if names.length = values.length then
    (names.zip values).filterMap fun (name, value) =>
      (property? name).map fun p => (p, String.ofList (Text.trim value))
  else []

/-- the pairs of property and value that a condition compares -/
def comparisons (cs : List Char) : List (String × String) :=
  match h : Text.breakOn ['=', '='] cs with
  | (left, some rest) =>
    have := Text.length_breakOn_lt (List.cons_ne_nil _ _) h
    (match lastQuoted? left, firstQuoted? rest with
      | some l, some r => pairsOf l r
      | _, _ => []) ++ comparisons rest
  | (_, none) => []
termination_by cs.length

end Condition

namespace Harvest

def empty : Harvest := ⟨.empty, .empty, .empty, .empty, .empty, .empty, .empty, .empty, none, false⟩

/-- the map with the value recorded under the name -/
def record (vs : Values) (name value : String) : Values :=
  vs.upsert ⟨name⟩ [value] fun values => addName values value

/-- records a value that a property takes, unless it is no literal -/
def addValue (h : Harvest) (name value : String) : Harvest :=
  if isLiteral value && !name.isEmpty then { h with values := record h.values name value } else h

/-- records a value that the document offers for a property -/
def declare (h : Harvest) (name value : String) : Harvest :=
  if isLiteral value && !name.isEmpty then
    { h with declared := record h.declared name value }.addValue name value
  else h

/-- properties whose `;`-separated values are offered for another -/
def plurals : List (String × String) :=
  [("Configurations", "Configuration"), ("Platforms", "Platform"),
    ("TargetFrameworks", "TargetFramework")]

/-- offers the values in the text of a plural property -/
def declarePlural (h : Harvest) (name value : String) : Harvest :=
  match plurals.find? fun row => sameName row.1 name with
  | some (_, singular) =>
    if isLiteral value then
      (Text.splitOn (· == ';') value.toList).foldl
        (fun h part => h.declare singular (String.ofList (Text.trim part))) h
    else h
  | none => h

/-- the property with the text as its default, if it has none and the text is literal -/
def withDefault (value : String) (d : PropertyDecl) : PropertyDecl :=
  if d.facts.default.isNone && isLiteral value then
    { d with facts := { d.facts with default := some value } }
  else d

def addProperty (h : Harvest) (name value : String) : Harvest :=
  let fresh := withDefault value (.property name "" .document)
  let h := { h with properties := h.properties.upsert ⟨name⟩ fresh (withDefault value) }
  (h.declarePlural name value).addValue name value

def addItem (h : Harvest) (name : String) : Harvest :=
  { h with items := h.items.insertIfNew ⟨name⟩ (.item name "" .document) }

def addMetadata (h : Harvest) (item name : String) : Harvest :=
  let add (m : NameMap MetadataDecl) := m.insertIfNew ⟨name⟩ (.metadata item name "" .document)
  { h with metadata := h.metadata.upsert ⟨item⟩ (add .empty) add }

def addTarget (h : Harvest) (name : String) : Harvest :=
  let name := trimmed name
  if name.isEmpty then h
  else { h with targets := h.targets.insertIfNew ⟨name⟩ (.target name "" .document) }

def addTask (h : Harvest) (name : String) : Harvest :=
  { h with tasks := h.tasks.insertIfNew ⟨name⟩ (.task name "" .document) }

/-- changes the parameters of a task -/
def changeParameters (h : Harvest) (task : String)
    (change : NameMap ParameterDecl → NameMap ParameterDecl) : Harvest :=
  { h with parameters := h.parameters.upsert ⟨task⟩ (change .empty) change }

/-- records a parameter that an invocation uses; once an output, it stays one -/
def addParameter (h : Harvest) (task name : String) (output : Bool) : Harvest :=
  if name.isEmpty then h
  else
    let mark (d : ParameterDecl) : ParameterDecl :=
      { d with facts := { d.facts with output := d.facts.output || output } }
    h.changeParameters task fun m =>
      m.upsert ⟨name⟩ (mark (.parameter task name "" .document)) mark

/-- records the values that a condition compares with -/
def addCondition (h : Harvest) (condition : String) : Harvest :=
  (Condition.comparisons condition.toList).foldl (fun h (name, value) => h.declare name value) h

/-- the task's name without what qualifies it -/
def shortTaskName (name : String) : String :=
  String.ofList (Text.trim (Text.afterLast (· == '.') name.toList))

/-- the attribute says `true` -/
def flag (e : Element) (name : String) : Bool :=
  (e.value? name).any fun v => sameName (trimmed v) "true"

/-- records a declared parameter of an inline task -/
def declareParameter (h : Harvest) (task : String) (e : Element) : Harvest :=
  let facts : ParameterFacts := ⟨⟨task⟩, flag e "Output", flag e "Required"⟩
  h.changeParameters task fun m => m.insert ⟨e.name⟩ ⟨⟨e.name⟩, "", .unknown, .document, facts⟩

/-- the elements under a node -/
def elementsUnder (t : Tree) (id : Nat) : List (Nat × Element) :=
  (t.children id).filterMap fun c => (t.element? c).map fun e => (c, e)

/-- records a task and the parameters that its registration declares -/
def addUsingTask (h : Harvest) (t : Tree) (id : Nat) (e : Element) : Harvest :=
  match e.value? "TaskName" with
  | none => h
  | some qualified =>
    let task := shortTaskName qualified
    if task.isEmpty then h
    else
      let groups := (elementsUnder t id).filter fun g => g.2.isNamed "ParameterGroup"
      let declared := groups.flatMap fun g => (elementsUnder t g.1).map (·.2)
      declared.foldl (fun h p => h.declareParameter task p) (h.addTask task)

/-- the names of the attributes that stand for the open category of the rule -/
def openAttributes (rule : ElementRule) (e : Element) : List String :=
  (e.attributes.toList.map (·.name)).filter fun name => (rule.attr? name).any (·.isAbstract)

/-- records a task that is invoked, with the parameters that it is given and those it gives -/
def addInvocation (h : Harvest) (t : Tree) (id : Nat) (rule : ElementRule) (e : Element) :
    Harvest :=
  let h := (openAttributes rule e).foldl (fun h name => h.addParameter e.name name false)
    (h.addTask e.name)
  let outputs := ((elementsUnder t id).filter fun o => o.2.isNamed "Output").filterMap fun o =>
    o.2.value? "TaskParameter"
  outputs.foldl (fun h name => h.addParameter e.name (trimmed name) true) h

/-- the text of an element, its entities decoded -/
def textOf (t : Tree) (id : Nat) : String :=
  trimmed (String.join ((t.children id).filterMap fun c => (t.text? c).map decodeEntities))

/-- records what one element says -/
def addElement (h : Harvest) (t : Tree) (id : Nat) (rule : ElementRule) (e : Element) : Harvest :=
  match rule.construct with
  | .project =>
    { h with
      version := ((e.value? "ToolsVersion").map ToolsVersion.parse).or h.version
      sdkStyle := h.sdkStyle || (e.value? "Sdk").any fun sdk => !(trimmed sdk).isEmpty }
  | .sdk => { h with sdkStyle := true }
  | .property => h.addProperty e.name (textOf t id)
  | .item | .itemDefinition =>
    (openAttributes rule e).foldl (fun h name => h.addMetadata e.name name) (h.addItem e.name)
  | .metadata =>
    match t.parentName? id with
    | some item => h.addMetadata item e.name
    | none => h
  | .target =>
    match e.value? "Name" with
    | some name => h.addTarget name
    | none => h
  | .usingTask => h.addUsingTask t id e
  | .task => h.addInvocation t id rule e
  | _ => h

/-- the elements from `id` on that the grammar knows, with their rules, in document order -/
def ruled (t : Tree) (id : Nat) (rule : ElementRule) : List (Nat × ElementRule) :=
  (id, rule) :: (t.children id).flatMap fun child =>
    if _h : id < child ∧ child < t.nodes.size then
      match t.elementName? child >>= rule.child? with
      | some childRule => ruled t child childRule
      | none => []
    else []
termination_by t.nodes.size - id

/-- records an element: its condition, then what it says -/
def visit (t : Tree) (h : Harvest) (entry : Nat × ElementRule) : Harvest :=
  match t.element? entry.1 with
  | none => h
  | some e =>
    let h := match e.value? "Condition" with
      | some condition => h.addCondition condition
      | none => h
    h.addElement t entry.1 entry.2 e

/-- the root of a project, and nothing else -/
def projectRoot? (t : Tree) : Option Nat :=
  t.rootElement?.filter fun root => (t.element? root).any (·.isNamed "Project")

/-- everything that the elements of a tree declare -/
def ofTree (t : Tree) : Harvest :=
  match projectRoot? t with
  | some root => (ruled t root Grammar.project).foldl (visit t) empty
  | none => empty

/-- the frameworks that the document targets -/
def frameworks (h : Harvest) : List Framework :=
  (h.values.valuesOf "TargetFramework").filterMap Framework.parse?

/-- the tools version asked for; projects with an SDK need at least version 15 -/
def toolsVersion (h : Harvest) : ToolsVersion :=
  h.version.getD (if h.sdkStyle then .v15 else .unknown)

/-- the declarations as a schema -/
def schema (h : Harvest) : Schema where
  name := "document"
  items := h.items.values
  properties := h.properties.values
  metadata := h.metadata.map NameMap.values
  tasks := h.tasks.values
  parameters := h.parameters.map NameMap.values
  targets := h.targets.values
  configurations := h.declared.valuesOf "Configuration"
  platforms := h.declared.valuesOf "Platform"

end Harvest
end ProjectSense
