import ProjectSense.Json.Reader
import ProjectSense.Schema.Registry

/-!
# Schema files

A schema file is JSON: properties, items with their metadata, tasks with their parameters, targets,
configurations and platforms.  Every field may be left out.  A record is an object, whose unknown
fields are ignored, or an array of its fields in order.

* `SchemaFile.parse?`: what a file says.
* `Schema.ofFile`, `Schema.parse`: the schema of a file.
-/

namespace ProjectSense

/-- what a file says of one name -/
inductive Entry where
  | mk (description : String) (kind : Option String) (reserved output required : Bool)
    (metadata parameters : List (String × Entry))
deriving Repr

namespace Entry

def description : Entry → String | mk d _ _ _ _ _ _ => d
def kind : Entry → Option String | mk _ k _ _ _ _ _ => k
def reserved : Entry → Bool | mk _ _ r _ _ _ _ => r
def output : Entry → Bool | mk _ _ _ o _ _ _ => o
def required : Entry → Bool | mk _ _ _ _ r _ _ => r
def metadata : Entry → List (String × Entry) | mk _ _ _ _ _ m _ => m
def parameters : Entry → List (String × Entry) | mk _ _ _ _ _ _ p => p

end Entry

structure SchemaFile where
  properties : List (String × Entry)
  items : List (String × Entry)
  tasks : List (String × Entry)
  targets : List (String × Entry)
  configurations : List String
  platforms : List String
deriving Repr

namespace Json

/-- the fields of a record, by name; unknown ones are left out, and none may be given twice -/
def fields? (names : List String) : Json → Option (List (String × Json))
  | object members =>
    let keys := members.map (·.1)
    if keys.all (·.isSome) && names.all fun n => keys.count (some n) ≤ 1 then
      some (members.filterMap fun (key, v) =>
        key.bind fun k => if names.contains k then some (k, v) else none)
    else none
  | array entries => if entries.length ≤ names.length then some (names.zip entries) else none
  | _ => none

/-- the field, decoded; a field that is left out has its default -/
def field? {α : Type} (fields : List (String × Json)) (name : String) (dflt : α)
    (decode : Json → Option α) : Option α :=
  match fields.lookup name with
  | some v => decode v
  | none => some dflt

def asText? : Json → Option String
  | string text => text
  | _ => none

def asBool? : Json → Option Bool
  | bool b => some b
  | _ => none

/-- a text, or nothing -/
def asTextOrNull? : Json → Option (Option String)
  | null => some none
  | string (some text) => some (some text)
  | _ => none

def asTexts? : Json → Option (List String)
  | array entries => entries.mapM asText?
  | _ => none

/-- the list with the value put under the key; a key keeps its place -/
def putKey {α : Type} (pairs : List (String × α)) (key : String) (value : α) :
    List (String × α) :=
  if pairs.any (·.1 = key) then pairs.map fun p => if p.1 = key then (key, value) else p
  else pairs ++ [(key, value)]

/-- an object as values by key, the last of a key counting -/
def asMap? {α : Type} (decode : Json → Option α) : Json → Option (List (String × α))
  | object members => do
    let pairs ← members.mapM fun (key, v) => do pure (← key, ← decode v)
    pure (pairs.foldl (fun acc p => putKey acc p.1 p.2) [])
  | _ => none

end Json

namespace Entry

open Json in
/-- the entry that a value writes, at most so many levels deep -/
def ofJson? : Nat → Json → Option Entry
  | _, .string text => text.map fun d => mk d none false false false [] []
  | 0, _ => none
  | levels + 1, v => do
    let fields ← fields?
      ["description", "kind", "reserved", "output", "required", "metadata", "parameters"] v
    pure <| mk (← field? fields "description" "" asText?)
      (← field? fields "kind" none asTextOrNull?)
      (← field? fields "reserved" false asBool?) (← field? fields "output" false asBool?)
      (← field? fields "required" false asBool?)
      (← field? fields "metadata" [] (asMap? (ofJson? levels)))
      (← field? fields "parameters" [] (asMap? (ofJson? levels)))

end Entry

namespace SchemaFile

/-- so many containers may stand in one another -/
def maxDepth : Nat := 127

open Json in
/-- the file that a value writes -/
def ofJson? (v : Json) : Option SchemaFile := do
  let fields ← fields?
    ["properties", "items", "tasks", "targets", "configurations", "platforms"] v
  if fields.all fun f => f.2.sound && f.2.depth < maxDepth then
    let entries := asMap? (Entry.ofJson? maxDepth)
    pure ⟨← field? fields "properties" [] entries, ← field? fields "items" [] entries,
      ← field? fields "tasks" [] entries, ← field? fields "targets" [] entries,
      ← field? fields "configurations" [] asTexts?, ← field? fields "platforms" [] asTexts?⟩
  else none

/-- the file that a text writes -/
def parse? (text : String) : Option SchemaFile := Json.parse? text >>= ofJson?

end SchemaFile

/-- the kind that a tag names, or else the kind given -/
def kindOr (dflt : ValueKind) : Option String → Except SchemaError ValueKind
  | none => .ok dflt
  | some tag =>
    match ValueKind.parse? tag with
    | some kind => .ok kind
    | none => .error (.unknownValueKind tag)

namespace Schema

/-- the declaration with the kind of the entry, if it has one -/
def typed {Facts : Type} (d : Declared Facts) (entry : Entry) :
    Except SchemaError (Declared Facts) := do
  pure (d.withKind (← kindOr d.kind entry.kind))

def fileProperty (source : Provenance) : String × Entry → Except SchemaError PropertyDecl
  | (name, e) => typed ⟨⟨name⟩, e.description, .unknown, source, ⟨e.reserved, none⟩⟩ e

def fileMetadata (source : Provenance) (item : String) :
    String × Entry → Except SchemaError MetadataDecl
  | (name, e) => typed (.metadata item name e.description source) e

/-- an item with its metadata -/
def fileItem (source : Provenance) :
    String × Entry → Except SchemaError (ItemDecl × List MetadataDecl)
  | (name, e) => do
    let item ← typed (.item name e.description source) e
    pure (item, ← e.metadata.mapM (fileMetadata source name))

def fileParameter (source : Provenance) (task : String) :
    String × Entry → Except SchemaError ParameterDecl
  | (name, e) =>
    typed ⟨⟨name⟩, e.description, .unknown, source, ⟨⟨task⟩, e.output, e.required⟩⟩ e

/-- a task with its parameters -/
def fileTask (source : Provenance) :
    String × Entry → Except SchemaError (TaskDecl × List ParameterDecl)
  | (name, e) => do
    pure (.task name e.description source, ← e.parameters.mapM (fileParameter source name))

/-- the schema of a file, under a name -/
def ofFile (name : String) (file : SchemaFile) : Except SchemaError Schema := do
  let source := Provenance.schema name
  let properties ← file.properties.mapM (fileProperty source)
  let items ← file.items.mapM (fileItem source)
  let tasks ← file.tasks.mapM (fileTask source)
  pure {
    name := name
    properties := properties
    items := items.map (·.1)
    metadata := .ofList (items.map fun (item, metadata) => (item.name, metadata))
    tasks := tasks.map (·.1)
    parameters := .ofList (tasks.map fun (task, parameters) => (task.name, parameters))
    targets := file.targets.map fun (name, e) => .target name e.description source
    configurations := file.configurations
    platforms := file.platforms }

/-- the schema that a text writes, under a name -/
def parse (name text : String) : Except SchemaError Schema :=
  match SchemaFile.parse? text with
  | some file => ofFile name file
  | none => .error (.json "malformed schema")

end Schema
end ProjectSense
