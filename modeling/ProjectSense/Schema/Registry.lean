import ProjectSense.Schema.Builtin
import ProjectSense.Schema.Descriptor
import ProjectSense.Text.Quoted

/-!
# Registries

A registry is a list of schemas, the most specific first: what the document declares, then the
schemas of the user, then the built-in one.  Among declarations of one name the first wins, and
later ones fill its gaps.

* `merge`: all declarations, each name once.
* `Registry.items` and so on enumerate; `Registry.item?` and so on look up.
-/

namespace ProjectSense

variable {Facts : Type}

/-- adds a declaration to those merged so far, or fills the gaps of the one of its name -/
def mergeInto (merged : List (Declared Facts)) (d : Declared Facts) : List (Declared Facts) :=
  if merged.any (·.name.same d.name) then
    merged.map fun m => if m.name.same d.name then m.fill d else m
  else merged ++ [d]

/-- the declarations in order of first occurrence, each name once -/
def merge (decls : List (Declared Facts)) : List (Declared Facts) := decls.foldl mergeInto []

/-- the first declaration, its gaps filled from those after it -/
def firstFilled : List (Declared Facts) → Option (Declared Facts)
  | [] => none
  | d :: ds => some (ds.foldl Declared.fill d)

/-- why a schema or a query is refused -/
inductive SchemaError where
  | unknownValueKind (tag : String)
  | unknownConstruct (tag : String)
  /-- the grammar holds no category of this kind -/
  | notAbstract (construct : Construct)
  /-- the text is no JSON, or not the JSON of a schema -/
  | json (reason : String)
  | io (reason : String)
deriving DecidableEq, Repr

namespace SchemaError

/-- what is said about the error -/
def message : SchemaError → String
  | unknownValueKind tag => "Unknown value kind: " ++ tag
  | unknownConstruct tag => "Unknown syntax kind: " ++ tag
  | notAbstract construct => "Syntax kind " ++ construct.name ++ " has no abstract enumeration"
  | json reason => "JSON error: " ++ reason
  | io reason => "IO error: " ++ reason

end SchemaError

structure Registry where
  sources : List Schema
  /-- nothing is enumerated any more -/
  cancelled : Bool
deriving DecidableEq, Repr, Inhabited

namespace Registry

def ofSources (sources : List Schema) : Registry := ⟨sources, false⟩

/-- the names of the sources, in quotes -/
def text (r : Registry) : String :=
  "[" ++ ", ".intercalate (r.sources.map fun s => quoted s.name) ++ "]"

/-- the sources that enumerations use -/
def live (r : Registry) : List Schema := if r.cancelled then [] else r.sources

def items (r : Registry) : List ItemDecl := merge (r.live.flatMap (·.items))

/-- all properties, the reserved ones only if asked for -/
def properties (r : Registry) (reserved : Bool) : List PropertyDecl :=
  (merge (r.live.flatMap (·.properties))).filter fun p => reserved || !p.facts.reserved

/-- the metadata declared for an item -/
def declaredMetadata (r : Registry) (item : String) : List MetadataDecl :=
  merge (r.live.flatMap (·.metadataOf item))

/-- the metadata of an item, with the well-known that it does not declare itself if asked for -/
def metadata (r : Registry) (item : String) (wellKnown : Bool) : List MetadataDecl :=
  let own := r.declaredMetadata item
  if wellKnown then own ++ wellKnownMetadata.filter fun m => !own.any (·.name.same m.name)
  else own

def tasks (r : Registry) : List TaskDecl := merge (r.live.flatMap (·.tasks))

def parameters (r : Registry) (task : String) : List ParameterDecl :=
  merge (r.live.flatMap (·.parametersOf task))

def targets (r : Registry) : List TargetDecl := merge (r.live.flatMap (·.targets))

def configurations (r : Registry) : List String :=
  distinctNames (r.live.flatMap (·.configurations))

def platforms (r : Registry) : List String := distinctNames (r.live.flatMap (·.platforms))

/-- the most specific declaration among one of each source, completed from the others -/
def find? (r : Registry) (decls : Schema → List (Declared Facts)) (name : String) :
    Option (Declared Facts) := firstFilled (r.sources.filterMap fun s => lookUp name (decls s))

def item? (r : Registry) (name : String) : Option ItemDecl := r.find? (·.items) name

def property? (r : Registry) (name : String) : Option PropertyDecl := r.find? (·.properties) name

/-- metadata of the item, else well-known metadata -/
def metadata? (r : Registry) (item name : String) : Option MetadataDecl :=
  firstFilled ((r.sources.filterMap fun s => lookUp name (s.metadataOf item)) ++
    (wellKnownMetadata? name).toList)

def task? (r : Registry) (name : String) : Option TaskDecl := r.find? (·.tasks) name

def parameter? (r : Registry) (task name : String) : Option ParameterDecl :=
  r.find? (·.parametersOf task) name

def target? (r : Registry) (name : String) : Option TargetDecl := r.find? (·.targets) name

/-- what stands for a category of the grammar; `element` is the item when metadata is asked for -/
def category (r : Registry) (construct : Construct) (element : String) :
    Except SchemaError (List Descriptor) :=
  match construct with
  | .item | .itemDefinition => .ok (r.items.map .item)
  | .task => .ok (r.tasks.map .task)
  | .property => .ok ((r.properties false).map .property)
  | .metadata => .ok ((r.metadata element false).map .metadata)
  -- the author of an inline task names its parameters
  | .parameter => .ok []
  | other => .error (.notAbstract other)

end Registry
end ProjectSense
