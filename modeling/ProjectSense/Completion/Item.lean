import ProjectSense.Schema.Descriptor
import ProjectSense.Document.ToolsVersion
import ProjectSense.Framework.Guess

/-!
# Completion items

How candidates are presented: label, kind, detail, documentation, and a priority by which they are
sorted.  What the document declares comes before what schemas declare, and that before the
built-in; of labels that differ in case only, the first stays.

* `CompletionItem.present`: the final list of candidates.
-/

namespace ProjectSense

structure CompletionConfig where
  policy : GuessPolicy := {}
  /-- path completions end with the parent directory -/
  parentFolder : Bool := true
  /-- from this version on, item metadata may be written as attributes -/
  metadataSince : ToolsVersion := .v15
deriving DecidableEq, Repr, Inhabited

inductive CompletionKind where
  | element
  | attr
  | item
  | property
  | metadata
  | task
  | parameter
  | target
  | value
  | framework
  | file
  | folder
  | function
  | klass
deriving DecidableEq, Repr

namespace CompletionKind

def of : Descriptor → CompletionKind
  | .element _ => element
  | .attr _ _ => attr
  | .item _ => item
  | .property _ => property
  | .metadata _ => metadata
  | .task _ => task
  | .parameter _ => parameter
  | .target _ => target
  | .constant _ => value
  | .framework _ => framework
  | .file entry => if entry.isFolder then folder else file
  | .function _ => function
  | .klass _ => klass

def name : CompletionKind → String
  | element => "Element"
  | attr => "Attribute"
  | item => "Item"
  | property => "Property"
  | metadata => "Metadata"
  | task => "Task"
  | parameter => "TaskParameter"
  | target => "Target"
  | value => "Value"
  | framework => "Framework"
  | file => "File"
  | folder => "Folder"
  | function => "Function"
  | klass => "Class"

/-- the number of the kind in the Language Server Protocol -/
def protocolNumber : CompletionKind → Nat
  | element => 14
  | attr => 10
  | item => 7
  | property => 6
  | metadata => 5
  | task => 2
  | parameter => 25
  | target => 23
  | value => 12
  | framework => 9
  | file => 17
  | folder => 19
  | function => 3
  | klass => 22

end CompletionKind

structure CompletionItem where
  label : String
  kind : CompletionKind
  detail : Option String
  documentation : Option String
  /-- lower comes first -/
  priority : Nat
deriving DecidableEq, Repr

namespace CompletionItem

/-- the kind of the value, where it is worth showing -/
def detailOf (d : Descriptor) : Option String :=
  match d with
  | .element _ | .constant _ | .file _ => none
  | d => if d.kind.isUnknown || d.kind.base = .nothing then none else some d.kind.text

/-- folders come first, and the parent directory last -/
def priorityOf : Descriptor → Nat
  | .file entry => if !entry.isFolder then 20 else if entry.name = ".." then 90 else 10
  | d =>
    match d.provenance with
    | .document => 20
    | .schema _ => 50
    | .builtin => 100

def ofDescriptor (d : Descriptor) : CompletionItem :=
  ⟨d.name, .of d, detailOf d, if d.description.isEmpty then none else some d.description,
    priorityOf d⟩

/-- the items without those whose label stood before in some case -/
def distinct : List CompletionItem → List CompletionItem
  | [] => []
  | i :: is => i :: (distinct is).filter fun j => !sameName i.label j.label

/-- the candidates sorted by priority, each label once -/
def present (candidates : List Descriptor) : List CompletionItem :=
  distinct ((candidates.map ofDescriptor).mergeSort fun i j => i.priority ≤ j.priority)

end CompletionItem
end ProjectSense
