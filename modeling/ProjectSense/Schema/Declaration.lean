import ProjectSense.Schema.ValueKind
import ProjectSense.Text.NameMap

/-!
# Declarations

What schemas and documents declare: items, properties, metadata, tasks, their parameters, and
targets.  All have a name, a description, the kind of their values and where they come from; facts
of their own come on top.

* `Declared.fill`: a declaration completed from a less specific one of the same name.
* `Declared.fill_name`, `Declared.fill_facts`: completing changes neither name nor facts.
-/

namespace ProjectSense

/-- where a declaration comes from -/
inductive Provenance where
  | builtin
  | schema (name : String)
  | document
deriving DecidableEq, Repr, Inhabited

/-- a declaration with facts of its own -/
structure Declared (Facts : Type) where
  name : Name
  description : String
  kind : ValueKind
  provenance : Provenance
  facts : Facts
deriving DecidableEq, Repr, Inhabited

structure PropertyFacts where
  /-- set by the build itself, not assignable in a project -/
  reserved : Bool
  default : Option String
deriving DecidableEq, Repr, Inhabited

structure MetadataFacts where
  /-- the item that has it; well-known metadata is of every item -/
  item : Option Name
  /-- computed for every item -/
  wellKnown : Bool
deriving DecidableEq, Repr, Inhabited

structure ParameterFacts where
  task : Name
  output : Bool
  required : Bool
deriving DecidableEq, Repr, Inhabited

/-- an item type; the kind is that of the values it includes -/
abbrev ItemDecl := Declared Unit
abbrev PropertyDecl := Declared PropertyFacts
abbrev MetadataDecl := Declared MetadataFacts
abbrev TaskDecl := Declared Unit
abbrev ParameterDecl := Declared ParameterFacts
abbrev TargetDecl := Declared Unit

namespace Declared

variable {Facts : Type}

def item (name description : String) (provenance : Provenance) : ItemDecl :=
  ⟨⟨name⟩, description, BaseKind.unknownItem.many, provenance, ()⟩

def property (name description : String) (provenance : Provenance) : PropertyDecl :=
  ⟨⟨name⟩, description, .unknown, provenance, ⟨false, none⟩⟩

def metadata (item name description : String) (provenance : Provenance) : MetadataDecl :=
  ⟨⟨name⟩, description, .unknown, provenance, ⟨some ⟨item⟩, false⟩⟩

/-- a task, which has no value -/
def task (name description : String) (provenance : Provenance) : TaskDecl :=
  ⟨⟨name⟩, description, BaseKind.nothing.one, provenance, ()⟩

def parameter (task name description : String) (provenance : Provenance) : ParameterDecl :=
  ⟨⟨name⟩, description, .unknown, provenance, ⟨⟨task⟩, false, false⟩⟩

/-- a target, which has no value -/
def target (name description : String) (provenance : Provenance) : TargetDecl :=
  ⟨⟨name⟩, description, BaseKind.nothing.one, provenance, ()⟩

def withKind (d : Declared Facts) (kind : ValueKind) : Declared Facts := { d with kind := kind }

/-- the declaration with its gaps filled from a less specific one: an empty description, a kind
that says nothing -/
def fill (d other : Declared Facts) : Declared Facts :=
  { d with
    description := if d.description.isEmpty then other.description else d.description
    kind := if d.kind.isOpen then other.kind else d.kind }

@[simp] theorem fill_name (d other : Declared Facts) : (d.fill other).name = d.name := rfl

@[simp] theorem fill_facts (d other : Declared Facts) : (d.fill other).facts = d.facts := rfl

@[simp] theorem fill_provenance (d other : Declared Facts) :
    (d.fill other).provenance = d.provenance := rfl

end Declared
end ProjectSense
