import ProjectSense.Schema.Basic
import ProjectSense.Schema.Grammar
import ProjectSense.Schema.Functions
import ProjectSense.Framework.Basic

/-!
# Descriptors

Everything that a completion can offer or a look-up can find, with its name, its description and
the kind of its value.

* `Descriptor.inferredKind`: the kind, guessed from the name when none is declared.
* `simpleValues?`, `knownValue?`: the values of enumerable kinds.
-/

namespace ProjectSense

/-- a value of an enumerable kind -/
structure Constant where
  name : String
  description : String
deriving DecidableEq, Repr, Inhabited

/-- an entry of a directory; the description of a listed one is its path -/
structure FileEntry where
  name : String
  isFolder : Bool
  description : String
deriving DecidableEq, Repr, Inhabited

inductive Descriptor where
  | element (rule : ElementRule)
  /-- an attribute, whose values may be of a kind of their own on some element -/
  | attr (rule : AttributeRule) (kind : ValueKind)
  | item (decl : ItemDecl)
  | property (decl : PropertyDecl)
  | metadata (decl : MetadataDecl)
  | task (decl : TaskDecl)
  | parameter (decl : ParameterDecl)
  | target (decl : TargetDecl)
  | constant (value : Constant)
  | framework (named : NamedFramework)
  | file (entry : FileEntry)
  | function (decl : FunctionDecl)
  | klass (decl : ClassDecl)
deriving DecidableEq, Repr

namespace Descriptor

def name : Descriptor → String
  | element rule => rule.name
  | attr rule _ => rule.name
  | item d => d.name.spelling
  | property d => d.name.spelling
  | metadata d => d.name.spelling
  | task d => d.name.spelling
  | parameter d => d.name.spelling
  | target d => d.name.spelling
  | constant c => c.name
  | framework f => f.name
  | file f => f.name
  | function f => f.name
  | klass c => c.name

def description : Descriptor → String
  | element rule => rule.description
  | attr rule _ => rule.description
  | item d => d.description
  | property d => d.description
  | metadata d => d.description
  | task d => d.description
  | parameter d => d.description
  | target d => d.description
  | constant c => c.description
  | framework f => f.framework.identifier
  | file f => f.description
  | function f => f.description
  | klass c => c.description

/-- the declared kind of the value -/
def kind : Descriptor → ValueKind
  | element rule => rule.kind
  | attr _ kind => kind
  | item d => d.kind
  | property d => d.kind
  | metadata d => d.kind
  | parameter d => d.kind
  | function f => f.kind
  | task _ | target _ | constant _ | framework _ | file _ | klass _ => BaseKind.nothing.one

def provenance : Descriptor → Provenance
  | item d => d.provenance
  | property d => d.provenance
  | metadata d => d.provenance
  | task d => d.provenance
  | parameter d => d.provenance
  | target d => d.provenance
  | _ => .builtin

end Descriptor

/-! ### Enumerable kinds -/

namespace Constant

def booleans : List Constant := [⟨"true", "True"⟩, ⟨"false", "False"⟩]

def importances : List Constant :=
  [⟨"high", "High importance, always logged"⟩, ⟨"normal", "Normal importance"⟩,
    ⟨"low", "Low importance, only logged at detailed verbosity"⟩]

def errorHandlings : List Constant :=
  [⟨"WarnAndContinue", "Log errors as warnings and continue executing"⟩,
    ⟨"true", "Same as WarnAndContinue"⟩,
    ⟨"ErrorAndContinue", "Log errors as errors and continue executing"⟩,
    ⟨"ErrorAndStop", "Log errors and stop executing the target"⟩,
    ⟨"false", "Same as ErrorAndStop"⟩]

def toolsVersions : List Constant :=
  [⟨"2.0", "MSBuild 2.0"⟩, ⟨"3.5", "MSBuild 3.5"⟩, ⟨"4.0", "MSBuild 4.0"⟩,
    ⟨"12.0", "MSBuild 12.0"⟩, ⟨"14.0", "MSBuild 14.0"⟩, ⟨"15.0", "MSBuild 15.0"⟩,
    ⟨"Current", "The current MSBuild version"⟩]

/-- stands for a fresh GUID, in braces: version 4, variant 1.  No result depends on which GUID it
is, only on its not being empty. -/
def freshGuid : Constant :=
  ⟨"\x7b6F9619FF-8B86-4D01-B42D-00CF4FC964FF\x7d", "New random GUID"⟩

/-- the fixed values of a domain -/
def ofBase? : BaseKind → Option (List Constant)
  | .bool => some booleans
  | .importance => some importances
  | .continueOnError => some errorHandlings
  | .toolsVersion => some toolsVersions
  | _ => none

end Constant

/-- the values to offer for a kind that is a simple enumeration -/
def simpleValues? (kind : ValueKind) : Option (List Constant) :=
  if kind.list then none
  else if kind.base = .guid then some [Constant.freshGuid]
  else Constant.ofBase? kind.base

/-- the fixed value that the text names -/
def knownValue? (kind : ValueKind) (value : String) : Option Constant :=
  Constant.ofBase? kind.base >>= fun values => values.find? fun c => sameName c.name value

end ProjectSense
