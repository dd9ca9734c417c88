import ProjectSense.Schema.Declaration

/-!
# Schemas

A schema declares items, properties, tasks and targets, metadata by item and parameters by task,
and the configurations and platforms that it knows.

* `Schema.metadataOf`, `Schema.parametersOf`: what it declares under an item or a task.
-/

namespace ProjectSense

structure Schema where
  name : String
  items : List ItemDecl
  properties : List PropertyDecl
  metadata : NameMap (List MetadataDecl)
  tasks : List TaskDecl
  parameters : NameMap (List ParameterDecl)
  targets : List TargetDecl
  configurations : List String
  platforms : List String
deriving DecidableEq, Repr, Inhabited

/-- the first declaration that the string names -/
def lookUp {Facts : Type} (name : String) (decls : List (Declared Facts)) :
    Option (Declared Facts) := decls.find? (·.name.spelledBy name)

namespace Schema

/-- the schema of that name that declares nothing -/
def empty (name : String) : Schema := ⟨name, [], [], .empty, [], .empty, [], [], []⟩

def metadataOf (s : Schema) (item : String) : List MetadataDecl :=
  (s.metadata.find? ⟨item⟩).getD []

def parametersOf (s : Schema) (task : String) : List ParameterDecl :=
  (s.parameters.find? ⟨task⟩).getD []

end Schema
end ProjectSense
