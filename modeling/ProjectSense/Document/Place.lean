import ProjectSense.Document.Basic
import ProjectSense.Schema.Infer

/-!
# Rules and values of elements

What an element of a document is by the grammar, and what the values of its attributes and of its
text are.

* `Tree.rule?`: the rule of an element, from the root down.
* `Tree.inTarget`: whether an item, a property or a group stands in a target.
* `Registry.valueAt?`: what the value at a place belongs to.
-/

namespace ProjectSense

namespace Tree

/-- the rule of an element; only what stands in a project has one -/
def rule? (t : Tree) (id : Nat) : Option ElementRule :=
  match (t.ancestors id).reverse ++ [id] with
  | [] => none
  | root :: path =>
    if (t.element? root).any (·.isNamed "Project") then
      path.foldlM (fun rule node => t.elementName? node >>= rule.child?) Grammar.project
    else none

/-- how many elements up the group of an element of this kind is -/
def stepsToGroup? : Construct → Option Nat
  | .metadata => some 2
  | .property | .item => some 1
  | .itemGroup | .propertyGroup => some 0
  | _ => none

/-- so many elements up -/
def up? (t : Tree) : Nat → Nat → Option Nat
  | 0, id => some id
  | n + 1, id => t.parentElement? id >>= t.up? n

/-- an element of this kind has its group right in a target -/
def inTarget (t : Tree) (construct : Construct) (id : Nat) : Bool :=
  match stepsToGroup? construct with
  | none => false
  | some steps => (t.up? steps id >>= t.parentName?).any (sameName · "Target")

end Tree

/-- the attribute at a place -/
structure AttributeAt where
  index : Nat
  name : String
  rule : Option AttributeRule
deriving DecidableEq, Repr

/-- an element at a place, and the attribute if the place is on one -/
structure Site where
  element : Nat
  name : String
  parent : Option String
  /-- outside the grammar there is none -/
  rule : Option ElementRule
  attr : Option AttributeAt
deriving DecidableEq, Repr

namespace Site

/-- the site of an element as a whole -/
def ofElement? (t : Tree) (id : Nat) : Option Site :=
  (t.elementName? id).map fun name => ⟨id, name, t.parentName? id, t.rule? id, none⟩

def construct? (s : Site) : Option Construct := s.rule.map (·.construct)

/-- the item that metadata belongs to when no item is named -/
def item (s : Site) : String :=
  match s.construct? with
  | some .item | some .itemDefinition => s.name
  | some .metadata => s.parent.getD ""
  | _ => ""

end Site

namespace Registry

/-- the attribute as it is on an element of that name: what selects items has values of that item -/
def attrOn (r : Registry) (rule : AttributeRule) (element : String) : Descriptor :=
  let kind := if rule.construct.isItemSelector then (r.item? element).map (·.kind) else none
  .attr rule (kind.getD rule.kind)

/-- the property, declared or not -/
def propertyOr (r : Registry) (name : String) : PropertyDecl :=
  (r.property? name).getD (.property name "" .builtin)

/-- the metadata, declared or not -/
def metadataOr (r : Registry) (item name : String) : MetadataDecl :=
  (r.metadata? item name).getD (.metadata item name "" .builtin)

/-- the parameter, declared or not -/
def parameterOr (r : Registry) (task name : String) : ParameterDecl :=
  (r.parameter? task name).getD (.parameter task name "" .builtin)

/-- what the value at a site belongs to -/
def valueAt? (r : Registry) (s : Site) : Option Descriptor :=
  match s.rule with
  | none => none
  | some rule =>
    match s.attr with
    | some attr =>
      match attr.rule with
      | none => none
      | some attrRule =>
        if attrRule.isAbstract then
          match rule.construct with
          | .item | .itemDefinition => some (.metadata (r.metadataOr s.name attr.name))
          | .task => some (.parameter (r.parameterOr s.name attr.name))
          | _ => none
        else some (r.attrOn attrRule s.name)
    | none =>
      match rule.construct with
      | .property => some (.property (r.propertyOr s.name))
      | .metadata => some (.metadata (r.metadataOr (s.parent.getD "") s.name))
      | _ => some (.element rule)

end Registry
end ProjectSense
