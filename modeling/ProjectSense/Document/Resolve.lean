import ProjectSense.Document.Place
import ProjectSense.Expr.Escape
import ProjectSense.Expr.Parser

/-!
# What stands at an offset

An offset falls on the name of an element, on an attribute's name or value, elsewhere in a start
tag, in content or on a closing tag.  There it may be on a reference.

* `Document.resolve?`: the place of an offset and the reference at it.
-/

namespace ProjectSense

/-- the part of an element that an offset falls on -/
inductive Place where
  /-- the name in a start tag, also one still to be typed -/
  | elementName
  | attributeName
  | attributeValue
  /-- a start tag, off its attributes -/
  | tag
  | content
  | closingTag
deriving DecidableEq, Repr

/-- what is named at an offset -/
inductive Reference where
  | item (name : String)
  | metadata (item name : String)
  | property (name : String)
  | task (name : String)
  | target (name : String)
  /-- an element of the grammar -/
  | element (rule : ElementRule)
  /-- an attribute of the grammar -/
  | attr (rule : AttributeRule)
  | known (value : Constant)
  | framework (name : String)
  | frameworkIdentifier (name : String)
  | frameworkVersion (name : String)
  | frameworkProfile (name : String)
  | parameter (task name : String)
  | itemFunction (name : String)
  | staticFunction (klass name : String)
  /-- a function on the value of a property -/
  | propertyFunction (kind : ValueKind) (name : String)
  | klass (name : String)
deriving DecidableEq, Repr

structure Resolution where
  site : Site
  place : Place
  reference : Option Reference
  range : Option Span
deriving DecidableEq, Repr

namespace Site

/-- what the element's name refers to -/
def elementReference? (s : Site) : Option Reference :=
  match s.rule with
  | none => none
  | some rule =>
    match rule.construct with
    | .item | .itemDefinition => some (.item s.name)
    | .property => some (.property s.name)
    | .metadata => some (.metadata (s.parent.getD "") s.name)
    | .task => some (.task s.name)
    | .parameter => none
    | _ => some (.element rule)

/-- what the attribute's name refers to -/
def attrReference? (s : Site) : Option Reference :=
  match s.attr with
  | none => none
  | some attr =>
    match attr.rule with
    | none => none
    | some rule =>
      if !rule.isAbstract then some (.attr rule)
      else match s.construct? with
        | some .item | some .itemDefinition => some (.metadata s.name attr.name)
        | some .task => some (.parameter s.name attr.name)
        | _ => none

/-- what literal text refers to, as a value of the kind -/
def literalReference? (s : Site) (kind : ValueKind) (value : String) : Option Reference :=
  if value.isEmpty then none
  else match kind.base with
    | .targetName => some (.target value)
    | .itemName => some (.item value)
    | .propertyName => some (.property value)
    | .taskName => some (.task value)
    | .metadataName => some (.metadata s.item value)
    | .targetFramework => some (.framework value)
    | .targetFrameworkIdentifier => some (.frameworkIdentifier value)
    | .targetFrameworkVersion => some (.frameworkVersion value)
    | .targetFrameworkProfile => some (.frameworkProfile value)
    | .taskOutputParameterName => s.parent.map fun task => .parameter task value
    | _ => (knownValue? kind value).map .known

end Site

namespace Registry

/-- the kind of a property's value -/
def propertyKind (r : Registry) (name : String) : ValueKind :=
  (Descriptor.property (r.propertyOr name)).inferredKind

/-- what a node of an expression refers to at an offset, and where -/
def nodeReference? (r : Registry) (s : Site) (offset : Nat) : Expr → Option (Reference × Span)
  | .property _ name _ => if name.text.isEmpty then none else some (.property name.text, name.span)
  | .item _ name _ _ _ => if name.text.isEmpty then none else some (.item name.text, name.span)
  | .metadata _ owner name _ =>
    if name.text.isEmpty then none
    else some (.metadata ((owner.map (·.text)).getD s.item) name.text, name.span)
  | .call _ callee calleeSpan name =>
    if name.span.touches offset then
      some (match callee with
        | .property p => .propertyFunction (r.propertyKind p) name.text
        | .klass k => .staticFunction k name.text
        | .item _ => .itemFunction name.text, name.span)
    else
      some (match callee with
        | .property p => .property p
        | .klass k => .klass k
        | .item i => .item i, calleeSpan)
  | .text span raw =>
    match r.valueAt? s with
    | none => none
    | some value =>
      (s.literalReference? value.inferredKind (trimmed (unescape raw))).map fun ref => (ref, span)
  | .concat .. | .list .. => none

/-- what a value that begins at `base` refers to at an offset, and where -/
def valueReference? (r : Registry) (s : Site) (raw : String) (base offset : Nat) :
    Option (Reference × Span) :=
  (Expr.parse raw base).findAt offset >>= r.nodeReference? s offset

end Registry

namespace Tree

/-- the text under an element that the offset touches, and its span -/
def textAt? (t : Tree) (id offset : Nat) : Option (String × Span) :=
  (t.children id).findSome? fun child =>
    match t.node? child with
    | some ⟨_, span, .text raw⟩ => if span.touches offset then some (raw, span) else none
    | _ => none

end Tree

namespace Element

/-- the offset is in the start tag, or at the end of one that has no end -/
def inStartTag (e : Element) (offset : Nat) : Bool :=
  offset < e.startTag.stop || (!e.startTagClosed && offset = e.startTag.stop)

/-- the offset is in the closing tag, after its `<` -/
def inClosingTag (e : Element) (offset : Nat) : Bool :=
  e.closingTag.any fun tag => tag.start < offset && offset ≤ tag.stop

end Element

namespace Document

/-- the place and the reference in a start tag, off the element's name -/
def resolveInTag (d : Document) (s : Site) (e : Element) (offset : Nat) : Resolution :=
  match e.attributes.findIdx? (Tree.onAttribute offset) with
  | none => ⟨s, .tag, none, none⟩
  | some index =>
    match e.attributes[index]? with
    | none => ⟨s, .tag, none, none⟩
    | some a =>
      let s := { s with attr := some ⟨index, a.name, s.rule >>= (·.attr? a.name)⟩ }
      if a.nameSpan.touches offset then
        ⟨s, .attributeName, s.attrReference?, some a.nameSpan⟩
      else
        let found := match a.value, a.valueSpan with
          | some raw, some span => d.registry.valueReference? s raw span.start offset
          | _, _ => none
        ⟨s, .attributeValue, found.map (·.1), found.map (·.2)⟩

/-- the place and the reference in an element -/
def resolveIn (d : Document) (s : Site) (e : Element) (offset : Nat) : Resolution :=
  if e.nameSpan.touches offset then ⟨s, .elementName, s.elementReference?, some e.nameSpan⟩
  else if e.inStartTag offset then d.resolveInTag s e offset
  else if e.inClosingTag offset then ⟨s, .closingTag, s.elementReference?, e.closingTag⟩
  else
    let found := d.tree.textAt? s.element offset >>= fun (raw, span) =>
      d.registry.valueReference? s raw span.start offset
    ⟨s, .content, found.map (·.1), found.map (·.2)⟩

/-- what stands at an offset; nothing outside every element -/
def resolve? (d : Document) (offset : Nat) : Option Resolution := do
  let id ← d.tree.innermostAt offset
  let e ← d.tree.element? id
  let s ← Site.ofElement? d.tree id
  pure (d.resolveIn s e offset)

end Document
end ProjectSense
