import ProjectSense.Completion.Paths

/-!
# Completions

What can be written at an offset: elements, attributes, values, or the names of references still
being typed.

* `Document.completions`: the items to show at an offset.
-/

namespace ProjectSense

/-- the declarations for elements under a site, or the root of a project -/
def elementCandidates (r : Registry) (s : Option Site) : Except SchemaError (List Descriptor) :=
  match s >>= fun s => s.rule.map fun rule => (s, rule) with
  | none => .ok [.element Grammar.project]
  | some (s, rule) => do
    let groups ← rule.childRules.mapM fun child =>
      if child.isAbstract then r.category child.construct s.name else .ok [.element child]
    pure groups.flatten

/-- an item in a target cannot be updated; only there may metadata be kept or removed -/
def allowedOnItem (inTarget : Bool) (construct : Construct) : Bool :=
  match construct with
  | .itemUpdate => !inTarget
  | .itemKeepMetadata | .itemRemoveMetadata | .itemKeepDuplicates => inTarget
  | _ => true

/-- the attributes to offer at a site, with metadata on items and parameters on tasks -/
def attrCandidates (r : Registry) (t : Tree) (s : Site) (version : ToolsVersion)
    (config : CompletionConfig) : List Descriptor :=
  match s.rule with
  | none => []
  | some rule =>
    let isItem := rule.construct = .item
    let inTarget := t.inTarget rule.construct s.element
    let concrete := rule.attributes.filter fun a =>
      !a.isAbstract && (!isItem || allowedOnItem inTarget a.construct)
    concrete.map (r.attrOn · s.name) ++
      (if isItem && version.atLeast config.metadataSince then
        (r.metadata s.name false).map .metadata else []) ++
      (if rule.construct = .task then (r.parameters s.name).map .parameter else [])

/-- the candidates without those whose name stood before in some case -/
def distinctCandidates : List Descriptor → List Descriptor
  | [] => []
  | d :: ds => d :: (distinctCandidates ds).filter fun e => !sameName d.name e.name

def constants (values : List String) : List Descriptor := values.map fun v => .constant ⟨v, ""⟩

namespace Document

/-- the values to offer for a kind; `none` if there is no way to know any -/
def valueCandidates? (d : Document) (kind : ValueKind) (s : Option Site) (typed : Option Expr)
    (config : CompletionConfig) (cancelled : Bool) : Option (List Descriptor) :=
  match simpleValues? kind.asScalar with
  | some values => some (values.map .constant)
  | none =>
    match kind.base with
    | .taskOutputParameterName =>
      match s >>= (·.parent) with
      | some task =>
        some (((d.registry.parameters task).filter (·.facts.output)).map .parameter)
      | none => some []
    | .targetName => some (d.registry.targets.map .target)
    | .propertyName => some ((d.registry.properties true).map .property)
    | .itemName => some (d.registry.items.map .item)
    | .targetFramework | .targetFrameworks => some (Framework.shortNames.map .framework)
    | .targetFrameworkIdentifier => some (Framework.identifiers.map .framework)
    | .targetFrameworkVersion =>
      some (distinctCandidates ((d.frameworks.flatMap fun f =>
        Framework.versionsOf f.identifier).map .framework))
    | .targetFrameworkProfile =>
      some (distinctCandidates ((d.frameworks.flatMap fun f =>
        Framework.profilesOf f.identifier f.version).map .framework))
    | .configuration => some (constants d.registry.configurations)
    | .platform => some (constants d.registry.platforms)
    | _ => d.fileCandidates? kind typed 0 s config cancelled

/-- the value at a resolution and where it begins; content without text begins at the offset -/
def valueText? (d : Document) (r : Resolution) (offset : Nat) : Option (String × Nat) :=
  match r.place with
  | .attributeValue => do
    let e ← d.tree.element? r.site.element
    let a ← e.attributes[(← r.site.attr).index]?
    let span ← a.valueSpan
    pure (a.value.getD "", span.start)
  | .content =>
    match d.tree.textAt? r.site.element offset with
    | some (raw, span) => some (raw, span.start)
    | none => some ("", offset)
  | _ => none

end Document

/-- the names to offer for a reference still being typed -/
def referenceCandidates? (r : Registry) (s : Site) : Expr → Option (List Descriptor)
  | .property _ _ false => some ((r.properties true).map .property)
  | .item _ _ _ _ false => some (r.items.map .item)
  | .metadata _ owner _ false =>
    some ((r.metadata ((owner.map (·.text)).getD s.item) true).map .metadata)
  | _ => none

/-- the part of a text that begins at `start` which stands before an offset, to the last whole
character -/
def typedBefore (cs : List Char) (start offset : Nat) : List Char :=
  Text.takeWidth (offset - start) cs

/-- the last entry of what was typed from `start`, up to its last separator -/
def typedFolder (typed : List Char) (start : Nat) (e : Expr) : Expr :=
  let entryStart := e.lastEntry.span.start
  let tail := Text.dropWidth (entryStart - start) typed
  Expr.parse (String.ofList (Text.uptoLast Path.isSeparator tail)) entryStart

namespace Document

/-- the candidates for a value at an offset.  `r` enumerates names for open references. -/
def candidatesInValue? (d : Document) (r : Registry) (found : Resolution) (offset : Nat)
    (config : CompletionConfig) (cancelled : Bool) : Option (List Descriptor) := do
  let (raw, start) ← d.valueText? found offset
  let typed := typedBefore raw.toList start offset
  let e := Expr.parse (String.ofList typed) start
  match e.findAt offset >>= referenceCandidates? r found.site with
  | some names => pure names
  | none =>
    let kind := (← r.valueAt? found.site).inferredKind
    d.valueCandidates? kind found.site (typedFolder typed start e) config cancelled

/-- the candidates at an offset -/
def candidates (d : Document) (offset : Nat) (config : CompletionConfig) (cancelled : Bool) :
    Except SchemaError (List Descriptor) :=
  let r : Registry := { d.registry with cancelled := cancelled }
  match d.resolve? offset with
  | none => elementCandidates r none
  | some found =>
    match found.place with
    | .elementName =>
      elementCandidates r (d.tree.parentElement? found.site.element >>= Site.ofElement? d.tree)
    | .tag | .attributeName => .ok (attrCandidates r d.tree found.site d.toolsVersion config)
    | .attributeValue | .content =>
      .ok ((d.candidatesInValue? r found offset config cancelled).getD [])
    | .closingTag => .ok []

/-- the items to show at an offset -/
def completions (d : Document) (offset : Nat) (config : CompletionConfig) (cancelled : Bool) :
    Except SchemaError (List CompletionItem) :=
  (d.candidates offset config cancelled).map CompletionItem.present

end Document
end ProjectSense
