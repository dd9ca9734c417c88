import ProjectSense.Document.Lookup
import ProjectSense.Proofs.Checked.Expr
import ProjectSense.Proofs.Checked.Words
import ProjectSense.Proofs.Document.Ranges

/-!
# Resolving offsets

What stands at an offset, and what declares it, found once more with nodes, attributes and texts
taken by steps that can fail.  In a document of a short text none does, at whatever offset.

* `Checked.innermostAt?_eq`: the innermost element at an offset.
* `Checked.valueReference?_eq`: the reference in a value.
* `Checked.resolve?_eq`, `Checked.declaration?_eq`: the resolution of an offset, and what declares
  the reference there.
-/

namespace ProjectSense.Checked

open Text (width)

/-! ### Nodes -/

/-- the last node from `id` on that covers the offset -/
def innermostFrom? (t : Tree) (offset : Nat) (found : Option Nat) (id : Nat) :
    Option (Option Nat) :=
  if _h : id < t.nodes.size then
    match t.element? id with
    | none => innermostFrom? t offset found (id + 1)
    | some e => do
      let n ← t.node? id
      if n.covers e offset then innermostFrom? t offset (some id) (id + 1)
      else if offset ≤ n.span.start then some found
      else innermostFrom? t offset found (id + 1)
  else some found
termination_by t.nodes.size - id

/-- the innermost element that covers the offset -/
def innermostAt? (t : Tree) (offset : Nat) : Option (Option Nat) := innermostFrom? t offset none 0

/-- the first text of the children that the offset touches, and its span -/
def textIn? (t : Tree) (offset : Nat) : List Nat → Option (Option (String × Span))
  | [] => some none
  | child :: children =>
    match t.text? child with
    | none => textIn? t offset children
    | some raw => do
      let n ← t.node? child
      if n.span.touches offset then some (some (raw, n.span)) else textIn? t offset children

/-- the text under an element that the offset touches, and its span -/
def textAt? (t : Tree) (id offset : Nat) : Option (Option (String × Span)) :=
  textIn? t offset (t.children id)

theorem innermostFrom?_eq (t : Tree) (offset : Nat) (found : Option Nat) (id : Nat) :
    innermostFrom? t offset found id =
      some (Tree.innermostFrom offset found id (t.nodes.toList.drop id)) := by
  rw [innermostFrom?]
  split
  · next hid =>
    have hlength : id < t.nodes.toList.length := hid
    have hnode : t.node? id = some t.nodes.toList[id] := by
      rw [Tree.node?, ← Array.getElem?_toList, List.getElem?_eq_getElem hlength]
    have helement : t.element? id = t.nodes.toList[id].element? := by
      rw [Tree.element?, hnode]
      rfl
    rw [List.drop_eq_getElem_cons hlength, Tree.innermostFrom, helement, hnode]
    have hnext := fun found => innermostFrom?_eq t offset found (id + 1)
    cases t.nodes.toList[id].element? with
    | none => exact hnext found
    | some e => simp only [hnext, Option.bind_eq_bind, Option.bind_some, apply_ite some]
  · next hid =>
    rw [List.drop_of_length_le (Nat.le_of_not_lt hid), Tree.innermostFrom]
termination_by t.nodes.size - id

theorem innermostAt?_eq (t : Tree) (offset : Nat) :
    innermostAt? t offset = some (t.innermostAt offset) :=
  innermostFrom?_eq t offset none 0

theorem textAt?_eq (t : Tree) (id offset : Nat) :
    textAt? t id offset = some (t.textAt? id offset) := by
  rw [textAt?, Tree.textAt?]
  induction t.children id with
  | nil => rfl
  | cons child children ih =>
    rw [textIn?, List.findSome?_cons, ih]
    cases hn : t.node? child with
    | none => simp only [Tree.text?, hn, Option.bind_eq_bind, Option.bind_none]
    | some n =>
      obtain ⟨parent, span, content⟩ := n
      cases content with
      | element e => simp only [Tree.text?, hn, Option.bind_eq_bind, Option.bind_some, Node.text?]
      | text raw =>
        simp only [Tree.text?, hn, Option.bind_eq_bind, Option.bind_some, Node.text?]
        cases span.touches offset <;> rfl

/-! ### References -/

variable (r : Registry) (s : Site)

/-- the kind of a property's value -/
def propertyKind? (name : String) : Option ValueKind :=
  inferredKind? (.property (r.propertyOr name))

/-- what a node of an expression refers to at an offset, and where: only what a property's value is
and what a text says must be read -/
def nodeReference? (offset : Nat) : Expr → Option (Option (Reference × Span))
  | .call span (.property p) calleeSpan name =>
    if name.span.touches offset then
      (propertyKind? r p).map fun kind => some (.propertyFunction kind name.text, name.span)
    else some (r.nodeReference? s offset (.call span (.property p) calleeSpan name))
  | .text span raw =>
    match r.valueAt? s with
    | none => some none
    | some value => do
      let kind ← inferredKind? value
      let word ← unescape? raw
      some ((s.literalReference? kind (trimmed word)).map fun ref => (ref, span))
  | node => some (r.nodeReference? s offset node)

/-- what a value that begins at `base` refers to at an offset, and where -/
def valueReference? (raw : String) (base offset : Nat) : Option (Option (Reference × Span)) := do
  let e ← parse? raw base
  match e.findAt offset with
  | none => some none
  | some node => nodeReference? r s offset node

theorem nodeReference?_eq (offset : Nat) (node : Expr) :
    nodeReference? r s offset node = some (r.nodeReference? s offset node) := by
  unfold nodeReference?
  split
  · next span p calleeSpan name =>
    split
    · next htouch =>
      rw [propertyKind?, inferredKind?_eq, Registry.nodeReference?, if_pos htouch]
      rfl
    · rfl
  · next span raw =>
    rw [Registry.nodeReference?]
    cases r.valueAt? s with
    | none => rfl
    | some value =>
      simp only [inferredKind?_eq, unescape?_eq, Option.bind_eq_bind, Option.bind_some]
  · rfl

theorem valueReference?_eq {raw : String} {base : Nat} (offset : Nat)
    (hw : base + width raw.toList < UInt32.size) :
    valueReference? r s raw base offset = some (r.valueReference? s raw base offset) := by
  rw [valueReference?, parse?_eq hw, Registry.valueReference?]
  simp only [Option.bind_eq_bind, Option.bind_some]
  cases (Expr.parse raw base).findAt offset with
  | none => rfl
  | some node => exact nodeReference?_eq r s offset node

/-! ### Offsets -/

variable (d : Document)

/-- the place and the reference in a start tag, off the element's name -/
def resolveInTag? (e : Element) (offset : Nat) : Option Resolution :=
  match e.attributes.findIdx? (Tree.onAttribute offset) with
  | none => some ⟨s, .tag, none, none⟩
  | some index => do
    let a ← e.attributes[index]?
    let s := { s with attr := some ⟨index, a.name, s.rule >>= (·.attr? a.name)⟩ }
    if a.nameSpan.touches offset then
      some ⟨s, .attributeName, s.attrReference?, some a.nameSpan⟩
    else
      let found ← match a.value, a.valueSpan with
        | some raw, some span => valueReference? d.registry s raw span.start offset
        | _, _ => some none
      some ⟨s, .attributeValue, found.map (·.1), found.map (·.2)⟩

/-- the place and the reference in an element -/
def resolveIn? (e : Element) (offset : Nat) : Option Resolution :=
  if e.nameSpan.touches offset then some ⟨s, .elementName, s.elementReference?, some e.nameSpan⟩
  else if e.inStartTag offset then resolveInTag? s d e offset
  else if e.inClosingTag offset then some ⟨s, .closingTag, s.elementReference?, e.closingTag⟩
  else do
    let text ← textAt? d.tree s.element offset
    let found ← match text with
      | some (raw, span) => valueReference? d.registry s raw span.start offset
      | none => some none
    some ⟨s, .content, found.map (·.1), found.map (·.2)⟩

/-- what stands at an offset; nothing outside every element -/
def resolve? (offset : Nat) : Option (Option Resolution) := do
  match ← innermostAt? d.tree offset with
  | none => some none
  | some id =>
    match d.tree.element? id, Site.ofElement? d.tree id with
    | some e, some s => (resolveIn? s d e offset).map some
    | _, _ => some none

/-- the declaration behind a resolution -/
def declaration? (policy : GuessPolicy) (found : Resolution) : Option (Option Descriptor) :=
  match found.reference with
  | some (.framework name) =>
    (framework? name).map fun f => f.map fun f => .framework ⟨name, f⟩
  | _ => some (d.declaration? policy found)

variable {s d} {text : String} {e : Element}

theorem resolveInTag?_eq (offset : Nat)
    (hshort : ∀ a ∈ e.attributes.toList, ∀ raw span, a.value = some raw → a.valueSpan = some span →
      span.start + width raw.toList < UInt32.size) :
    resolveInTag? s d e offset = some (d.resolveInTag s e offset) := by
  rw [resolveInTag?, Document.resolveInTag]
  cases hindex : e.attributes.findIdx? (Tree.onAttribute offset) with
  | none => rfl
  | some index =>
    have hlt : index < e.attributes.size := (Array.findIdx?_eq_some_iff_getElem.1 hindex).1
    have ha : e.attributes[index]? = some e.attributes[index] := Array.getElem?_eq_getElem hlt
    have hmem : e.attributes[index] ∈ e.attributes.toList :=
      List.mem_of_getElem? (Array.getElem?_toList.trans ha)
    have hvalue := hshort _ hmem
    simp only [ha, Option.bind_eq_bind, Option.bind_some]
    split
    · rfl
    · cases hraw : e.attributes[index].value with
      | none => rfl
      | some raw =>
        cases hspan : e.attributes[index].valueSpan with
        | none => rfl
        | some span =>
          simp only [valueReference?_eq _ _ offset (hvalue raw span hraw hspan),
            Option.bind_some]

/-- what stands in a short text ends at an offset of 32 bits -/
theorem short_of_holds {span : Span} {cs raw : List Char} (hw : width cs < UInt32.size)
    (h : span.Holds 0 cs raw) : span.start + width raw < UInt32.size := by
  obtain ⟨front, back, rfl, hstart, -⟩ := h.split
  rw [Text.width_append, Text.width_append] at hw
  omega

theorem resolveIn?_eq (hw : width text.toList < UInt32.size) (ht : d.tree = Tree.parse text)
    (he : d.tree.element? s.element = some e) (offset : Nat) :
    resolveIn? s d e offset = some (d.resolveIn s e offset) := by
  obtain ⟨-, outer, hsound⟩ := Document.parted_of_parse ht he
  have htag : resolveInTag? s d e offset = some (d.resolveInTag s e offset) := by
    refine resolveInTag?_eq offset fun a hmem raw span hraw hspan => short_of_holds hw ?_
    exact ((hsound.attributes a hmem).1.value raw span hraw hspan).1
  rw [resolveIn?, Document.resolveIn, htag, textAt?_eq]
  simp only [apply_ite some, Option.bind_eq_bind, Option.bind_some]
  cases htext : d.tree.textAt? s.element offset with
  | none => rfl
  | some found =>
    obtain ⟨raw, span⟩ := found
    obtain ⟨child, -, n, hn, hraw, rfl⟩ := Tree.textAt?_some htext
    rw [ht] at hn
    have hshort := short_of_holds hw ((Tree.sound_parse hn).text raw hraw)
    simp only [valueReference?_eq _ _ offset hshort, Option.bind_some]

/-- no step fails on the way to what stands at an offset -/
theorem resolve?_eq (hw : width text.toList < UInt32.size) (ht : d.tree = Tree.parse text)
    (offset : Nat) : resolve? d offset = some (d.resolve? offset) := by
  rw [resolve?, innermostAt?_eq, Document.resolve?]
  simp only [Option.bind_eq_bind, Option.bind_some]
  cases d.tree.innermostAt offset with
  | none => rfl
  | some id =>
    simp only [Option.bind_some]
    cases he : d.tree.element? id with
    | none => rfl
    | some e =>
      simp only [Option.bind_some]
      cases hs : Site.ofElement? d.tree id with
      | none => rfl
      | some s =>
        have hid : s.element = id := by
          obtain ⟨name, -, rfl⟩ := Option.map_eq_some_iff.1 hs
          rfl
        simp only [resolveIn?_eq hw ht (hid ▸ he) offset, Option.map_some]
        rfl

theorem declaration?_eq (d : Document) (policy : GuessPolicy) (found : Resolution) :
    declaration? d policy found = some (d.declaration? policy found) := by
  unfold declaration?
  split
  · next name href =>
    rw [framework?_eq, Document.declaration?, href]
    simp only [Option.map_some, Option.bind_eq_bind, Option.bind_some, Document.lookUp?,
      Framework.named?, Option.map_map]
    rfl
  · rfl

end ProjectSense.Checked
