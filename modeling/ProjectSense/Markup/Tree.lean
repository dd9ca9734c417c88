import ProjectSense.Text.Span
import ProjectSense.Text.Name
import ProjectSense.Markup.Entity

/-!
# Markup trees

A document is an arena of nodes in document order: a node's id is its place in a walk that visits
elements before what they hold.  The tree keeps spans, not the text.

* `Tree.innermostAt`: the innermost element that covers an offset.
* `Tree.ancestors`, `Tree.descendants`: the elements around and inside a node.
-/

namespace ProjectSense

/-- an attribute as far as it was written; `closed` tells that its value ended with its quote -/
structure Attribute where
  name : String
  nameSpan : Span
  value : Option String
  valueSpan : Option Span
  span : Span
  closed : Bool
deriving DecidableEq, Repr

/-- an element as far as it was written -/
structure Element where
  name : String
  nameSpan : Span
  attributes : Array Attribute
  children : Array Nat
  startTag : Span
  startTagClosed : Bool
  selfClosing : Bool
  closingTag : Option Span
deriving DecidableEq, Repr

namespace Element

/-- ends with `/>` or with a closing tag of its own -/
def isClosed (e : Element) : Bool := e.selfClosing || e.closingTag.isSome

def attribute? (e : Element) (name : String) : Option Attribute :=
  e.attributes.find? fun a => sameName a.name name

/-- the value of the attribute, if it has one -/
def value? (e : Element) (name : String) : Option String := e.attribute? name >>= (·.value)

def isNamed (e : Element) (name : String) : Bool := sameName e.name name

/-- what stands between the start tag and the closing tag of an element that spans `span` -/
def content? (e : Element) (span : Span) : Option Span :=
  if !e.startTagClosed || e.selfClosing then none
  else
    let stop := (e.closingTag.map (·.start)).getD span.stop
    some ⟨e.startTag.stop, max stop e.startTag.stop⟩

end Element

inductive Content where
  | element (e : Element)
  | text (raw : String)
deriving DecidableEq, Repr

structure Node where
  parent : Option Nat
  span : Span
  content : Content
deriving DecidableEq, Repr

/-- the element that a node is -/
def Node.element? (n : Node) : Option Element :=
  match n.content with
  | .element e => some e
  | .text _ => none

/-- the text that a node is -/
def Node.text? (n : Node) : Option String :=
  match n.content with
  | .element _ => none
  | .text raw => some raw

/-- an offset inside the node; one right after an element that is still open counts -/
def Node.covers (n : Node) (e : Element) (offset : Nat) : Bool :=
  n.span.start < offset && (offset < n.span.stop || (offset = n.span.stop && !e.isClosed))

structure Tree where
  nodes : Array Node
  roots : Array Nat
  width : Nat
deriving DecidableEq, Repr

namespace Tree

def node? (t : Tree) (id : Nat) : Option Node := t.nodes[id]?

def element? (t : Tree) (id : Nat) : Option Element := t.node? id >>= Node.element?

def text? (t : Tree) (id : Nat) : Option String := t.node? id >>= Node.text?

def isElement (t : Tree) (id : Nat) : Bool := (t.element? id).isSome

def parent? (t : Tree) (id : Nat) : Option Nat := t.node? id >>= (·.parent)

/-- the parent if it is an element -/
def parentElement? (t : Tree) (id : Nat) : Option Nat := (t.parent? id).filter t.isElement

def elementName? (t : Tree) (id : Nat) : Option String := (t.element? id).map (·.name)

/-- the name of the element around a node -/
def parentName? (t : Tree) (id : Nat) : Option String := t.parentElement? id >>= t.elementName?

/-- the first element at the top -/
def rootElement? (t : Tree) : Option Nat := t.roots.find? t.isElement

def children (t : Tree) (id : Nat) : List Nat :=
  ((t.element? id).map (·.children.toList)).getD []

def childElements (t : Tree) (id : Nat) : List Nat := (t.children id).filter t.isElement

/-- the element that follows under the same parent -/
def nextSibling? (t : Tree) (id : Nat) : Option Nat :=
  let siblings := match t.parent? id with
    | some parent => t.children parent
    | none => t.roots.toList
  ((siblings.dropWhile (· ≠ id)).drop 1).find? t.isElement

/-- the nodes around a node, from its parent to the top -/
def ancestors (t : Tree) (id : Nat) : List Nat :=
  match t.parent? id with
  | some parent => if _h : parent < id then parent :: t.ancestors parent else []
  | none => []
termination_by id

/-- the elements inside an element, in document order -/
def descendants (t : Tree) (id : Nat) : List Nat :=
  (t.children id).flatMap fun child =>
    if _h : id < child ∧ child < t.nodes.size then
      if t.isElement child then child :: t.descendants child else []
    else []
termination_by t.nodes.size - id

/-- the last node from `id` on that covers the offset; nodes that start at it or later cannot -/
def innermostFrom (offset : Nat) (found : Option Nat) (id : Nat) : List Node → Option Nat
  | [] => found
  | n :: ns =>
    match n.element? with
    | none => innermostFrom offset found (id + 1) ns
    | some e =>
      if n.covers e offset then innermostFrom offset (some id) (id + 1) ns
      else if offset ≤ n.span.start then found
      else innermostFrom offset found (id + 1) ns

/-- the innermost element that covers the offset -/
def innermostAt (t : Tree) (offset : Nat) : Option Nat :=
  innermostFrom offset none 0 t.nodes.toList

/-- the offset is on the name or the value of the attribute -/
def onAttribute (offset : Nat) (a : Attribute) : Bool :=
  a.nameSpan.touches offset || a.valueSpan.any (·.touches offset)

/-- the place of the element's attribute at the offset -/
def attributeAt? (t : Tree) (id offset : Nat) : Option Nat :=
  t.element? id >>= fun e => e.attributes.findIdx? (onAttribute offset)

end Tree
end ProjectSense
