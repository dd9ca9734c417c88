import ProjectSense.Markup.Tree

/-!
# Building trees

A document is a sequence of events: start tags with their attributes, text, and closing tags.  A
builder takes them in order and leaves open what is never closed.

* `Builder.apply`, `Tree.ofEvents`: one event, and all of them.
-/

namespace ProjectSense

/-- what happens next in a document -/
inductive Event where
  /-- a start tag begins at `pos` -/
  | start (name : String) (nameSpan : Span) (pos : Nat)
  | attr (a : Attribute)
  /-- the start tag ends before `pos` -/
  | endStart (pos : Nat) (selfClosing : Bool)
  /-- the start tag goes on to `pos` without an end -/
  | extend (pos : Nat)
  | text (raw : String) (span : Span)
  /-- a closing tag -/
  | close (name : String) (span : Span)
deriving DecidableEq, Repr

/-- the nodes so far and the elements still open, the innermost first -/
structure Builder where
  nodes : Array Node
  roots : Array Nat
  opened : List Nat
deriving DecidableEq, Repr

namespace Builder

def empty : Builder := ⟨#[], #[], []⟩

instance : Inhabited Builder := ⟨empty⟩

/-- the node with `change` made to the element that it is -/
def changeElement (change : Element → Element) (n : Node) : Node :=
  match n.content with
  | .element e => { n with content := .element (change e) }
  | .text _ => n

/-- the node with its span reaching `pos` -/
def reach (pos : Nat) (n : Node) : Node := { n with span := n.span.coverOffset pos }

/-- puts a node under the innermost open element, or at the top -/
def push (b : Builder) (span : Span) (content : Content) : Builder :=
  let id := b.nodes.size
  let node : Node := ⟨b.opened.head?, span, content⟩
  match b.opened with
  | parent :: _ =>
    let adopt (e : Element) : Element := { e with children := e.children.push id }
    { b with nodes := (b.nodes.modify parent (changeElement adopt)).push node }
  | [] => { b with nodes := b.nodes.push node, roots := b.roots.push id }

/-- opens an element -/
def start (b : Builder) (name : String) (nameSpan : Span) (pos : Nat) : Builder :=
  let tag : Span := ⟨pos, nameSpan.stop⟩
  let element : Element := ⟨name, nameSpan, #[], #[], tag, false, false, none⟩
  let pushed := b.push tag (.element element)
  { pushed with opened := b.nodes.size :: b.opened }

/-- changes the innermost open element, which reaches `pos` -/
def changeInnermost (b : Builder) (pos : Nat) (change : Element → Element) : Builder :=
  match b.opened with
  | [] => b
  | id :: _ =>
    { b with
      nodes := b.nodes.modify id fun n => reach pos (changeElement
        (fun e => change { e with startTag := e.startTag.coverOffset pos }) n) }

/-- leaves elements open for good; they end at `pos` -/
def abandon (pos : Nat) (ids : List Nat) (nodes : Array Node) : Array Node :=
  ids.foldl (fun nodes id => nodes.modify id (reach pos)) nodes

/-- the node is an element of exactly this name -/
def isNamed (b : Builder) (name : String) (id : Nat) : Bool :=
  (b.nodes[id]? >>= Node.element?).any (·.name = name)

/-- closes the innermost open element of the name; those inside it stay unclosed and end where the
closing tag starts.  Without such an element nothing happens. -/
def close (b : Builder) (name : String) (tag : Span) : Builder :=
  match b.opened.dropWhile fun id => !b.isNamed name id with
  | [] => b
  | id :: outer =>
    let inner := b.opened.takeWhile fun id => !b.isNamed name id
    let nodes := (abandon tag.start inner b.nodes).modify id fun n =>
      { changeElement (fun e => { e with closingTag := some tag }) n with span := n.span.cover tag }
    { b with nodes := nodes, opened := outer }

/-- the builder after an event -/
def apply (b : Builder) : Event → Builder
  | .start name nameSpan pos => b.start name nameSpan pos
  | .attr a =>
    b.changeInnermost a.span.stop fun e => { e with attributes := e.attributes.push a }
  | .endStart pos selfClosing =>
    let ended := b.changeInnermost pos fun e =>
      { e with startTagClosed := true, selfClosing := selfClosing }
    if selfClosing then { ended with opened := b.opened.tail } else ended
  | .extend pos => b.changeInnermost pos id
  | .text raw span => b.push span (.text raw)
  | .close name span => b.close name span

/-- the tree, whose open elements end at `width` -/
def finish (b : Builder) (width : Nat) : Tree :=
  ⟨abandon width b.opened b.nodes, b.roots, width⟩

end Builder

/-- the tree of a document of the given width -/
def Tree.ofEvents (events : List Event) (width : Nat) : Tree :=
  (events.foldl Builder.apply .empty).finish width

end ProjectSense
