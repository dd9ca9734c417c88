import ProjectSense.Text.Span

/-!
# Expressions

Values of a project are expressions: literal text mixed with references to properties, items and
metadata, possibly a list with `;` between its entries.  Spans are offsets into the project's text.

* `Expr.findAt`: the innermost node that an offset touches, references before text.
* `Expr.lastEntry`: what ends the expression.
-/

namespace ProjectSense

/-- a word with its place; empty where the word is still to be typed -/
structure Word where
  text : String
  span : Span
deriving DecidableEq, Repr

/-- what a function is called on -/
inductive Callee where
  | property (name : String)
  | klass (name : String)
  | item (name : String)
deriving DecidableEq, Repr

inductive Expr where
  /-- literal text, escapes and all -/
  | text (span : Span) (raw : String)
  | property (span : Span) (name : Word) (complete : Bool)
  | item (span : Span) (name : Word) (transforms : List Expr) (separator : Option String)
    (complete : Bool)
  /-- metadata, of the item named or of the one at hand -/
  | metadata (span : Span) (owner : Option Word) (name : Word) (complete : Bool)
  | call (span : Span) (callee : Callee) (calleeSpan : Span) (name : Word)
  | concat (span : Span) (parts : List Expr)
  | list (span : Span) (entries : List Expr)
deriving Repr

namespace Expr

def span : Expr → Span
  | .text s _ | .property s _ _ | .item s _ _ _ _ | .metadata s _ _ _ | .call s _ _ _
  | .concat s _ | .list s _ => s

def children : Expr → List Expr
  | .item _ _ transforms _ _ => transforms
  | .concat _ parts => parts
  | .list _ entries => entries
  | _ => []

def isText : Expr → Bool
  | .text .. => true
  | _ => false

/-- the empty text at `pos` -/
def emptyText (pos : Nat) : Expr := .text (.empty pos) ""

/-- the later of two finds, unless it is text: neighbours share an offset, and there the reference
is meant -/
def later : Option Expr → Option Expr → Option Expr
  | none, b => b
  | a, none => a
  | some a, some b => some (if b.isText then a else b)

mutual
/-- the innermost node whose span touches the offset -/
def findAt (offset : Nat) : Expr → Option Expr
  | .item s name links sep complete =>
    if s.touches offset then
      some ((findIn offset links).getD (.item s name links sep complete))
    else none
  | .concat s parts =>
    if s.touches offset then some ((findIn offset parts).getD (.concat s parts)) else none
  | .list s entries =>
    if s.touches offset then some ((findIn offset entries).getD (.list s entries)) else none
  | .text s raw => if s.touches offset then some (.text s raw) else none
  | .property s name complete =>
    if s.touches offset then some (.property s name complete) else none
  | .metadata s owner name complete =>
    if s.touches offset then some (.metadata s owner name complete) else none
  | .call s callee calleeSpan name =>
    if s.touches offset then some (.call s callee calleeSpan name) else none

/-- the find among siblings -/
def findIn (offset : Nat) : List Expr → Option Expr
  | [] => none
  | e :: es => later (findAt offset e) (findIn offset es)
end

/-- the last entry of a list, or the expression itself -/
def lastEntry : Expr → Expr
  | .list s entries => entries.getLast?.getD (.list s entries)
  | e => e

theorem findAt_eq (offset : Nat) (e : Expr) :
    e.findAt offset =
      if e.span.touches offset then some ((findIn offset e.children).getD e) else none := by
  cases e <;> simp [findAt, span, children, findIn]

end Expr
end ProjectSense
