import ProjectSense.Text.Width

/-!
# Lines and columns

A text's lines start at its first byte and after every line feed.  Lines and columns count from
zero, columns in bytes.  Offsets past the end stand for the end.

* `LineIndex.position`: the line and column of an offset.
* `LineIndex.offset?`: the offset of a line and column, unless it exceeds 32 bits.
-/

namespace ProjectSense

/-- a line and a column of it -/
structure Position where
  line : Nat
  column : Nat
deriving DecidableEq, Repr

/-- where the lines of a text start, and how long it is -/
structure LineIndex where
  starts : List Nat
  width : Nat
deriving DecidableEq, Repr

namespace LineIndex

/-- the offsets after the line feeds of a text that begins at `pos` -/
def startsFrom (pos : Nat) : List Char → List Nat
  | [] => []
  | c :: cs =>
    if c = '\n' then (pos + 1) :: startsFrom (pos + 1) cs
    else startsFrom (pos + c.utf8Size) cs

def ofText (text : String) : LineIndex :=
  ⟨0 :: startsFrom 0 text.toList, Text.width text.toList⟩

def lineCount (index : LineIndex) : Nat := index.starts.length

/-- the last of the lines, counted from `line`, that starts at or before an offset -/
def locate (offset line start : Nat) : List Nat → Position
  | [] => ⟨line, offset - start⟩
  | next :: starts =>
    if next ≤ offset then locate offset (line + 1) next starts else ⟨line, offset - start⟩

/-- the line and column of an offset -/
def position (index : LineIndex) (offset : Nat) : Position :=
  locate (min offset index.width) 0 0 index.starts.tail

/-- offsets fit in 32 bits -/
def maxOffset : Nat := UInt32.size - 1

/-- the offset of a line and column, at most the text's end; `none` when the line's start and the
column add up to more than an offset can hold -/
def offset? (index : LineIndex) (p : Position) : Option Nat :=
  match index.starts[p.line]? with
  | none => some index.width
  | some start =>
    if start + p.column ≤ maxOffset then some (min (start + p.column) index.width) else none

end LineIndex
end ProjectSense
