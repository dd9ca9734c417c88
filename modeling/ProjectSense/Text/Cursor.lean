import ProjectSense.Text.Width
import ProjectSense.Text.Break
import ProjectSense.Text.Blank

/-!
# Reading positions

A cursor is the rest of a text with the offset at which it starts.  Every step returns what it
passed and the cursor after it; no step goes back.

* `Cursor.length_takeWhile_le`, `Cursor.length_past_le`: the rest never grows.
-/

namespace ProjectSense

structure Cursor where
  pos : Nat
  rest : List Char
deriving DecidableEq, Repr

namespace Cursor

open Text (width)

/-- passes the characters while they satisfy `p` -/
def takeWhile (p : Char → Bool) (c : Cursor) : List Char × Cursor :=
  (c.rest.takeWhile p, ⟨c.pos + width (c.rest.takeWhile p), c.rest.dropWhile p⟩)

def skipBlanks (c : Cursor) : Cursor := (c.takeWhile Text.isBlank).2

/-- passes `n` characters -/
def drop (n : Nat) (c : Cursor) : Cursor := ⟨c.pos + width (c.rest.take n), c.rest.drop n⟩

/-- passes the first occurrence of `pattern`, or everything; the text before the occurrence -/
def past (pattern : List Char) (c : Cursor) : List Char × Cursor :=
  match Text.breakOn pattern c.rest with
  | (before, some after) => (before, ⟨c.pos + width before + width pattern, after⟩)
  | (before, none) => (before, ⟨c.pos + width before, []⟩)

/-- the rest starts with `pattern` -/
def sees (c : Cursor) (pattern : String) : Bool := pattern.toList.isPrefixOf c.rest

theorem length_dropWhile_le {α : Type} (p : α → Bool) (cs : List α) :
    (cs.dropWhile p).length ≤ cs.length := (List.dropWhile_sublist p).length_le

theorem length_takeWhile_le (p : Char → Bool) (c : Cursor) :
    (c.takeWhile p).2.rest.length ≤ c.rest.length := length_dropWhile_le p c.rest

theorem length_skipBlanks_le (c : Cursor) : c.skipBlanks.rest.length ≤ c.rest.length :=
  length_takeWhile_le _ c

theorem length_drop (n : Nat) (c : Cursor) :
    (c.drop n).rest.length = c.rest.length - n := by simp [drop]

theorem length_drop_le (n : Nat) (c : Cursor) :
    (c.drop n).rest.length ≤ c.rest.length := by simp [drop]

theorem length_past_le {pattern : List Char} (hp : pattern ≠ []) (c : Cursor) :
    (c.past pattern).2.rest.length ≤ c.rest.length := by
  unfold past
  split
  · next h => exact Nat.le_of_lt (Text.length_breakOn_lt hp h)
  · simp

theorem length_past_lt {pattern : List Char} (hp : pattern ≠ []) (c : Cursor)
    (hc : c.rest ≠ []) : (c.past pattern).2.rest.length < c.rest.length := by
  unfold past
  split
  · next h => exact Text.length_breakOn_lt hp h
  · simpa using List.length_pos_iff.2 hc

end Cursor
end ProjectSense
