import ProjectSense.Text.Visible

/-!
# Texts in quotes

A text in quotes stays on one line and shows every character: quotes and backslashes have a
backslash in front, and what does not show by itself is written by a letter or by its number.

* `Text.written`: how one character is written.
* `quoted`: the text.
-/

namespace ProjectSense
namespace Text

/-- the letter that stands for a character after a backslash -/
def escapeLetter? : Char → Option Char
  | '\x00' => some '0'
  | '\t' => some 't'
  | '\n' => some 'n'
  | '\r' => some 'r'
  | '"' => some '"'
  | '\\' => some '\\'
  | _ => none

/-- the number of a character, in hexadecimal -/
def byNumber (c : Char) : List Char :=
  ['\\', 'u', '\x7b'] ++ Nat.toDigits 16 c.toNat ++ ['\x7d']

/-- how a character is written in quotes -/
def written (c : Char) : List Char :=
  match escapeLetter? c with
  | some letter => ['\\', letter]
  | none => if isVisible c then [c] else byNumber c

end Text

/-- the text in quotes -/
def quoted (s : String) : String := "\"" ++ String.ofList (s.toList.flatMap Text.written) ++ "\""

end ProjectSense
