import ProjectSense.Text.Utf8
import ProjectSense.Text.Number

/-!
# Escapes

In expressions `%` with two hexadecimal digits stands for a byte.  Characters with a meaning are
written so.

* `unescape`, `escape`: reading and writing escapes.
-/

namespace ProjectSense

namespace Escape

/-- the digit that a byte stands for -/
def digit? (b : UInt8) : Option Nat := hexValue? (Char.ofNat b.toNat)

/-- the byte that two characters after a `%` denote; a `+` sign may stand for the first digit -/
def byte? (high low : UInt8) : Option UInt8 :=
  if high = 43 then (digit? low).map UInt8.ofNat
  else match digit? high, digit? low with
    | some h, some l => some (UInt8.ofNat (16 * h + l))
    | _, _ => none

/-- the bytes with every well-formed escape replaced; `%` is byte 37 -/
def decodeBytes : List UInt8 → List UInt8
  | 37 :: high :: low :: rest =>
    match byte? high low with
    | some b => b :: decodeBytes rest
    | none => 37 :: decodeBytes (high :: low :: rest)
  | b :: rest => b :: decodeBytes rest
  | [] => []
termination_by bs => bs.length

/-- the characters that are written as escapes -/
def special : List Char := ['%', '*', '?', '@', '$', '(', ')', ';', '\'']

/-- the lower-case hexadecimal digit of a number below 16 -/
def hexDigit (n : Nat) : Char := if n < 10 then Char.ofNat (48 + n) else Char.ofNat (87 + n)

def encodeChar (c : Char) : List Char :=
  if c ∈ special then ['%', hexDigit (c.toNat / 16), hexDigit (c.toNat % 16)] else [c]

end Escape

/-- the text that an escaped text denotes -/
def unescape (raw : String) : String :=
  String.ofList (Text.Utf8.decode (Escape.decodeBytes (Text.Utf8.encode raw.toList)))

/-- the escaped form of a text -/
def escape (value : String) : String := String.ofList (value.toList.flatMap Escape.encodeChar)

end ProjectSense
