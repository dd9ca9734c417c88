import ProjectSense.Json.Basic
import ProjectSense.Json.Double
import ProjectSense.Text.Number

/-!
# Reading JSON

* `Json.parse?`: the value that a text writes, blanks around it allowed.
-/

namespace ProjectSense
namespace Json

def isSpace (c : Char) : Bool := c == ' ' || c == '\n' || c == '\t' || c == '\r'

/-! ### Texts -/

/-- the character that a backslash and this one stand for -/
def simpleEscape? : Char → Option Char
  | '"' => some '"'
  | '\\' => some '\\'
  | '/' => some '/'
  | 'b' => some '\x08'
  | 'f' => some '\x0c'
  | 'n' => some '\n'
  | 'r' => some '\r'
  | 't' => some '\t'
  | _ => none

/-- the 16-bit unit of four hexadecimal digits -/
def unit? (a b c d : Char) : Option Nat := number? 16 0xFFFF [a, b, c, d]

/-- the codes of a text up to its closing quote, and what follows it; escaped units stand for
themselves -/
def codes? : List Char → Option (List Nat × List Char)
  | '"' :: rest => some ([], rest)
  | '\\' :: 'u' :: a :: b :: c :: d :: rest =>
    if a = '+' then none
    else match unit? a b c d, codes? rest with
      | some u, some (codes, rest) => some (u :: codes, rest)
      | _, _ => none
  | '\\' :: e :: rest =>
    match simpleEscape? e, codes? rest with
    | some c, some (codes, rest) => some (c.toNat :: codes, rest)
    | _, _ => none
  | c :: rest =>
    if c.toNat < 0x20 || c = '\\' then none
    else (codes? rest).map fun r => (c.toNat :: r.1, r.2)
  | [] => none

/-- the text of the codes, surrogates taken in pairs -/
def ofCodes? : List Nat → Option (List Char)
  | [] => some []
  | [n] => if 0xD800 ≤ n ∧ n ≤ 0xDFFF then none else some [Char.ofNat n]
  | n :: m :: rest =>
    if 0xD800 ≤ n ∧ n ≤ 0xDBFF then
      if 0xDC00 ≤ m ∧ m ≤ 0xDFFF then
        (ofCodes? rest).map (Char.ofNat (0x10000 + (n - 0xD800) * 0x400 + (m - 0xDC00)) :: ·)
      else none
    else if 0xDC00 ≤ n ∧ n ≤ 0xDFFF then none
    else (ofCodes? (m :: rest)).map (Char.ofNat n :: ·)

/-- a text after its opening quote -/
def text? (cs : List Char) : Option (Option String × List Char) :=
  (codes? cs).map fun r => ((ofCodes? r.1).map String.ofList, r.2)

/-! ### Numbers -/

/-- the digits in front, at least one -/
def digits? (cs : List Char) : Option (List Char × List Char) :=
  match cs.takeWhile Char.isDigit with
  | [] => none
  | ds => some (ds, cs.dropWhile Char.isDigit)

/-- the whole part: zero alone, or digits that do not start with it -/
def whole? : List Char → Option (List Char × List Char)
  | '0' :: rest => if rest.head?.any Char.isDigit then none else some (['0'], rest)
  | cs => digits? cs

/-- the digits after the point, if there is one -/
def fraction? : List Char → Option (List Char × List Char)
  | '.' :: rest => digits? rest
  | cs => some ([], cs)

/-- the exponent: whether it is negative, and its digits -/
def exponent? : List Char → Option ((Bool × List Char) × List Char)
  | e :: rest =>
    if e = 'e' ∨ e = 'E' then
      match rest with
      | '-' :: rest => (digits? rest).map fun r => ((true, r.1), r.2)
      | '+' :: rest => (digits? rest).map fun r => ((false, r.1), r.2)
      | rest => (digits? rest).map fun r => ((false, r.1), r.2)
    else some ((false, []), e :: rest)
  | [] => some ((false, []), [])

/-- a number after its sign: whether a double can hold it -/
def magnitude? (cs : List Char) : Option (Bool × List Char) := do
  let (whole, cs) ← whole? cs
  let (fraction, cs) ← fraction? cs
  let ((negative, exponent), cs) ← exponent? cs
  let size : Int := exponent.foldl (fun n c => n * 10 + (c.toNat - '0'.toNat)) 0
  pure ((Double.Decimal.ofDigits whole fraction (if negative then -size else size)).isFinite, cs)

def numberAt? : List Char → Option (Bool × List Char)
  | '-' :: cs => magnitude? cs
  | cs => magnitude? cs

/-! ### Values -/

/-- what follows the pattern -/
def after? (pattern : String) (cs : List Char) : Option (List Char) :=
  if pattern.toList.isPrefixOf cs then some (cs.drop pattern.length) else none

/-- a value that is no container -/
def scalar? (cs : List Char) : Option (Json × List Char) :=
  match cs with
  | '"' :: rest => (text? rest).map fun r => (string r.1, r.2)
  | 'n' :: _ => (after? "null" cs).map fun r => (null, r)
  | 't' :: _ => (after? "true" cs).map fun r => (bool true, r)
  | 'f' :: _ => (after? "false" cs).map fun r => (bool false, r)
  | _ => (numberAt? cs).map fun r => (number r.1, r.2)

/-- a container whose beginning has been read -/
inductive Open where
  | array (entries : List Json)
  | object (members : List (Option String × Json)) (key : Option String)

/-- the open container with one more value in it; entries stand in reverse -/
def Open.add (v : Json) : Open → Open
  | array entries => array (v :: entries)
  | object members key => object ((key, v) :: members) key

/-- the value of a container that ends -/
def Open.close : Open → Json
  | array entries => .array entries.reverse
  | object members _ => .object members.reverse

/-- what the text is expected to go on with -/
inductive Expect where
  | value
  /-- a value, or the end of an array just begun -/
  | valueOrEnd
  /-- a key, or the end of an object just begun -/
  | keyOrEnd
  | key
  /-- a comma or an end -/
  | next
deriving DecidableEq

/-- reads on inside the open containers, the innermost first; `fuel` bounds the steps -/
def readOn : Nat → Expect → List Open → List Char → Option Json
  | 0, _, _, _ => none
  | fuel + 1, expect, stack, cs =>
    let cs := cs.dropWhile isSpace
    let put (v : Json) (cs : List Char) : Option Json :=
      match stack with
      | [] => if (cs.dropWhile isSpace).isEmpty then some v else none
      | top :: outer => readOn fuel .next (top.add v :: outer) cs
    let finish (cs : List Char) : Option Json :=
      match stack with
      | [] => none
      | [top] => if (cs.dropWhile isSpace).isEmpty then some top.close else none
      | top :: around :: outer => readOn fuel .next (around.add top.close :: outer) cs
    let readKey (cs : List Char) : Option Json :=
      match cs, stack with
      | '"' :: rest, .object members _ :: outer =>
        match text? rest with
        | some (key, rest) =>
          match rest.dropWhile isSpace with
          | ':' :: rest => readOn fuel .value (.object members key :: outer) rest
          | _ => none
        | none => none
      | _, _ => none
    match expect, cs with
    | .valueOrEnd, ']' :: rest => finish rest
    | .value, '[' :: rest | .valueOrEnd, '[' :: rest =>
      readOn fuel .valueOrEnd (.array [] :: stack) rest
    | .value, '\x7b' :: rest | .valueOrEnd, '\x7b' :: rest =>
      readOn fuel .keyOrEnd (.object [] none :: stack) rest
    | .value, cs | .valueOrEnd, cs =>
      match scalar? cs with
      | some (v, rest) => put v rest
      | none => none
    | .keyOrEnd, '\x7d' :: rest => finish rest
    | .keyOrEnd, cs | .key, cs => readKey cs
    | .next, c :: rest =>
      match c, stack with
      | ']', .array _ :: _ => finish rest
      | ',', .array _ :: _ => readOn fuel .value stack rest
      | '\x7d', .object .. :: _ => finish rest
      | ',', .object .. :: _ => readOn fuel .key stack rest
      | _, _ => none
    | .next, [] => none

/-- the value that a text writes -/
def parse? (text : String) : Option Json :=
  readOn (text.toList.length + 1) .value [] text.toList

end Json
end ProjectSense
