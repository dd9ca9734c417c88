/-!
# Blanks

The characters that separate without meaning: the `White_Space` class, 25 characters.

* `isBlank`, `trim`: the characters, and a text without them at its ends.
-/

namespace ProjectSense.Text

/-- the ends of the runs of `White_Space` characters -/
def blankRuns : List (Nat × Nat) :=
  [(0x09, 0x0D), (0x20, 0x20), (0x85, 0x85), (0xA0, 0xA0), (0x1680, 0x1680), (0x2000, 0x200A),
    (0x2028, 0x2029), (0x202F, 0x202F), (0x205F, 0x205F), (0x3000, 0x3000)]

/-- the code point lies in one of the runs -/
def inRuns (runs : List (Nat × Nat)) (n : Nat) : Bool :=
  runs.any fun r => r.1 ≤ n && n ≤ r.2

def isBlank (c : Char) : Bool := inRuns blankRuns c.toNat

/-- the text without the blanks in front -/
def trimStart (cs : List Char) : List Char := cs.dropWhile isBlank

/-- the text without the blanks at its end -/
def trimEnd (cs : List Char) : List Char := (cs.reverse.dropWhile isBlank).reverse

def trim (cs : List Char) : List Char := trimEnd (trimStart cs)

end ProjectSense.Text

namespace ProjectSense

/-- the string without blanks at either end -/
def trimmed (s : String) : String := String.ofList (Text.trim s.toList)

end ProjectSense
