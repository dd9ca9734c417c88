/-!
# Numbers in texts

Unsigned numbers are written in digits of a base, with a `+` in front if one likes, and are
refused above a limit.

* `number?`: the number that a text writes.
-/

namespace ProjectSense

/-- the value of a hexadecimal digit -/
def hexValue? (c : Char) : Option Nat :=
  if '0' ≤ c ∧ c ≤ '9' then some (c.toNat - '0'.toNat)
  else if 'a' ≤ c ∧ c ≤ 'f' then some (c.toNat - 'a'.toNat + 10)
  else if 'A' ≤ c ∧ c ≤ 'F' then some (c.toNat - 'A'.toNat + 10)
  else none

namespace Number

/-- the value of a digit of the base, at most sixteen -/
def digit? (base : Nat) (c : Char) : Option Nat := (hexValue? c).filter (· < base)

/-- the number that `n` followed by the digits writes; no step may exceed the limit -/
def extend? (base limit n : Nat) : List Char → Option Nat
  | [] => some n
  | c :: cs =>
    match digit? base c with
    | some d => if n * base + d ≤ limit then extend? base limit (n * base + d) cs else none
    | none => none

/-- the greatest number of 32 bits -/
def maxWord : Nat := UInt32.size - 1

end Number

/-- the number that the characters write in a base -/
def number? (base limit : Nat) (cs : List Char) : Option Nat :=
  match cs with
  | [] | ['+'] => none
  | '+' :: digits => Number.extend? base limit 0 digits
  | digits => Number.extend? base limit 0 digits

/-- the decimal number of 32 bits that the characters write -/
def word? (cs : List Char) : Option UInt32 := (number? 10 Number.maxWord cs).map UInt32.ofNat

end ProjectSense
