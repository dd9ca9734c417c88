/-!
# Doubles

A decimal number is read as a double from its leading digits, as many as 64 bits hold: they are
rounded to a double, the power of ten behind them is rounded to one, and so is the product of the
two.  The number is refused if that product is beyond all doubles.

* `Double.round`: the nearest double of a number.
* `Double.Decimal.isFinite`: whether a number is read at all.
-/

namespace ProjectSense.Json
namespace Double

/-! ### Rounding -/

/-- what the last of 53 binary places of a number is worth -/
def unit (n : Nat) : Nat := Nat.pow 2 (n.log2 - 52)

/-- the nearest number of 53 binary places, the even one of two -/
def round (n : Nat) : Nat :=
  let places := n / unit n
  let rest := n % unit n
  (if unit n < 2 * rest ∨ (2 * rest = unit n ∧ places % 2 = 1) then places + 1 else places) * unit n

/-- from here on numbers round to no double -/
def bound : Nat := Nat.pow 2 1024 - Nat.pow 2 970

/-! ### Decimal numbers -/

/-- the greatest number of 64 bits -/
def maxDigits : Nat := UInt64.size - 1

/-- the number that digits continue, as long as 64 bits hold it, and the digits left over -/
def continued (n : Nat) : List Char → Nat × List Char
  | [] => (n, [])
  | c :: cs =>
    let m := n * 10 + (c.toNat - '0'.toNat)
    if m ≤ maxDigits then continued m cs else (n, c :: cs)

/-- digits and the power of ten behind them -/
structure Decimal where
  digits : Nat
  exponent : Int
deriving DecidableEq, Repr

namespace Decimal

/-- the leading digits of a number; each digit left out before the point counts in the exponent,
and so does each one taken after it -/
def ofDigits (whole fraction : List Char) (exponent : Int) : Decimal :=
  let (n, left) := continued 0 whole
  let (m, left') := continued n fraction
  ⟨m, exponent + left.length - (fraction.length - left'.length : Nat)⟩

/-- the number is read as a double; one with a negative exponent always is -/
def isFinite (d : Decimal) : Bool :=
  d.digits = 0 || d.exponent < 0 ||
    (d.exponent ≤ 308 && round d.digits * round (Nat.pow 10 d.exponent.toNat) < bound)

end Decimal
end Double
end ProjectSense.Json
