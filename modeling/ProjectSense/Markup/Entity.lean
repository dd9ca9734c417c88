import ProjectSense.Text.Break
import ProjectSense.Text.Number

/-!
# Entities

The five predefined entities and numeric character references of markup text.

* `decodeEntities`: the text with its references replaced; what is no reference stays.
-/

namespace ProjectSense

namespace Entity

/-- the character with a scalar value -/
def scalar? (n : Nat) : Option Char := if n.isValidChar then some (Char.ofNat n) else none

/-- the character that a reference stands for, from the text between `&` and `;` -/
def char? (entity : List Char) : Option Char :=
  match entity with
  | ['a', 'm', 'p'] => some '&'
  | ['l', 't'] => some '<'
  | ['g', 't'] => some '>'
  | ['q', 'u', 'o', 't'] => some '"'
  | ['a', 'p', 'o', 's'] => some '\''
  | '#' :: 'x' :: digits => number? 16 Number.maxWord digits >>= scalar?
  | '#' :: digits => number? 10 Number.maxWord digits >>= scalar?
  | _ => none

/-- the characters with every reference replaced -/
def decode : List Char → List Char
  | [] => []
  | '&' :: cs =>
    match h : Text.breakOn [';'] cs with
    | (entity, some rest) =>
      match char? entity with
      | some c =>
        have := Text.length_breakOn_lt (List.cons_ne_nil _ _) h
        c :: decode rest
      | none => '&' :: decode cs
    | (_, none) => '&' :: cs
  | c :: cs => c :: decode cs
termination_by cs => cs.length

end Entity

def decodeEntities (raw : String) : String := String.ofList (Entity.decode raw.toList)

end ProjectSense
