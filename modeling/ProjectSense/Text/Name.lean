import ProjectSense.Text.Utf8

/-!
# Names

Names of elements, attributes, properties, items and metadata keep the spelling they were written
with, and are the same when they differ in the case of ASCII letters only.

* `Name.same_iff`: names are the same just when they fold to the same characters.
* `Name.same_refl`, `Name.same_symm`, `Name.same_trans`: being the same is an equivalence.
* `distinctNames_eq_eraseDupsBy`: names that are gathered stand in order of first occurrence.
-/

namespace ProjectSense

/-- the characters with `A` to `Z` lowered -/
def foldCase (s : String) : List Char := s.toList.map Char.toLower

/-- the string with `A` to `Z` lowered -/
def lowered (s : String) : String := String.ofList (foldCase s)

/-- equal up to the case of ASCII letters -/
def sameName (a b : String) : Bool := foldCase a == foldCase b

@[simp] theorem sameName_iff {a b : String} : sameName a b = true ↔ foldCase a = foldCase b := by
  simp [sameName]

theorem sameName_refl (a : String) : sameName a a = true := by simp

/-- a name as it was spelled -/
structure Name where
  spelling : String
deriving DecidableEq, Repr, Inhabited

namespace Name

/-- the same name, whatever the case of its ASCII letters -/
def same (a b : Name) : Bool := sameName a.spelling b.spelling

/-- the string spells the name -/
def spelledBy (a : Name) (s : String) : Bool := sameName a.spelling s

def isEmpty (a : Name) : Bool := a.spelling.isEmpty

/-- the bytes under which a name is stored: folded, then a byte that ends no text -/
def key (a : Name) : List UInt8 := Text.Utf8.encode (foldCase a.spelling) ++ [0xFF]

@[simp] theorem same_iff {a b : Name} :
    a.same b = true ↔ foldCase a.spelling = foldCase b.spelling := sameName_iff

theorem same_refl (a : Name) : a.same a = true := by simp

theorem same_symm {a b : Name} (h : a.same b = true) : b.same a = true := by simp_all

theorem same_trans {a b c : Name} (h : a.same b = true) (g : b.same c = true) :
    a.same c = true := by simp_all

end Name

/-- the values with `v` at the end unless they name it -/
def addName (values : List String) (v : String) : List String :=
  if values.any (sameName v) then values else values ++ [v]

/-- the values in order, each name once and as it was first spelled -/
def distinctNames (values : List String) : List String := values.foldl addName []

theorem foldl_addName_reverse (values names : List String) :
    values.foldl addName names.reverse = List.eraseDupsBy.loop sameName values names := by
  induction values generalizing names with
  | nil => rfl
  | cons v values ih =>
    rw [List.foldl_cons, addName, List.any_reverse, List.eraseDupsBy.loop]
    cases names.any (sameName v) with
    | true => exact ih names
    | false => exact List.reverse_cons ▸ ih (v :: names)

/-- gathering keeps the first spelling of each name, in order -/
theorem distinctNames_eq_eraseDupsBy (values : List String) :
    distinctNames values = values.eraseDupsBy sameName := foldl_addName_reverse values []

end ProjectSense
