/-!
# JSON values

A value as it was written: objects keep every member in order, also members of one key.  Texts and
numbers that have no meaning, such as half a surrogate pair or a number beyond all doubles, are
values all the same; `Json.sound` leaves them out.

* `Json.depth`: how deep containers nest.
-/

namespace ProjectSense

inductive Json where
  | null
  | bool (b : Bool)
  /-- a number; `finite` tells whether a double can hold it -/
  | number (finite : Bool)
  /-- a text; `none` if its escapes name no text -/
  | string (text : Option String)
  | array (entries : List Json)
  | object (members : List (Option String × Json))
deriving Repr

namespace Json

mutual
/-- every text and every number in the value has a meaning -/
def sound : Json → Bool
  | null | bool _ => true
  | number finite => finite
  | string text => text.isSome
  | array entries => soundAll entries
  | object members => soundMembers members

def soundAll : List Json → Bool
  | [] => true
  | v :: vs => sound v && soundAll vs

def soundMembers : List (Option String × Json) → Bool
  | [] => true
  | (key, v) :: rest => key.isSome && sound v && soundMembers rest
end

mutual
/-- the number of containers around the deepest value -/
def depth : Json → Nat
  | array entries => depthAll entries + 1
  | object members => depthMembers members + 1
  | _ => 0

def depthAll : List Json → Nat
  | [] => 0
  | v :: vs => max (depth v) (depthAll vs)

def depthMembers : List (Option String × Json) → Nat
  | [] => 0
  | (_, v) :: rest => max (depth v) (depthMembers rest)
end

end Json
end ProjectSense
