import ProjectSense.Text.Name

/-!
# Maps from names

Values under names, in the order in which the names were first given.  A name once given keeps its
spelling and its place.

* `NameMap.find?`: the value under any spelling of a name.
* `NameMap.upsert`: how all changes are made.
-/

namespace ProjectSense

structure NameMap (β : Type) where
  entries : List (Name × β)
deriving DecidableEq, Repr

namespace NameMap

variable {β : Type}

def empty : NameMap β := ⟨[]⟩

instance : Inhabited (NameMap β) := ⟨empty⟩

/-- the value under a name -/
def find? (m : NameMap β) (name : Name) : Option β :=
  (m.entries.find? (·.1.same name)).map (·.2)

/-- changes the value under `name` in entries, or adds one at the end -/
def upsertIn (name : Name) (fresh : β) (change : β → β) : List (Name × β) → List (Name × β)
  | [] => [(name, fresh)]
  | e :: es =>
    if e.1.same name then (e.1, change e.2) :: es else e :: upsertIn name fresh change es

/-- changes the value under `name`, or puts `fresh` under it if there is none -/
def upsert (m : NameMap β) (name : Name) (fresh : β) (change : β → β) : NameMap β :=
  ⟨upsertIn name fresh change m.entries⟩

/-- puts a value under a name; a value that stood there goes -/
def insert (m : NameMap β) (name : Name) (value : β) : NameMap β :=
  m.upsert name value (fun _ => value)

/-- puts a value under a name that has none -/
def insertIfNew (m : NameMap β) (name : Name) (value : β) : NameMap β :=
  m.upsert name value id

/-- the pairs put in one after the other -/
def ofList (pairs : List (Name × β)) : NameMap β :=
  pairs.foldl (fun m p => m.insert p.1 p.2) empty

def values (m : NameMap β) : List β := m.entries.map (·.2)

def map {γ : Type} (f : β → γ) (m : NameMap β) : NameMap γ :=
  ⟨m.entries.map fun e => (e.1, f e.2)⟩

end NameMap
end ProjectSense
