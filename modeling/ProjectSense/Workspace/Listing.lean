import ProjectSense.Text.Name
import ProjectSense.Path.Component

/-!
# Directory listings

A view of the directories around a project: which there are, and what they hold.

* `Listing.ofTable`: the view that a table of directories gives.
-/

namespace ProjectSense

/-- an entry of a directory with its own path -/
structure DirectoryEntry where
  name : String
  path : String
  isFolder : Bool
deriving DecidableEq, Repr, Inhabited

/-- why a file or directory cannot be read -/
inductive IoError where
  | notFound
  | notADirectory
  | isADirectory
  | notText
deriving DecidableEq, Repr

def IoError.message : IoError → String
  | notFound => "No such file or directory (os error 2)"
  | notADirectory => "Not a directory (os error 20)"
  | isADirectory => "Is a directory (os error 21)"
  | notText => "stream did not contain valid UTF-8"

/-- a view of directories -/
structure Listing where
  isFolder : String → Bool
  /-- the entries of a directory, sorted by name -/
  entries? : String → Except IoError (List DirectoryEntry)

namespace Listing

def sorted (entries : List DirectoryEntry) : List DirectoryEntry :=
  entries.mergeSort fun a b => a.name ≤ b.name

/-- the text of a directory without slashes at its end, unless it is slashes only -/
def tableKey (dir : String) : String :=
  match (dir.toList.reverse.dropWhile Path.isSlash).reverse with
  | [] => if dir.isEmpty then "" else "/"
  | cs => String.ofList cs

/-- the entry of that name in a directory -/
def entryIn (dir name : String) (isFolder : Bool) : DirectoryEntry :=
  ⟨name, if dir.endsWith "/" then dir ++ name else dir ++ "/" ++ name, isFolder⟩

/-- the directories of a table, by their text; those that fail exist and cannot be listed -/
def ofTable (table : List (String × List (String × Bool))) (failing : List String) : Listing where
  isFolder dir := table.any (·.1 = tableKey dir) || failing.contains (tableKey dir)
  entries? dir :=
    if failing.contains (tableKey dir) then .error .notADirectory
    else match table.lookup (tableKey dir) with
      | some rows => .ok (sorted (rows.map fun (name, isFolder) => entryIn dir name isFolder))
      | none => .error .notFound

/-- a view without any directory -/
def empty : Listing := ofTable [] []

end Listing
end ProjectSense
