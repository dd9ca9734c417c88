import ProjectSense.Document.Basic
import ProjectSense.Text.Utf8
import ProjectSense.Workspace.Listing

/-!
# File trees

The contents of a disk, from its root down.  A path leads through the tree piece by piece; on the
way every piece needs a folder to stand in.

* `FileTree.locate`: the file or folder that a path leads to.
* `FileTree.filesAt`: the files under a path, in path order.
* `FileTree.listing`, `FileTree.sdkIn`: what a document sees of a disk.
-/

namespace ProjectSense

inductive FileTree where
  | file (bytes : List UInt8)
  | folder (entries : List (String × FileTree))
deriving Repr

namespace FileTree

def empty : FileTree := folder []

instance : Inhabited FileTree := ⟨empty⟩

def isFolder : FileTree → Bool
  | file _ => false
  | folder _ => true

/-- what a folder holds, by name -/
def entries : FileTree → List (String × FileTree)
  | file _ => []
  | folder entries => entries

/-! ### Building trees -/

/-- the entries with the one of that name changed; one that is not there is an empty folder -/
def changeEntry (name : String) (f : FileTree → FileTree) :
    List (String × FileTree) → List (String × FileTree)
  | [] => [(name, f empty)]
  | e :: es => if e.1 = name then (name, f e.2) :: es else e :: changeEntry name f es

/-- changes what stands at the end of a chain of names, with folders on the way -/
def change (f : FileTree → FileTree) : List String → FileTree → FileTree
  | [], t => f t
  | name :: names, t => folder (changeEntry name (change f names) t.entries)

def addFile (t : FileTree) (names : List String) (bytes : List UInt8) : FileTree :=
  change (fun _ => file bytes) names t

def addFolder (t : FileTree) (names : List String) : FileTree := change id names t

/-! ### Following paths -/

/-- what the pieces of a path lead to.  `above` are the folders around `t`, the innermost first; the
root is its own parent. -/
def walk : List FileTree → FileTree → List String → Except IoError FileTree
  | _, t, [] => .ok t
  | _, file _, _ :: _ => .error .notADirectory
  | above, folder entries, piece :: pieces =>
    if piece = "" || piece = "." then walk above (folder entries) pieces
    else if piece = ".." then
      match above with
      | [] => walk [] (folder entries) pieces
      | parent :: above => walk above parent pieces
    else match entries.lookup piece with
      | some child => walk (folder entries :: above) child pieces
      | none => .error .notFound

/-- what a path leads to, seen from the root -/
def locate (root : FileTree) (path : String) : Except IoError FileTree :=
  if path.isEmpty then .error .notFound
  else walk [] root ((Text.splitOn Path.isSlash path.toList).map String.ofList)

def isFolderAt (root : FileTree) (path : String) : Bool :=
  match root.locate path with
  | .ok t => t.isFolder
  | .error _ => false

/-- the text of a file, which has to be UTF-8 -/
def decodeText (bytes : List UInt8) : Except IoError String :=
  match Text.Utf8.decode? bytes with
  | some text => .ok text
  | none => .error .notText

def readText (root : FileTree) (path : String) : Except IoError String := do
  match ← root.locate path with
  | file bytes => decodeText bytes
  | folder _ => .error .isADirectory

def listFolder (root : FileTree) (path : String) : Except IoError (List DirectoryEntry) := do
  match ← root.locate path with
  | file _ => .error .notADirectory
  | folder entries =>
    pure (Listing.sorted (entries.map fun (name, t) => Listing.entryIn path name t.isFolder))

/-! ### Searching -/

mutual

/-- the files of a tree that stands at a path whose own paths are accepted: those of each entry
together, the entries by name -/
def filesAt (accepts : String → Bool) (path : String) : FileTree → List (String × List UInt8)
  | file bytes => if accepts path then [(path, bytes)] else []
  | folder entries =>
    ((filesOfEntries accepts path entries).mergeSort fun a b => a.1 ≤ b.1).flatMap (·.2)

/-- the accepted files of each entry, under its name -/
def filesOfEntries (accepts : String → Bool) (path : String) :
    List (String × FileTree) → List (String × List (String × List UInt8))
  | [] => []
  | (name, t) :: es =>
    (name, filesAt accepts (joinPath path name) t) :: filesOfEntries accepts path es

end

/-! ### What documents see -/

/-- the folders of the disk -/
def listing (root : FileTree) : Listing := ⟨root.isFolderAt, root.listFolder⟩

/-- SDKs that stand in a folder, in folders of their names -/
def sdkIn (root : FileTree) (sdks : String) : SdkLocator := fun sdk =>
  let path := joinPath (joinPath sdks sdk.name) "Sdk"
  if root.isFolderAt path then some path else none

end FileTree
end ProjectSense
