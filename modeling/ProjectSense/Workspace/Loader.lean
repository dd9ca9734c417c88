import ProjectSense.Schema.File
import ProjectSense.Workspace.FileTree
import ProjectSense.Workspace.Host

/-!
# Loading from a disk

Project files and schema files come into a host from a disk, one at a time or all that a folder
holds.  What cannot be loaded is reported, and the rest is loaded all the same.

* `Host.loadFile`, `Host.loadFolder`, `Host.loadSchemas`: the host after loading, and the report.
-/

namespace ProjectSense

/-- why not everything was loaded -/
inductive LoadError where
  | notFolder (path : String)
  | unreadable (path : String) (why : IoError)
  | files (failed : List (String × IoError))
  | schemas (failed : List (String × SchemaError))
deriving DecidableEq, Repr

namespace LoadError

/-- a count of failures, then a line for each -/
def list (what : String) (lines : List String) : String :=
  "Failed to load " ++ lines.length.repr ++ " " ++ what ++ ":\n  " ++ "\n  ".intercalate lines

def message : LoadError → String
  | notFolder path => "Directory not found: " ++ path
  | unreadable path why => "Failed to read " ++ path ++ ": " ++ why.message
  | files failed => list "file(s)" (failed.map fun f => f.1 ++ ": " ++ f.2.message)
  | schemas failed => list "schema file(s)" (failed.map fun f => f.1 ++ ": " ++ f.2.message)

end LoadError

/-! ### Which files -/

def projectExtensions : List String := ["proj", "csproj", "vbproj", "fsproj", "props", "targets"]

/-- how the names of schema files end, in lower case -/
def schemaEnding : String := ".buildschema.json"

def isProjectFile (path : String) : Bool :=
  (Path.extension? path.toList).any fun e => projectExtensions.any (sameName · (String.ofList e))

def isSchemaFile (path : String) : Bool :=
  (Path.fileName? path.toList).any fun name =>
    schemaEnding.toList.isSuffixOf (name.map Char.toLower)

/-! ### Schemas -/

namespace Schema

/-- the schema in a file, under the file's name without its extension -/
def ofBytes (path : String) (bytes : List UInt8) : Except SchemaError Schema :=
  match FileTree.decodeText bytes with
  | .ok text => parse (String.ofList ((Path.fileStem? path.toList).getD [])) text
  | .error why => .error (.io why.message)

/-- the schema in the file that a path leads to -/
def load (root : FileTree) (path : String) : Except SchemaError Schema :=
  match root.locate path with
  | .ok (.file bytes) => ofBytes path bytes
  | .ok (.folder _) => .error (.io IoError.isADirectory.message)
  | .error why => .error (.io why.message)

end Schema

/-! ### Loading -/

/-- the results that are there, under their paths -/
def succeeded {ε α : Type} (results : List (String × Except ε α)) : List (String × α) :=
  results.filterMap fun r => match r.2 with
    | .ok a => some (r.1, a)
    | .error _ => none

/-- the results that failed, under their paths -/
def failed {ε α : Type} (results : List (String × Except ε α)) : List (String × ε) :=
  results.filterMap fun r => match r.2 with
    | .ok _ => none
    | .error e => some (r.1, e)

/-- a report of failures, if there are any -/
def reportOf {ε : Type} (report : List (String × ε) → LoadError) :
    List (String × ε) → Option LoadError
  | [] => none
  | failures => some (report failures)

namespace Host

def loadFile (h : Host) (root : FileTree) (path : String) : Host × Option LoadError :=
  match root.readText path with
  | .ok text => (h.set path text, none)
  | .error why => (h, some (.unreadable path why))

/-- loads every project file under a folder -/
def loadFolder (h : Host) (root : FileTree) (path : String) : Host × Option LoadError :=
  match root.locate path with
  | .ok (.folder entries) =>
    let texts := ((FileTree.folder entries).filesAt isProjectFile path).map fun f =>
      (f.1, FileTree.decodeText f.2)
    (h.setAll (succeeded texts), reportOf .files (failed texts))
  | _ => (h, some (.notFolder path))

/-- adds every schema file under a folder, in path order -/
def loadSchemas (h : Host) (root : FileTree) (path : String) : Host × Option LoadError :=
  match root.locate path with
  | .ok (.folder entries) =>
    let schemas := ((FileTree.folder entries).filesAt isSchemaFile path).map fun f =>
      (f.1, Schema.ofBytes f.1 f.2)
    ((succeeded schemas).foldl (fun h s => h.addSchema s.2) h, reportOf .schemas (failed schemas))
  | _ => (h, some (.notFolder path))

end Host
end ProjectSense
