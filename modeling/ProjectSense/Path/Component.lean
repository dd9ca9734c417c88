import ProjectSense.Text.Break

/-!
# Paths by component

Two paths are the same when their components are: repeated `/`, inner and trailing `.` and a
trailing `/` do not matter, while a leading `.` and every `..` do.

* `Path.components`: what a path consists of.
* `Path.parent?`, `Path.fileName?`, `Path.join`: taking paths apart and putting them together.
-/

namespace ProjectSense.Path

inductive Component where
  | root
  /-- a leading `.` -/
  | here
  | up
  | named (name : List Char)
deriving DecidableEq, Repr

def isSlash (c : Char) : Bool := c == '/'

/-- the first component if it is the root or a leading `.`, and the rest of the path -/
def splitLead : List Char → List Char × List Char
  | '/' :: rest => (['/'], rest)
  | ['.'] => (['.'], [])
  | '.' :: '/' :: rest => (['.'], '/' :: rest)
  | path => ([], path)

/-- a piece between slashes that is no component -/
def isNoise (piece : List Char) : Bool := piece = [] || piece = ['.']

def ofPiece (piece : List Char) : Component := if piece = ['.', '.'] then .up else .named piece

def lead : List Char → List Component
  | ['/'] => [.root]
  | ['.'] => [.here]
  | _ => []

def components (path : List Char) : List Component :=
  let parts := splitLead path
  lead parts.1 ++ ((Text.splitOn isSlash parts.2).filter fun p => !isNoise p).map ofPiece

/-- the path without its last component; the root and the empty path have none to lose -/
def parent? (path : List Char) : Option (List Char) :=
  let parts := splitLead path
  match (Text.splitOn isSlash parts.2).reverse.dropWhile isNoise with
  | _ :: before => some (parts.1 ++ ['/'].intercalate (before.dropWhile isNoise).reverse)
  | [] => if parts.1 = ['.'] then some [] else none

/-- the last component if it is a name -/
def fileName? (path : List Char) : Option (List Char) :=
  match (components path).getLast? with
  | some (.named name) => some name
  | _ => none

/-- the name before its last dot, and what follows the dot; a dot in front ends no stem -/
def splitExtension (name : List Char) : List Char × Option (List Char) :=
  match Text.uptoLast (· == '.') name with
  | [] | ['.'] => (name, none)
  | stem => (stem.dropLast, some (Text.afterLast (· == '.') name))

def fileStem? (path : List Char) : Option (List Char) :=
  (fileName? path).map fun name => (splitExtension name).1

def extension? (path : List Char) : Option (List Char) :=
  fileName? path >>= fun name => (splitExtension name).2

/-- the path seen from a directory -/
def join (dir path : List Char) : List Char :=
  if path.head? = some '/' then path
  else if dir = [] || dir.getLast? = some '/' then dir ++ path
  else dir ++ '/' :: path

end ProjectSense.Path

namespace ProjectSense

/-- the strings name the same path -/
def samePath (a b : String) : Bool := Path.components a.toList = Path.components b.toList

/-- the directory that holds a file; `.` for a bare name -/
def directoryOf (path : String) : String :=
  match Path.parent? path.toList with
  | some (c :: cs) => String.ofList (c :: cs)
  | _ => "."

def joinPath (dir path : String) : String := String.ofList (Path.join dir.toList path.toList)

end ProjectSense
