import ProjectSense.Text.Break

/-!
# Paths in projects

Project files separate path segments with `\` or `/`; results use `/`.  A path may begin with a
drive, a letter and `:`.

* `Path.normalize`: the same place without `.`, without repeated separators, and with `..` folded.
* `Path.resolve?`: the path seen from a base directory, if it names one place.
-/

namespace ProjectSense.Path

def isSeparator (c : Char) : Bool := c == '/' || c == '\\'

/-- the drive in front, and the rest -/
def splitDrive : List Char → List Char × List Char
  | c :: ':' :: rest => if c.isAlpha then ([c, ':'], rest) else ([], c :: ':' :: rest)
  | path => ([], path)

def startsAtRoot : List Char → Bool
  | c :: _ => isSeparator c
  | [] => false

def endsInSeparator (path : List Char) : Bool := path.getLast?.any isSeparator

/-- begins at a root or on a drive -/
def isRooted (path : List Char) : Bool :=
  startsAtRoot path || !(splitDrive path).1.isEmpty

/-- enters a segment from the segments walked so far, the last one first -/
def enter (absolute : Bool) (walked : List (List Char)) (segment : List Char) :
    List (List Char) :=
  if segment = [] ∨ segment = ['.'] then walked
  else if segment = ['.', '.'] then
    match walked with
    | last :: before => if last = ['.', '.'] then segment :: walked else before
    | [] => if absolute then [] else [segment]
  else segment :: walked

/-- the segments that are left after walking a path -/
def walk (absolute : Bool) (segments : List (List Char)) : List (List Char) :=
  (segments.foldl (enter absolute) []).reverse

/-- the segments with `/` between them -/
def joinSegments (segments : List (List Char)) : List Char := ['/'].intercalate segments

/-- the normal form of what follows the drive -/
def normalizeRest (rest : List Char) : List Char :=
  let absolute := startsAtRoot rest
  let segments := walk absolute (Text.splitOn isSeparator rest)
  (if absolute then ['/'] else []) ++ joinSegments segments ++
    (if 1 < rest.length ∧ endsInSeparator rest ∧ segments ≠ [] then ['/'] else [])

/-- the normal form of a path -/
def normalize (path : List Char) : List Char :=
  let parts := splitDrive path
  let out := parts.1 ++ normalizeRest parts.2
  if out = [] then ['.'] else out

/-- a wildcard, or a character that no path holds -/
def isWild (c : Char) : Bool := c == '*' || c == '?' || c == '\x00'

/-- the place that `path` names from `base`; `none` when it may name several -/
def resolve? (path base : List Char) : Option (List Char) :=
  if path.any isWild then none
  else if isRooted path || base.isEmpty then some (normalize path)
  else some (normalize (base ++ '/' :: path))

end ProjectSense.Path

namespace ProjectSense

/-- the normal form of a path -/
def normalizePath (path : String) : String := String.ofList (Path.normalize path.toList)

/-- the place that a path names from a base directory -/
def resolvePath? (path base : String) : Option String :=
  (Path.resolve? path.toList base.toList).map String.ofList

end ProjectSense
