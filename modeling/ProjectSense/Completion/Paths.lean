import ProjectSense.Completion.Item
import ProjectSense.Document.Resolve

/-!
# Completing paths

The text typed so far stands for directories, whose entries are the candidates.  Property
references stand for every value that they can take.

* `Document.pathsOf`: the paths that an expression stands for.
* `Document.fileCandidates?`: the entries to offer for a value that is a path.
-/

namespace ProjectSense

/-- the text without its last `n` characters -/
def dropLastChars (n : Nat) (cs : List Char) : List Char := cs.take (cs.length - n)

/-- what an expression stands for as a path -/
inductive PathSource where
  | nothing
  | path (path : List Char)
  | template (template : List Char)
deriving DecidableEq, Repr

namespace PathSource

/-- the template of a part; text loses its last `n` characters.  Other references have none. -/
def templateOf? (n : Nat) : Expr → Option (List Char)
  | .text _ raw => some (dropLastChars n (unescape raw).toList)
  | .property _ name _ => some ("$(".toList ++ name.text.toList ++ [')'])
  | _ => none

/-- the template of the parts of a concatenation, the last of which loses `n` characters -/
def templateOfParts? (n : Nat) : List Expr → Option (List Char)
  | [] => some []
  | [last] => templateOf? n last
  | part :: parts => do pure ((← templateOf? 0 part) ++ (← templateOfParts? n parts))

/-- what the end of an expression stands for, seen from a directory and without its last `n`
characters; the directory itself if nothing is left -/
def ofExpr? (base : List Char) (n : Nat) : Option Expr → PathSource
  | none => path base
  | some e =>
    match e.lastEntry with
    | .text _ raw =>
      match dropLastChars n (unescape raw).toList with
      | [] => path base
      | typed =>
        match Path.resolve? typed base with
        | some p => path p
        | none => nothing
    | .concat _ parts =>
      match templateOfParts? n parts with
      | some t => template t
      | none => nothing
    | _ => nothing

/-- the paths, at most `limit` of them if one is given -/
def paths (values : Values) (base : List Char) (limit : Option Nat) : PathSource → List String
  | nothing => []
  | path p => (limit.elim [String.ofList p] fun n => [String.ofList p].take n)
  | template t => limit.elim (values.paths t base) (values.firstPaths t base)

end PathSource

/-- the entries of the directories: folders first, then the files if wanted.  One that cannot be
listed is passed over. -/
def listDirectories (listing : Listing) (files : Bool) (dirs : List String) : List FileEntry :=
  dirs.flatMap fun dir =>
    if !listing.isFolder dir then []
    else match listing.entries? dir with
      | .error _ => []
      | .ok entries =>
        let wanted := entries.filter (·.isFolder) ++
          if files then entries.filter fun e => !e.isFolder else []
        wanted.map fun e => ⟨e.name, e.isFolder, e.path⟩

/-- stands for the parent directory -/
def parentFolder : FileEntry := ⟨"..", true, "The parent directory"⟩

/-- the candidates in the directories, with the parent directory if wanted -/
def directoryCandidates (listing : Listing) (files parent cancelled : Bool) (dirs : List String) :
    List Descriptor :=
  ((if cancelled then [] else listDirectories listing files dirs) ++
    if parent then [parentFolder] else []).map .file

namespace Document

/-- the paths that an expression stands for, seen from a directory -/
def pathsOf (d : Document) (e : Option Expr) (n : Nat) (base : Option String)
    (limit : Option Nat) : List String :=
  let base := (base.getD d.directory).toList
  (PathSource.ofExpr? base n e).paths d.values base limit

/-- the SDK's directory, where the path to import from an SDK is written -/
def sdkFolder? (d : Document) (s : Site) : Option String :=
  match s.attr >>= (·.rule) with
  | some rule =>
    if rule.construct = .importProject then
      (d.tree.element? s.element >>= (·.value? "Sdk") >>= SdkReference.parse?) >>= d.sdks
    else none
  | none => none

/-- whether values of a path kind can be files; other kinds have no answer -/
def offersFiles? (kind : ValueKind) : Option Bool :=
  match kind.base with
  | .file | .projectFile | .fileOrFolder => some true
  | .folder | .folderWithSlash => some false
  | _ => none

/-- the entries to offer for a path.  `typed` is the value so far, of which the last `length`
characters and the separator before them are being completed. -/
def fileCandidates? (d : Document) (kind : ValueKind) (typed : Option Expr) (length : Nat)
    (s : Option Site) (config : CompletionConfig) (cancelled : Bool) : Option (List Descriptor) :=
  match offersFiles? kind with
  | none => none
  | some files =>
    match d.pathsOf typed (length + 1) (s >>= d.sdkFolder?) none with
    | [] => none
    | dirs => some (directoryCandidates d.listing files config.parentFolder cancelled dirs)

end Document
end ProjectSense
