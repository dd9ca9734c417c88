import ProjectSense.Completion.Basic
import ProjectSense.Document.Lookup
import ProjectSense.Text.LineIndex

/-!
# Hosts

A host holds the open files of a workspace and the schemas that all of them are read with, and
answers queries about them.  A host is a value: one kept aside answers as it did when it was kept.

* `Host.set`, `Host.remove`, `Host.addSchema`: changes.
* `Host.resolve?`, `Host.completions`, `Host.declaration?`: queries.
-/

namespace ProjectSense

/-- a file that is open: its document, and the lines of its text -/
structure OpenFile where
  document : Document
  lines : LineIndex

/-- the file is the one of that path -/
def OpenFile.isAt (f : OpenFile) (path : String) : Bool := samePath f.document.path path

structure Host where
  /-- no two of them have the same path -/
  files : List OpenFile
  /-- the more specific first -/
  schemas : List Schema
  sdks : SdkLocator
  listing : Listing
  config : CompletionConfig

namespace Host

/-- a host without files and schemas -/
def start (sdks : SdkLocator) (listing : Listing) (config : CompletionConfig) : Host :=
  ⟨[], [], sdks, listing, config⟩

/-! ### Files -/

/-- the file of a path and a text, as this host sees it -/
def openFile (h : Host) (path text : String) : OpenFile :=
  let document := (Document.build (Document.parse path text)).withSchemas h.schemas
  ⟨(document.withSdks h.sdks).withListing h.listing, .ofText text⟩

/-- the files with one put in the place of the one of its path, or at the end -/
def put (f : OpenFile) : List OpenFile → List OpenFile
  | [] => [f]
  | g :: gs => if g.isAt f.document.path then f :: gs else g :: put f gs

/-- opens a file, or replaces its text -/
def set (h : Host) (path text : String) : Host :=
  { h with files := put (h.openFile path text) h.files }

/-- opens files, each built first; then a later one replaces an earlier one of the same path -/
def setAll (h : Host) (files : List (String × String)) : Host :=
  let entries := files.map fun f => h.openFile f.1 f.2
  { h with files := entries.foldl (fun files f => put f files) h.files }

def remove (h : Host) (path : String) : Host :=
  { h with files := h.files.filter fun f => !f.isAt path }

def file? (h : Host) (path : String) : Option OpenFile := h.files.find? (·.isAt path)

def has (h : Host) (path : String) : Bool := (h.file? path).isSome

def count (h : Host) : Nat := h.files.length

/-! ### Schemas -/

/-- adds a schema, less specific than those before it, to the host and to every open file -/
def addSchema (h : Host) (s : Schema) : Host :=
  let schemas := h.schemas ++ [s]
  { h with
    schemas := schemas
    files := h.files.map fun f => { f with document := f.document.withSchemas schemas } }

/-! ### Queries -/

def document? (h : Host) (path : String) : Option Document := (h.file? path).map (·.document)

/-- the offset of a line and column of a file -/
def offset? (h : Host) (path : String) (p : Position) : Option Nat :=
  h.file? path >>= fun f => f.lines.offset? p

def resolve? (h : Host) (path : String) (offset : Nat) : Option Resolution :=
  h.document? path >>= (·.resolve? offset)

/-- the items to show at an offset of a file; a file that is not open has none -/
def completions (h : Host) (path : String) (offset : Nat) (cancelled : Bool) :
    Except SchemaError (List CompletionItem) :=
  match h.document? path with
  | some d => d.completions offset h.config cancelled
  | none => .ok []

/-- the declaration behind the reference at an offset of a file -/
def declaration? (h : Host) (path : String) (offset : Nat) : Option Descriptor := do
  let d ← h.document? path
  d.declaration? h.config.policy (← d.resolve? offset)

/-- the first paths that a template stands for in a file -/
def paths? (h : Host) (path template : String) (limit : Nat) : Option (List String) :=
  (h.document? path).map fun d => d.values.firstPaths template.toList d.directory.toList limit

end Host
end ProjectSense
