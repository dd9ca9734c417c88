import ProjectSense.Text.Blank
import ProjectSense.Text.Name

/-!
# Kinds of values

What the value of a property, an item, metadata or an attribute is: a scalar domain, or a list of
values of one.  Every domain has a tag.

* `ValueKind.parse?`: the kind that a tag names.
-/

namespace ProjectSense

/-- a scalar domain -/
inductive BaseKind where
  | unknown
  | bool
  | int
  | string
  | guid
  | url
  | version
  | file
  | folder
  | folderWithSlash
  | fileOrFolder
  | projectFile
  | filename
  | extension
  | itemName
  | propertyName
  | metadataName
  | targetName
  | taskName
  | taskOutputParameterName
  | targetFramework
  | targetFrameworks
  | targetFrameworkIdentifier
  | targetFrameworkVersion
  | targetFrameworkProfile
  | configuration
  | platform
  /-- an item of a type that nothing describes -/
  | unknownItem
  | condition
  | importance
  | continueOnError
  | toolsVersion
  | sdk
  | nugetId
  /-- no value at all -/
  | nothing
deriving DecidableEq, Repr, Inhabited

namespace BaseKind

/-- the domains in the order in which tags are looked up -/
def all : List BaseKind :=
  [.unknown, .bool, .int, .string, .guid, .url, .version, .file, .folder, .folderWithSlash,
    .fileOrFolder, .projectFile, .filename, .extension, .itemName, .propertyName, .metadataName,
    .targetName, .taskName, .taskOutputParameterName, .targetFramework, .targetFrameworks,
    .targetFrameworkIdentifier, .targetFrameworkVersion, .targetFrameworkProfile, .configuration,
    .platform, .unknownItem, .condition, .importance, .continueOnError, .toolsVersion, .sdk,
    .nugetId, .nothing]

def tag : BaseKind → String
  | .unknown => "unknown"
  | .bool => "bool"
  | .int => "int"
  | .string => "string"
  | .guid => "guid"
  | .url => "url"
  | .version => "version"
  | .file => "file"
  | .folder => "folder"
  | .folderWithSlash => "folder-with-slash"
  | .fileOrFolder => "file-or-folder"
  | .projectFile => "project-file"
  | .filename => "filename"
  | .extension => "extension"
  | .itemName => "item-name"
  | .propertyName => "property-name"
  | .metadataName => "metadata-name"
  | .targetName => "target-name"
  | .taskName => "task-name"
  | .taskOutputParameterName => "task-output-parameter-name"
  | .targetFramework => "target-framework"
  | .targetFrameworks => "target-frameworks"
  | .targetFrameworkIdentifier => "target-framework-identifier"
  | .targetFrameworkVersion => "target-framework-version"
  | .targetFrameworkProfile => "target-framework-profile"
  | .configuration => "configuration"
  | .platform => "platform"
  | .unknownItem => "unknown-item"
  | .condition => "condition"
  | .importance => "importance"
  | .continueOnError => "continue-on-error"
  | .toolsVersion => "tools-version"
  | .sdk => "sdk"
  | .nugetId => "nuget-id"
  | .nothing => "nothing"

/-- a tag names a domain with its hyphens or without them -/
def namedBy (tag : String) (base : BaseKind) : Bool :=
  base.tag = tag || String.ofList (base.tag.toList.filter (· ≠ '-')) = tag

end BaseKind

/-- a domain, or lists of its values -/
structure ValueKind where
  base : BaseKind
  list : Bool
deriving DecidableEq, Repr, Inhabited

/-- single values of the domain -/
def BaseKind.one (base : BaseKind) : ValueKind := ⟨base, false⟩

/-- lists of values of the domain -/
def BaseKind.many (base : BaseKind) : ValueKind := ⟨base, true⟩

namespace ValueKind

def unknown : ValueKind := ⟨.unknown, false⟩

def asList (kind : ValueKind) : ValueKind := { kind with list := true }

def asScalar (kind : ValueKind) : ValueKind := { kind with list := false }

def isUnknown (kind : ValueKind) : Bool := kind = unknown

/-- nothing is known of the values, be it of an item -/
def isOpen (kind : ValueKind) : Bool := kind.isUnknown || kind.base = .unknownItem

def text (kind : ValueKind) : String := kind.base.tag ++ if kind.list then "-list" else ""

/-- the text without the ending, if it has it -/
def stripEnding? (ending : String) (s : List Char) : Option (List Char) :=
  if ending.toList.isSuffixOf s then some (s.take (s.length - ending.length)) else none

/-- the kind that a tag such as `file-list` or `Guid` names -/
def parse? (s : String) : Option ValueKind :=
  let tag := foldCase (trimmed s)
  match stripEnding? "-list" tag with
  | some tag => (BaseKind.all.find? (·.namedBy (String.ofList tag))).map BaseKind.many
  | none => (BaseKind.all.find? (·.namedBy (String.ofList tag))).map BaseKind.one

end ValueKind
end ProjectSense
