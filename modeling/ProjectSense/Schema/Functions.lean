import ProjectSense.Schema.ValueKind
import ProjectSense.Text.Name

/-!
# Functions

Functions on items, on property values and of classes.  They are never evaluated; the tables only
answer what a name means.

* `Functions.onItems?`, `Functions.onProperty?`, `Functions.ofClass?`: the function of a name.
* `Functions.klass?`, `Functions.enumeration?`: the class or enumeration of a name.
-/

namespace ProjectSense

/-- a function and the kind of what it gives -/
structure FunctionDecl where
  name : String
  description : String
  kind : ValueKind
deriving DecidableEq, Repr, Inhabited

/-- a class with functions, or an enumeration -/
structure ClassDecl where
  name : String
  description : String
  functions : List FunctionDecl
deriving DecidableEq, Repr, Inhabited

namespace Functions

def onItems : List FunctionDecl :=
  [⟨"Count", "Number of items", BaseKind.int.one⟩,
    ⟨"Distinct", "Items with duplicate identities removed", BaseKind.unknownItem.many⟩,
    ⟨"DistinctWithCase", "Items with case-sensitive duplicate identities removed",
      BaseKind.unknownItem.many⟩,
    ⟨"Reverse", "Items in reverse order", BaseKind.unknownItem.many⟩,
    ⟨"AnyHaveMetadataValue", "Whether any item has the given metadata value", BaseKind.bool.one⟩,
    ⟨"ClearMetadata", "Items with all custom metadata removed", BaseKind.unknownItem.many⟩,
    ⟨"HasMetadata", "Items that have the given metadata", BaseKind.unknownItem.many⟩,
    ⟨"Metadata", "Values of the given metadata", BaseKind.string.many⟩,
    ⟨"WithMetadataValue", "Items whose metadata has the given value", BaseKind.unknownItem.many⟩,
    ⟨"DirectoryName", "Directory of each item", BaseKind.folder.many⟩,
    ⟨"Exists", "Items that exist on disk", BaseKind.unknownItem.many⟩,
    ⟨"FullPath", "Full path of each item", BaseKind.file.many⟩]

def onStrings : List FunctionDecl :=
  [⟨"Contains", "Whether the value contains a string", BaseKind.bool.one⟩,
    ⟨"EndsWith", "Whether the value ends with a string", BaseKind.bool.one⟩,
    ⟨"IndexOf", "Index of the first occurrence of a string", BaseKind.int.one⟩,
    ⟨"LastIndexOf", "Index of the last occurrence of a string", BaseKind.int.one⟩,
    ⟨"Length", "Length of the value", BaseKind.int.one⟩,
    ⟨"Replace", "Value with occurrences of a string replaced", BaseKind.string.one⟩,
    ⟨"Split", "Value split on a separator", BaseKind.string.many⟩,
    ⟨"StartsWith", "Whether the value starts with a string", BaseKind.bool.one⟩,
    ⟨"Substring", "Part of the value", BaseKind.string.one⟩,
    ⟨"ToLower", "Value in lower case", BaseKind.string.one⟩,
    ⟨"ToUpper", "Value in upper case", BaseKind.string.one⟩,
    ⟨"Trim", "Value with surrounding whitespace removed", BaseKind.string.one⟩,
    ⟨"TrimEnd", "Value with trailing characters removed", BaseKind.string.one⟩,
    ⟨"TrimStart", "Value with leading characters removed", BaseKind.string.one⟩]

def classes : List ClassDecl :=
  [⟨"MSBuild", "MSBuild intrinsic functions",
      [⟨"Add", "Adds two numbers", BaseKind.int.one⟩,
       ⟨"Subtract", "Subtracts two numbers", BaseKind.int.one⟩,
       ⟨"EnsureTrailingSlash", "Appends a path separator if missing", BaseKind.folderWithSlash.one⟩,
       ⟨"GetDirectoryNameOfFileAbove", "Nearest ancestor directory containing a file",
         BaseKind.folder.one⟩,
       ⟨"GetPathOfFileAbove", "Path of a file in the nearest ancestor directory",
         BaseKind.file.one⟩,
       ⟨"MakeRelative", "Path relative to a base path", BaseKind.fileOrFolder.one⟩,
       ⟨"NormalizeDirectory", "Normalized directory path with trailing slash",
         BaseKind.folderWithSlash.one⟩,
       ⟨"NormalizePath", "Normalized full path", BaseKind.fileOrFolder.one⟩,
       ⟨"ValueOrDefault", "A value, or a default if it is empty", BaseKind.string.one⟩,
       ⟨"VersionGreaterThan", "Compares two versions", BaseKind.bool.one⟩]⟩,
    ⟨"System.IO.Path", "Path manipulation",
      [⟨"Combine", "Combines path segments", BaseKind.fileOrFolder.one⟩,
       ⟨"GetDirectoryName", "Directory part of a path", BaseKind.folder.one⟩,
       ⟨"GetExtension", "Extension of a path", BaseKind.extension.one⟩,
       ⟨"GetFileName", "Filename of a path", BaseKind.filename.one⟩,
       ⟨"GetFileNameWithoutExtension", "Filename of a path without the extension",
         BaseKind.filename.one⟩,
       ⟨"GetFullPath", "Absolute form of a path", BaseKind.fileOrFolder.one⟩]⟩,
    ⟨"System.IO.File", "File queries",
      [⟨"Exists", "Whether a file exists", BaseKind.bool.one⟩,
       ⟨"ReadAllText", "Contents of a file", BaseKind.string.one⟩]⟩,
    ⟨"System.IO.Directory", "Directory queries",
      [⟨"Exists", "Whether a directory exists", BaseKind.bool.one⟩]⟩,
    ⟨"System.String", "String functions",
      [⟨"IsNullOrEmpty", "Whether a string is empty", BaseKind.bool.one⟩,
       ⟨"IsNullOrWhiteSpace", "Whether a string is empty or whitespace", BaseKind.bool.one⟩,
       ⟨"Concat", "Concatenates strings", BaseKind.string.one⟩,
       ⟨"Copy", "Copies a string", BaseKind.string.one⟩]⟩,
    ⟨"System.Environment", "Environment queries",
      [⟨"GetFolderPath", "Path of a special folder", BaseKind.folder.one⟩,
       ⟨"GetEnvironmentVariable", "Value of an environment variable", BaseKind.string.one⟩,
       ⟨"ProcessorCount", "Number of processors", BaseKind.int.one⟩]⟩,
    ⟨"System.DateTime", "Date and time",
      [⟨"Now", "The current time", BaseKind.string.one⟩]⟩,
    ⟨"System.Guid", "GUID functions",
      [⟨"NewGuid", "A new random GUID", BaseKind.guid.one⟩]⟩]

def enumerations : List ClassDecl :=
  [⟨"System.Environment+SpecialFolder", "Special system folders", []⟩,
    ⟨"System.StringComparison", "String comparison rules", []⟩]

def named? (name : String) (functions : List FunctionDecl) : Option FunctionDecl :=
  functions.find? fun f => sameName f.name name

def onItems? (name : String) : Option FunctionDecl := named? name onItems

/-- a function on the value of a property; a single value is a string, a list has none -/
def onProperty? (kind : ValueKind) (name : String) : Option FunctionDecl :=
  if kind.list then none else named? name onStrings

def klass? (name : String) : Option ClassDecl := classes.find? fun c => sameName c.name name

def enumeration? (name : String) : Option ClassDecl :=
  enumerations.find? fun c => sameName c.name name

/-- a static function of a class -/
def ofClass? (klass name : String) : Option FunctionDecl :=
  klass? klass >>= fun c => named? name c.functions

end Functions
end ProjectSense
