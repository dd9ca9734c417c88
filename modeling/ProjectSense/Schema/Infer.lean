import ProjectSense.Schema.Descriptor
import ProjectSense.Text.Uppercase

/-!
# Guessing kinds from names

Where no kind is declared, the name of a property or of metadata may tell: `EnableFoo` is a
Boolean, `FooPath` a path.  Values of items that nothing describes are files.

* `Descriptor.inferredKind`: the declared kind, or the guess.
* `Descriptor.inferredKind_of_declared`: a declared kind stands.
-/

namespace ProjectSense

namespace NameHint

/-- words that begin the names of Booleans -/
def booleanWords : List String := ["Enable", "Disable", "Require", "Use", "Allow"]

/-- the endings of names and the kinds they tell of; the first that fits counts -/
def endings : List (List String × ValueKind) :=
  [(["Enabled", "Disabled", "Required"], BaseKind.bool.one),
    (["DependsOn"], BaseKind.targetName.many),
    (["Paths"], BaseKind.fileOrFolder.many),
    (["Path"], BaseKind.fileOrFolder.one),
    (["Directory", "Dir"], BaseKind.folder.one),
    (["Directories", "Dirs"], BaseKind.folder.many),
    (["Files"], BaseKind.file.many),
    (["File"], BaseKind.file.one),
    (["FileName"], BaseKind.filename.one),
    (["Url"], BaseKind.url.one),
    (["Ext"], BaseKind.extension.one),
    (["Guid"], BaseKind.guid.one)]

/-- the name begins with the word, whatever its case, and goes on with a capital -/
def beginsWithWord (name : List Char) (word : String) : Bool :=
  (foldCase word).isPrefixOf (name.map Char.toLower) &&
    (name[word.length]?).any Text.isUppercase

/-- the name ends so, whatever the case -/
def endsWith (name : List Char) (ending : String) : Bool :=
  (foldCase ending).isSuffixOf (name.map Char.toLower)

/-- the kind that a name tells of -/
def kind? (name : List Char) : Option ValueKind :=
  if booleanWords.any (beginsWithWord name) then some BaseKind.bool.one
  else (endings.find? fun row => row.1.any (endsWith name)).map (·.2)

/-- what a property is that every project has, with or without a schema -/
def ofCommon (name : String) : ValueKind :=
  if sameName name "configuration" then BaseKind.configuration.one
  else if sameName name "platform" then BaseKind.platform.one
  else .unknown

end NameHint

namespace Descriptor

/-- files, as many as the kind has -/
def filesFor (kind : ValueKind) : ValueKind := ⟨.file, kind.list⟩

/-- the kind of the value, guessed where none is declared -/
def inferredKind (d : Descriptor) : ValueKind :=
  if !d.kind.isOpen then d.kind
  else match d with
    | attr rule kind =>
      if ["Include", "Exclude", "Remove", "Update"].contains rule.name then BaseKind.file.many
      else if kind.base = .unknownItem then filesFor kind
      else .unknown
    | property decl =>
      if decl.kind.base = .unknownItem then filesFor decl.kind
      else (NameHint.kind? decl.name.spelling.toList).getD (NameHint.ofCommon decl.name.spelling)
    | metadata decl =>
      if decl.kind.base = .unknownItem then filesFor decl.kind
      else (NameHint.kind? decl.name.spelling.toList).getD .unknown
    | other => if other.kind.base = .unknownItem then filesFor other.kind else .unknown

theorem inferredKind_of_declared {d : Descriptor} (h : d.kind.isOpen = false) :
    d.inferredKind = d.kind := by
  simp [inferredKind, h]

end Descriptor
end ProjectSense
