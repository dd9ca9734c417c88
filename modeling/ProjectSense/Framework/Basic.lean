import ProjectSense.Framework.Version
import ProjectSense.Text.Blank
import ProjectSense.Text.Name

/-!
# Target frameworks

A framework has an identifier, a version and perhaps a profile.  Its short name, such as `net472`,
`netstandard2.0` or `net40-client`, is what projects write.

* `Framework.parse?`, `Framework.shortName`: reading and writing short names.
* `Framework.known`: the frameworks there are.
-/

namespace ProjectSense

/-- an empty profile is none -/
structure Framework where
  identifier : String
  version : FrameworkVersion
  profile : String
deriving DecidableEq, Repr, Inhabited

namespace Framework

def netFramework : String := ".NETFramework"
def netStandard : String := ".NETStandard"
def netCoreApp : String := ".NETCoreApp"

/-- how short names begin; those that begin others stand after them -/
def shortForms : List (String × String) :=
  [("netstandard", netStandard), ("netcoreapp", netCoreApp), ("xamarinios", "Xamarin.iOS"),
    ("xamarinmac", "Xamarin.Mac"), ("monoandroid", "MonoAndroid"), ("net", netFramework),
    ("uap", "UAP")]

/-- the text before the first hyphen, and the text after it if there is one -/
def cutSuffix (cs : List Char) : List Char × Option (List Char) := Text.breakOn ['-'] cs

/-- the first character as an ASCII capital -/
def capitalized : List Char → List Char
  | [] => []
  | c :: cs => c.toUpper :: cs

/-- a version as short names write it: dotted, or a digit a part -/
def shortVersion? (cs : List Char) : Option FrameworkVersion :=
  if cs.contains '.' then FrameworkVersion.parse? cs else FrameworkVersion.parseCompact? cs

/-- the framework of a short name.  From 5.0 on `net` means the core platform, whose suffixes name
an operating system and no profile. -/
def parse? (s : String) : Option Framework :=
  let (main, suffix) := cutSuffix (foldCase (trimmed s))
  match shortForms.find? (fun form => form.1.toList.isPrefixOf main) with
  | none => none
  | some (begin, identifier) =>
    match shortVersion? (main.drop begin.length) with
    | none => none
    | some version =>
      let modern := identifier = netFramework && 5 ≤ version.major
      let identifier := if modern then netCoreApp else identifier
      let profile := if identifier = netCoreApp then none else suffix
      some ⟨identifier, version, String.ofList (capitalized (profile.getD []))⟩

/-- the version digits of a short name without dots -/
def compactText (v : FrameworkVersion) : String :=
  String.join (v.parts.map FrameworkVersion.partText)

/-- the short name without a profile -/
def baseName (f : Framework) : String :=
  if f.identifier = netFramework then "net" ++ compactText f.version
  else if f.identifier = netCoreApp && 5 ≤ f.version.major then "net" ++ f.version.text
  else
    match shortForms.find? (fun form => sameName form.2 f.identifier) with
    | some (begin, _) => begin ++ f.version.text
    | none => lowered f.identifier ++ f.version.text

def shortName (f : Framework) : String :=
  if f.profile.isEmpty then f.baseName else f.baseName ++ "-" ++ lowered f.profile

/-- the versions of the .NET Framework, oldest first, and whether they have a client profile -/
def netFrameworkVersions : List (FrameworkVersion × Bool) :=
  [(⟨2, 0, 0, 0⟩, false), (⟨3, 0, 0, 0⟩, false), (⟨3, 5, 0, 0⟩, true), (⟨4, 0, 0, 0⟩, true),
    (⟨4, 5, 0, 0⟩, false), (⟨4, 5, 1, 0⟩, false), (⟨4, 5, 2, 0⟩, false), (⟨4, 6, 0, 0⟩, false),
    (⟨4, 6, 1, 0⟩, false), (⟨4, 6, 2, 0⟩, false), (⟨4, 7, 0, 0⟩, false), (⟨4, 7, 1, 0⟩, false),
    (⟨4, 7, 2, 0⟩, false), (⟨4, 8, 0, 0⟩, false), (⟨4, 8, 1, 0⟩, false)]

/-- the frameworks there are, by identifier, oldest first -/
def known : List Framework :=
  (netFrameworkVersions.flatMap fun (v, client) =>
    ⟨netFramework, v, ""⟩ :: if client then [⟨netFramework, v, "Client"⟩] else []) ++
  ([(1, 0), (1, 1), (1, 2), (1, 3), (1, 4), (1, 5), (1, 6), (2, 0), (2, 1)].map fun (a, b) =>
    ⟨netStandard, .ofMinor a b, ""⟩) ++
  ([(1, 0), (1, 1), (2, 0), (2, 1), (2, 2), (3, 0), (3, 1), (5, 0), (6, 0), (7, 0), (8, 0),
    (9, 0)].map fun (a, b) => ⟨netCoreApp, .ofMinor a b, ""⟩)

end Framework

/-- a framework under the name that was asked for -/
structure NamedFramework where
  name : String
  framework : Framework
deriving DecidableEq, Repr, Inhabited

namespace Framework

/-- every known framework under its short name -/
def shortNames : List NamedFramework := known.map fun f => ⟨f.shortName, f⟩

/-- the known versions of an identifier, oldest first, named as `v4.7.2` -/
def versionsOf (identifier : String) : List NamedFramework :=
  (known.filter fun f => sameName f.identifier identifier && f.profile.isEmpty).map fun f =>
    ⟨"v" ++ f.version.text, f⟩

/-- the known profiles of a version -/
def profilesOf (identifier : String) (version : FrameworkVersion) : List NamedFramework :=
  (known.filter fun f =>
    sameName f.identifier identifier && f.version = version && !f.profile.isEmpty).map fun f =>
    ⟨f.profile, f⟩

/-- the identifiers, each with its newest version -/
def identifiers : List NamedFramework :=
  (known.map (·.identifier)).eraseDups.filterMap fun id =>
    (versionsOf id).getLast?.map fun newest => ⟨id, newest.framework⟩

/-- the framework of a short name, under that name -/
def named? (s : String) : Option NamedFramework := (parse? s).map fun f => ⟨s, f⟩

end Framework
end ProjectSense
