import ProjectSense.Schema.Basic

/-!
# The built-in schema

Reserved and common properties, well-known metadata, and the common items, tasks and targets.

* `Schema.builtin`: the schema that every registry ends with.
* `wellKnownMetadata`: the metadata that every item has.
-/

namespace ProjectSense
namespace Builtin

/-- metadata of every item: name, description, kind -/
def metadataRows : List (String × String × BaseKind) :=
  [("FullPath", "The full path of the item", .file),
    ("RootDir", "The root directory of the item", .folder),
    ("Filename", "The filename of the item, without the extension", .filename),
    ("Extension", "The file extension of the item", .extension),
    ("RelativeDir", "The path specified in the Include attribute, up to the final separator",
       .folder),
    ("Directory", "The directory of the item, without the root directory", .folder),
    ("RecursiveDir", "The path matched by a `**` wildcard in the Include attribute", .folder),
    ("Identity", "The item specified in the Include attribute", .string),
    ("ModifiedTime", "The time the item was last modified", .string),
    ("CreatedTime", "The time the item was created", .string),
    ("AccessedTime", "The time the item was last accessed", .string),
    ("DefiningProjectFullPath", "The full path of the project that defined the item", .projectFile),
    ("DefiningProjectDirectory", "The directory of the project that defined the item", .folder),
    ("DefiningProjectName", "The name of the project that defined the item", .filename),
    ("DefiningProjectExtension", "The extension of the project that defined the item", .extension)]

/-- properties that the build sets: name, description, kind -/
def reservedRows : List (String × String × ValueKind) :=
  [("MSBuildProjectDirectory", "Directory of the project file", BaseKind.folder.one),
    ("MSBuildProjectDirectoryNoRoot", "Directory of the project file, without the root",
      BaseKind.folder.one),
    ("MSBuildProjectExtension", "Extension of the project file", BaseKind.extension.one),
    ("MSBuildProjectFile", "Filename of the project file, with extension", BaseKind.filename.one),
    ("MSBuildProjectFullPath", "Full path of the project file", BaseKind.projectFile.one),
    ("MSBuildProjectName", "Filename of the project file, without extension",
      BaseKind.filename.one),
    ("MSBuildProjectDefaultTargets", "Targets named in the DefaultTargets attribute",
      BaseKind.targetName.many),
    ("MSBuildThisFile", "Filename of the file containing this property", BaseKind.filename.one),
    ("MSBuildThisFileDirectory", "Directory of the file containing this property",
      BaseKind.folderWithSlash.one),
    ("MSBuildThisFileFullPath", "Full path of the file containing this property",
      BaseKind.file.one),
    ("MSBuildThisFileName", "Filename of the file containing this property, without extension",
      BaseKind.filename.one),
    ("MSBuildThisFileExtension", "Extension of the file containing this property",
      BaseKind.extension.one),
    ("MSBuildBinPath", "Directory of the MSBuild binaries", BaseKind.folder.one),
    ("MSBuildToolsPath", "Directory of the MSBuild tools", BaseKind.folder.one),
    ("MSBuildToolsVersion", "Version of the MSBuild toolset", BaseKind.toolsVersion.one),
    ("MSBuildExtensionsPath", "Directory of MSBuild extensions", BaseKind.folder.one),
    ("MSBuildStartupDirectory", "Directory MSBuild was started from", BaseKind.folder.one),
    ("MSBuildNodeCount", "Maximum number of concurrent build processes", BaseKind.int.one),
    ("MSBuildLastTaskResult", "Whether the previous task succeeded", BaseKind.bool.one),
    ("MSBuildProgramFiles32", "The 32-bit Program Files folder", BaseKind.folder.one),
    ("MSBuildRuntimeType", "The runtime MSBuild is running on", BaseKind.string.one),
    ("MSBuildVersion", "The version of MSBuild", BaseKind.version.one)]

/-- properties that projects set: name, description, kind -/
def propertyRows : List (String × String × ValueKind) :=
  [("Configuration", "The build configuration", BaseKind.configuration.one),
    ("Configurations", "The build configurations available in the project",
      BaseKind.configuration.many),
    ("Platform", "The build platform", BaseKind.platform.one),
    ("Platforms", "The build platforms available in the project", BaseKind.platform.many),
    ("OutputPath", "Output directory, relative to the project", BaseKind.folderWithSlash.one),
    ("BaseOutputPath", "Base of the output directory", BaseKind.folderWithSlash.one),
    ("IntermediateOutputPath", "Intermediate output directory", BaseKind.folderWithSlash.one),
    ("BaseIntermediateOutputPath", "Base of the intermediate output directory",
      BaseKind.folderWithSlash.one),
    ("OutputType", "Type of the output: Library, Exe, WinExe or Module", BaseKind.string.one),
    ("AssemblyName", "Name of the output assembly", BaseKind.string.one),
    ("RootNamespace", "Root namespace for generated code", BaseKind.string.one),
    ("TargetFramework", "The framework the project targets", BaseKind.targetFramework.one),
    ("TargetFrameworks", "The frameworks a multi-targeted project targets",
      BaseKind.targetFramework.many),
    ("TargetFrameworkIdentifier", "Identifier of the target framework",
      BaseKind.targetFrameworkIdentifier.one),
    ("TargetFrameworkVersion", "Version of the target framework",
      BaseKind.targetFrameworkVersion.one),
    ("TargetFrameworkProfile", "Profile of the target framework",
      BaseKind.targetFrameworkProfile.one),
    ("DefineConstants", "Conditional compilation symbols", BaseKind.string.many),
    ("Optimize", "Whether to optimize the output", BaseKind.bool.one),
    ("DebugSymbols", "Whether to emit debug symbols", BaseKind.bool.one),
    ("DebugType", "Kind of debug symbols to emit", BaseKind.string.one),
    ("TreatWarningsAsErrors", "Whether warnings fail the build", BaseKind.bool.one),
    ("Nullable", "Nullable reference type context", BaseKind.string.one),
    ("LangVersion", "Language version", BaseKind.string.one),
    ("ProjectGuid", "Unique identifier of the project", BaseKind.guid.one),
    ("Version", "Version of the package and assembly", BaseKind.version.one),
    ("BuildDependsOn", "Targets the Build target depends on", BaseKind.targetName.many)]

/-- items: name, description, kind -/
def itemRows : List (String × String × ValueKind) :=
  [("Compile", "Source files to compile", BaseKind.file.many),
    ("Content", "Files that are not compiled but are deployed", BaseKind.file.many),
    ("None", "Files with no build action", BaseKind.file.many),
    ("EmbeddedResource", "Files embedded in the output assembly", BaseKind.file.many),
    ("Reference", "Assembly references", BaseKind.string.many),
    ("ProjectReference", "References to other projects", BaseKind.projectFile.many),
    ("PackageReference", "References to NuGet packages", BaseKind.nugetId.many),
    ("Folder", "Folders shown in the project", BaseKind.folder.many)]

/-- metadata by item: name, description, kind -/
def itemMetadataRows : List (String × List (String × String × ValueKind)) :=
  [("Compile", [
      ("Link", "Display path of a file outside the project directory", BaseKind.file.one),
      ("DependentUpon", "File this file is nested under", BaseKind.file.one),
      ("AutoGen", "Whether the file is generated", BaseKind.bool.one),
      ("Visible", "Whether to show the file in the project tree", BaseKind.bool.one)]),
    ("Content", [
      ("Link", "Display path of a file outside the project directory", BaseKind.file.one),
      ("CopyToOutputDirectory", "Whether to copy the file to the output directory",
        BaseKind.string.one)]),
    ("None", [
      ("Link", "Display path of a file outside the project directory", BaseKind.file.one),
      ("CopyToOutputDirectory", "Whether to copy the file to the output directory",
        BaseKind.string.one)]),
    ("EmbeddedResource", [
      ("LogicalName", "Name of the embedded resource", BaseKind.string.one),
      ("DependentUpon", "File this file is nested under", BaseKind.file.one)]),
    ("Reference", [
      ("HintPath", "Path of the referenced assembly", BaseKind.file.one),
      ("Private", "Whether to copy the assembly to the output directory", BaseKind.bool.one)]),
    ("ProjectReference", [
      ("Project", "Project GUID of the referenced project", BaseKind.guid.one),
      ("Name", "Display name of the referenced project", BaseKind.string.one),
      ("ReferenceOutputAssembly", "Whether to reference the project's output", BaseKind.bool.one),
      ("Private", "Whether to copy the output to the output directory", BaseKind.bool.one)]),
    ("PackageReference", [
      ("Version", "Version range of the package", BaseKind.version.one),
      ("PrivateAssets", "Assets that do not flow to dependents", BaseKind.string.many),
      ("IncludeAssets", "Assets to consume", BaseKind.string.many),
      ("ExcludeAssets", "Assets not to consume", BaseKind.string.many)])]

/-- tasks: name, description -/
def taskRows : List (String × String) :=
  [("Message", "Logs a message"),
    ("Warning", "Logs a warning"),
    ("Error", "Logs an error and stops the build"),
    ("Copy", "Copies files"),
    ("Delete", "Deletes files"),
    ("MakeDir", "Creates directories"),
    ("Exec", "Runs a command"),
    ("CallTarget", "Invokes targets in the current project"),
    ("MSBuild", "Builds other projects")]

/-- parameters by task: name, description, kind, whether it is an output -/
def parameterRows : List (String × List (String × String × ValueKind × Bool)) :=
  [("Message", [
      ("Text", "Message to log", BaseKind.string.one, false),
      ("Importance", "Importance of the message", BaseKind.importance.one, false)]),
    ("Warning", [
      ("Text", "Warning to log", BaseKind.string.one, false),
      ("Code", "Warning code", BaseKind.string.one, false)]),
    ("Error", [
      ("Text", "Error to log", BaseKind.string.one, false),
      ("Code", "Error code", BaseKind.string.one, false)]),
    ("Copy", [
      ("SourceFiles", "Files to copy", BaseKind.file.many, false),
      ("DestinationFolder", "Folder to copy the files to", BaseKind.folder.one, false),
      ("DestinationFiles", "Paths to copy the files to", BaseKind.file.many, false),
      ("SkipUnchangedFiles", "Whether to skip files that are unchanged", BaseKind.bool.one, false),
      ("CopiedFiles", "Files that were copied", BaseKind.file.many, true)]),
    ("Delete", [
      ("Files", "Files to delete", BaseKind.file.many, false),
      ("DeletedFiles", "Files that were deleted", BaseKind.file.many, true)]),
    ("MakeDir", [
      ("Directories", "Directories to create", BaseKind.folder.many, false),
      ("DirectoriesCreated", "Directories that were created", BaseKind.folder.many, true)]),
    ("Exec", [
      ("Command", "Command to run", BaseKind.string.one, false),
      ("WorkingDirectory", "Directory to run the command in", BaseKind.folder.one, false),
      ("ExitCode", "Exit code of the command", BaseKind.int.one, true)]),
    ("CallTarget", [
      ("Targets", "Targets to invoke", BaseKind.targetName.many, false),
      ("TargetOutputs", "Outputs of the invoked targets", BaseKind.unknownItem.many, true)]),
    ("MSBuild", [
      ("Projects", "Projects to build", BaseKind.projectFile.many, false),
      ("Targets", "Targets to build", BaseKind.targetName.many, false),
      ("Properties", "Global properties for the projects", BaseKind.string.many, false),
      ("TargetOutputs", "Outputs of the built targets", BaseKind.unknownItem.many, true)])]

/-- targets: name, description -/
def targetRows : List (String × String) :=
  [("Build", "Builds the project"),
    ("Rebuild", "Cleans and builds the project"),
    ("Clean", "Deletes build outputs"),
    ("Restore", "Restores package references"),
    ("Publish", "Publishes the project"),
    ("Pack", "Creates a NuGet package"),
    ("BeforeBuild", "Runs before the build; override to customise"),
    ("AfterBuild", "Runs after the build; override to customise"),
    ("CoreCompile", "Compiles the project sources")]

end Builtin

/-- metadata that the build computes for every item -/
def wellKnownMetadata : List MetadataDecl :=
  Builtin.metadataRows.map fun (name, description, base) =>
    ⟨⟨name⟩, description, base.one, .builtin, ⟨none, true⟩⟩

def wellKnownMetadata? (name : String) : Option MetadataDecl := lookUp name wellKnownMetadata

/-- the properties that the build sets and those that projects set -/
def builtinProperties : List PropertyDecl :=
  (Builtin.reservedRows.map fun (name, description, kind) =>
    ⟨⟨name⟩, description, kind, .builtin, ⟨true, none⟩⟩) ++
  (Builtin.propertyRows.map fun (name, description, kind) =>
    ⟨⟨name⟩, description, kind, .builtin, ⟨false, none⟩⟩)

def builtinProperty? (name : String) : Option PropertyDecl := lookUp name builtinProperties

/-- the schema that is always there -/
def Schema.builtin : Schema where
  name := "builtin"
  items := Builtin.itemRows.map fun (name, description, kind) =>
    (Declared.item name description .builtin).withKind kind
  properties := builtinProperties
  metadata := .ofList <| Builtin.itemMetadataRows.map fun (item, rows) =>
    (⟨item⟩, rows.map fun (name, description, kind) =>
      (Declared.metadata item name description .builtin).withKind kind)
  tasks := Builtin.taskRows.map fun (name, description) => .task name description .builtin
  parameters := .ofList <| Builtin.parameterRows.map fun (task, rows) =>
    (⟨task⟩, rows.map fun (name, description, kind, output) =>
      ⟨⟨name⟩, description, kind, .builtin, ⟨⟨task⟩, output, false⟩⟩)
  targets := Builtin.targetRows.map fun (name, description) => .target name description .builtin
  configurations := []
  platforms := []

end ProjectSense
