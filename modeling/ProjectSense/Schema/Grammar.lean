import ProjectSense.Schema.ValueKind

/-!
# The project grammar

Which elements may stand in which, and which attributes they take.  Abstract entries stand for
open categories such as any item or any task: a name that matches no concrete entry is theirs.

* `ElementRule.child?`, `ElementRule.attr?`: what a name means inside an element.
* `ElementRule.child?_isAbstract`: a child that was not named is the abstract one.
-/

namespace ProjectSense

/-- the elements, then the attributes, that the grammar knows -/
inductive Construct where
  | project | choose | when | otherwise | imported | importGroup | itemGroup | item | metadata
  | itemDefinitionGroup | itemDefinition | propertyGroup | property | target | task | output
  | onError | usingTask | parameterGroup | parameter | usingTaskBody | projectExtensions | sdk
  | projectSdk | projectToolsVersion | projectDefaultTargets | projectInitialTargets
  | projectTreatAsLocalProperty | importProject | importSdk | importVersion | importMinimumVersion
  | itemInclude | itemExclude | itemRemove | itemUpdate | itemKeepMetadata | itemRemoveMetadata
  | itemKeepDuplicates | itemMetadata | targetName | targetDependsOnTargets | targetBeforeTargets
  | targetAfterTargets | targetInputs | targetOutputs | targetReturns | targetKeepDuplicateOutputs
  | taskContinueOnError | taskParameter | outputTaskParameter | outputPropertyName | outputItemName
  | onErrorExecuteTargets | usingTaskTaskName | usingTaskAssemblyName | usingTaskAssemblyFile
  | usingTaskTaskFactory | usingTaskArchitecture | usingTaskRuntime | parameterParameterType
  | parameterOutput | parameterRequired | usingTaskBodyEvaluate | sdkName | sdkVersion
  | sdkMinimumVersion | condition | label
deriving DecidableEq, Repr, Inhabited

namespace Construct

def name : Construct → String
  | .project => "Project"
  | .choose => "Choose"
  | .when => "When"
  | .otherwise => "Otherwise"
  | .imported => "Import"
  | .importGroup => "ImportGroup"
  | .itemGroup => "ItemGroup"
  | .item => "Item"
  | .metadata => "Metadata"
  | .itemDefinitionGroup => "ItemDefinitionGroup"
  | .itemDefinition => "ItemDefinition"
  | .propertyGroup => "PropertyGroup"
  | .property => "Property"
  | .target => "Target"
  | .task => "Task"
  | .output => "Output"
  | .onError => "OnError"
  | .usingTask => "UsingTask"
  | .parameterGroup => "ParameterGroup"
  | .parameter => "Parameter"
  | .usingTaskBody => "UsingTaskBody"
  | .projectExtensions => "ProjectExtensions"
  | .sdk => "Sdk"
  | .projectSdk => "ProjectSdk"
  | .projectToolsVersion => "ProjectToolsVersion"
  | .projectDefaultTargets => "ProjectDefaultTargets"
  | .projectInitialTargets => "ProjectInitialTargets"
  | .projectTreatAsLocalProperty => "ProjectTreatAsLocalProperty"
  | .importProject => "ImportProject"
  | .importSdk => "ImportSdk"
  | .importVersion => "ImportVersion"
  | .importMinimumVersion => "ImportMinimumVersion"
  | .itemInclude => "ItemInclude"
  | .itemExclude => "ItemExclude"
  | .itemRemove => "ItemRemove"
  | .itemUpdate => "ItemUpdate"
  | .itemKeepMetadata => "ItemKeepMetadata"
  | .itemRemoveMetadata => "ItemRemoveMetadata"
  | .itemKeepDuplicates => "ItemKeepDuplicates"
  | .itemMetadata => "ItemMetadata"
  | .targetName => "TargetName"
  | .targetDependsOnTargets => "TargetDependsOnTargets"
  | .targetBeforeTargets => "TargetBeforeTargets"
  | .targetAfterTargets => "TargetAfterTargets"
  | .targetInputs => "TargetInputs"
  | .targetOutputs => "TargetOutputs"
  | .targetReturns => "TargetReturns"
  | .targetKeepDuplicateOutputs => "TargetKeepDuplicateOutputs"
  | .taskContinueOnError => "TaskContinueOnError"
  | .taskParameter => "TaskParameter"
  | .outputTaskParameter => "OutputTaskParameter"
  | .outputPropertyName => "OutputPropertyName"
  | .outputItemName => "OutputItemName"
  | .onErrorExecuteTargets => "OnErrorExecuteTargets"
  | .usingTaskTaskName => "UsingTaskTaskName"
  | .usingTaskAssemblyName => "UsingTaskAssemblyName"
  | .usingTaskAssemblyFile => "UsingTaskAssemblyFile"
  | .usingTaskTaskFactory => "UsingTaskTaskFactory"
  | .usingTaskArchitecture => "UsingTaskArchitecture"
  | .usingTaskRuntime => "UsingTaskRuntime"
  | .parameterParameterType => "ParameterParameterType"
  | .parameterOutput => "ParameterOutput"
  | .parameterRequired => "ParameterRequired"
  | .usingTaskBodyEvaluate => "UsingTaskBodyEvaluate"
  | .sdkName => "SdkName"
  | .sdkVersion => "SdkVersion"
  | .sdkMinimumVersion => "SdkMinimumVersion"
  | .condition => "Condition"
  | .label => "Label"

def all : List Construct :=
  [.project, .choose, .when, .otherwise, .imported, .importGroup, .itemGroup, .item, .metadata,
    .itemDefinitionGroup, .itemDefinition, .propertyGroup, .property, .target, .task, .output,
    .onError, .usingTask, .parameterGroup, .parameter, .usingTaskBody, .projectExtensions, .sdk,
    .projectSdk, .projectToolsVersion, .projectDefaultTargets, .projectInitialTargets,
    .projectTreatAsLocalProperty, .importProject, .importSdk, .importVersion,
    .importMinimumVersion, .itemInclude, .itemExclude, .itemRemove, .itemUpdate, .itemKeepMetadata,
    .itemRemoveMetadata, .itemKeepDuplicates, .itemMetadata, .targetName, .targetDependsOnTargets,
    .targetBeforeTargets, .targetAfterTargets, .targetInputs, .targetOutputs, .targetReturns,
    .targetKeepDuplicateOutputs, .taskContinueOnError, .taskParameter, .outputTaskParameter,
    .outputPropertyName, .outputItemName, .onErrorExecuteTargets, .usingTaskTaskName,
    .usingTaskAssemblyName, .usingTaskAssemblyFile, .usingTaskTaskFactory, .usingTaskArchitecture,
    .usingTaskRuntime, .parameterParameterType, .parameterOutput, .parameterRequired,
    .usingTaskBodyEvaluate, .sdkName, .sdkVersion, .sdkMinimumVersion, .condition, .label]

/-- the construct of that name -/
def parse? (s : String) : Option Construct := all.find? fun k => sameName k.name s

/-- selects the values of an item -/
def isItemSelector : Construct → Bool
  | .itemInclude | .itemExclude | .itemRemove | .itemUpdate => true
  | _ => false

end Construct

structure AttributeRule where
  name : String
  construct : Construct
  kind : ValueKind
  description : String
  /-- stands for any attribute name -/
  isAbstract : Bool
deriving DecidableEq, Repr, Inhabited

structure ElementRule where
  name : String
  construct : Construct
  description : String
  children : List Construct
  attributes : List AttributeRule
  /-- stands for any element name of its category -/
  isAbstract : Bool
  /-- of the element's text -/
  kind : ValueKind
deriving DecidableEq, Repr, Inhabited

namespace Grammar

/-- a concrete attribute -/
def attr (name : String) (construct : Construct) (kind : ValueKind) (description : String) :
    AttributeRule := ⟨name, construct, kind, description, false⟩

/-- an element without a value -/
def element (name : String) (construct : Construct) (description : String)
    (children : List Construct) (attributes : List AttributeRule) : ElementRule :=
  ⟨name, construct, description, children, attributes, false, BaseKind.nothing.one⟩

/-- an element that stands for a category -/
def category (name : String) (construct : Construct) (description : String)
    (children : List Construct) (attributes : List AttributeRule)
    (kind : ValueKind) : ElementRule :=
  ⟨name, construct, description, children, attributes, true, kind⟩

def condition : AttributeRule :=
  attr "Condition" .condition BaseKind.condition.one
    "Condition that must be true for this element to be evaluated"

def label : AttributeRule :=
  attr "Label" .label BaseKind.string.one "Label for the element, ignored by the build"

/-- the root -/
def project : ElementRule :=
  element "Project" .project "Root element of an MSBuild project"
    [.choose, .imported, .importGroup, .itemGroup, .itemDefinitionGroup, .propertyGroup, .target,
     .usingTask, .projectExtensions, .sdk]
    [attr "Sdk" .projectSdk BaseKind.sdk.many
        "SDKs imported around the project",
      attr "ToolsVersion" .projectToolsVersion BaseKind.toolsVersion.one
        "Version of the toolset used to build the project",
      attr "DefaultTargets" .projectDefaultTargets BaseKind.targetName.many
        "Targets built when none are specified",
      attr "InitialTargets" .projectInitialTargets BaseKind.targetName.many
        "Targets run before any other target",
      attr "TreatAsLocalProperty" .projectTreatAsLocalProperty BaseKind.propertyName.many
        "Global properties the project may override"]

def elements : List ElementRule := [
  project,
  element "Choose" .choose
    "Groups When and Otherwise branches, of which the first true one is evaluated"
    [.when, .otherwise]
    [],
  element "When" .when "Branch of a Choose evaluated when its condition is true"
    [.choose, .itemGroup, .propertyGroup]
    [condition],
  element "Otherwise" .otherwise "Branch of a Choose evaluated when no When condition is true"
    [.choose, .itemGroup, .propertyGroup]
    [],
  element "Import" .imported "Imports the contents of another project file"
    []
    [attr "Project" .importProject BaseKind.projectFile.one
        "Path of the project to import",
      attr "Sdk" .importSdk BaseKind.sdk.one
        "SDK in which to resolve the project path",
      attr "Version" .importVersion BaseKind.version.one
        "Version of the SDK",
      attr "MinimumVersion" .importMinimumVersion BaseKind.version.one
        "Minimum version of the SDK",
      condition,
      label],
  element "ImportGroup" .importGroup "Groups imports under one condition"
    [.imported]
    [condition,
      label],
  element "ItemGroup" .itemGroup "Contains items"
    [.item]
    [condition,
      label],
  category "Item" .item "An item"
    [.metadata]
    [attr "Include" .itemInclude .unknown
        "Files or values to include in the item list",
      attr "Exclude" .itemExclude .unknown
        "Files or values to exclude from the Include list",
      attr "Remove" .itemRemove .unknown
        "Values to remove from the item list",
      attr "Update" .itemUpdate .unknown
        "Existing items whose metadata to update",
      attr "KeepMetadata" .itemKeepMetadata BaseKind.metadataName.many
        "Metadata to keep, removing all other metadata",
      attr "RemoveMetadata" .itemRemoveMetadata BaseKind.metadataName.many
        "Metadata to remove",
      attr "KeepDuplicates" .itemKeepDuplicates BaseKind.bool.one
        "Whether to add items that duplicate existing ones",
      condition,
      label,
      ⟨"Metadata", .itemMetadata, .unknown, "Item metadata", true⟩]
    BaseKind.nothing.one,
  category "Metadata" .metadata "Item metadata"
    []
    [condition]
    .unknown,
  element "ItemDefinitionGroup" .itemDefinitionGroup "Contains default metadata for item types"
    [.itemDefinition]
    [condition,
      label],
  category "ItemDefinition" .itemDefinition "Default metadata for an item type"
    [.metadata]
    [condition,
      label]
    BaseKind.nothing.one,
  element "PropertyGroup" .propertyGroup "Contains properties"
    [.property]
    [condition,
      label],
  category "Property" .property "A property"
    []
    [condition]
    .unknown,
  element "Target" .target "A named sequence of tasks"
    [.task, .propertyGroup, .itemGroup, .onError]
    [attr "Name" .targetName BaseKind.targetName.one
        "Name of the target",
      attr "DependsOnTargets" .targetDependsOnTargets BaseKind.targetName.many
        "Targets that run before this one",
      attr "BeforeTargets" .targetBeforeTargets BaseKind.targetName.many
        "Targets this one runs before",
      attr "AfterTargets" .targetAfterTargets BaseKind.targetName.many
        "Targets this one runs after",
      attr "Inputs" .targetInputs BaseKind.file.many
        "Files compared with Outputs to decide whether to skip the target",
      attr "Outputs" .targetOutputs BaseKind.file.many
        "Files produced by the target",
      attr "Returns" .targetReturns BaseKind.unknownItem.many
        "Items returned to callers of the target",
      attr "KeepDuplicateOutputs" .targetKeepDuplicateOutputs BaseKind.bool.one
        "Whether duplicate outputs are kept",
      condition,
      label],
  category "Task" .task "A task invocation"
    [.output]
    [attr "ContinueOnError" .taskContinueOnError BaseKind.continueOnError.one
        "What to do when the task fails",
      condition,
      ⟨"Parameter", .taskParameter, .unknown, "Task parameter", true⟩]
    BaseKind.nothing.one,
  element "Output" .output "Stores a task output parameter in a property or item"
    []
    [attr "TaskParameter" .outputTaskParameter BaseKind.taskOutputParameterName.one
        "Output parameter of the task",
      attr "PropertyName" .outputPropertyName BaseKind.propertyName.one
        "Property receiving the output",
      attr "ItemName" .outputItemName BaseKind.itemName.one
        "Item receiving the output",
      condition],
  element "OnError" .onError "Runs targets when a task fails"
    []
    [attr "ExecuteTargets" .onErrorExecuteTargets BaseKind.targetName.many
        "Targets to run on failure",
      condition],
  element "UsingTask" .usingTask "Registers a task implementation"
    [.parameterGroup, .usingTaskBody]
    [attr "TaskName" .usingTaskTaskName BaseKind.taskName.one
        "Name of the task",
      attr "AssemblyName" .usingTaskAssemblyName BaseKind.string.one
        "Name of the assembly containing the task",
      attr "AssemblyFile" .usingTaskAssemblyFile BaseKind.file.one
        "Path of the assembly containing the task",
      attr "TaskFactory" .usingTaskTaskFactory BaseKind.string.one
        "Factory that creates the task",
      attr "Architecture" .usingTaskArchitecture BaseKind.string.one
        "Architecture the task runs on",
      attr "Runtime" .usingTaskRuntime BaseKind.string.one
        "Runtime the task runs on",
      condition],
  element "ParameterGroup" .parameterGroup "Declares the parameters of an inline task"
    [.parameter]
    [],
  category "Parameter" .parameter "An inline task parameter"
    []
    [attr "ParameterType" .parameterParameterType BaseKind.string.one
        "Type of the parameter",
      attr "Output" .parameterOutput BaseKind.bool.one
        "Whether the parameter is an output",
      attr "Required" .parameterRequired BaseKind.bool.one
        "Whether the parameter is required"]
    BaseKind.nothing.one,
  ⟨"Task", .usingTaskBody, "Body of an inline task",
    [],
    [attr "Evaluate" .usingTaskBodyEvaluate BaseKind.bool.one
        "Whether properties and items in the body are expanded"],
    false, BaseKind.string.one⟩,
  element "ProjectExtensions" .projectExtensions "Arbitrary content ignored by the build"
    []
    [],
  element "Sdk" .sdk "Imports an SDK around the project"
    []
    [attr "Name" .sdkName BaseKind.sdk.one
        "Name of the SDK",
      attr "Version" .sdkVersion BaseKind.version.one
        "Version of the SDK",
      attr "MinimumVersion" .sdkMinimumVersion BaseKind.version.one
        "Minimum version of the SDK"]]

end Grammar

namespace ElementRule

/-- the rule of an element; attributes have none -/
def of? (construct : Construct) : Option ElementRule :=
  Grammar.elements.find? (·.construct = construct)

/-- the rules of what may stand inside -/
def childRules (e : ElementRule) : List ElementRule := e.children.filterMap of?

def abstractChild? (e : ElementRule) : Option ElementRule := e.childRules.find? (·.isAbstract)

def abstractAttr? (e : ElementRule) : Option AttributeRule := e.attributes.find? (·.isAbstract)

/-- what an element of that name is inside this one -/
def child? (e : ElementRule) (name : String) : Option ElementRule :=
  (e.childRules.find? fun c => !c.isAbstract && sameName c.name name).or e.abstractChild?

/-- what an attribute of that name is on this element -/
def attr? (e : ElementRule) (name : String) : Option AttributeRule :=
  (e.attributes.find? fun a => !a.isAbstract && sameName a.name name).or e.abstractAttr?

theorem child?_isAbstract {e c : ElementRule} {name : String} (h : e.child? name = some c)
    (hn : sameName c.name name = false) : c.isAbstract = true := by
  rcases Option.or_eq_some_iff.1 h with h | h
  · have := List.find?_some h
    simp_all
  · exact List.find?_some (p := fun c : ElementRule => c.isAbstract) h.2

end ElementRule
end ProjectSense
