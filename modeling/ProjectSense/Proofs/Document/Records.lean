import ProjectSense.Proofs.Document.Walk

/-!
# The records that elements leave

An element leaves single records: the values that its condition offers, then what it declares
itself.  A document is the sum of the records of its elements, one after the other, so that what no
single record breaks holds of every document.

* `Harvest.Record`, `Harvest.apply`: a single record, and what it does.
* `Harvest.visit_eq`: an element does what its records do.
* `Harvest.ofTree_induction`: what every record keeps holds of all documents.
-/

namespace ProjectSense
namespace Harvest

/-- what is recorded in one step -/
inductive Record where
  /-- the tools version asked for, and whether an SDK is imported -/
  | header (version : Option ToolsVersion) (sdk : Bool)
  /-- a value that a property takes -/
  | value (name value : String)
  /-- a value that is offered for a property -/
  | offer (name value : String)
  | property (name text : String)
  | item (name : String)
  | metadata (item name : String)
  | target (name : String)
  | task (name : String)
  /-- a parameter that an invocation gives, or takes as an output -/
  | use (task name : String) (output : Bool)
  /-- a parameter that a registration declares -/
  | parameter (task : String) (e : Element)

/-- the properties with one more, or with the text as its default -/
def assign (m : NameMap PropertyDecl) (name text : String) : NameMap PropertyDecl :=
  m.upsert ⟨name⟩ (withDefault text (.property name "" .document)) (withDefault text)

theorem withDefault_name (value : String) (d : PropertyDecl) :
    (withDefault value d).name = d.name := by
  rw [withDefault]
  split <;> rfl

/-- what has been recorded, with one more record -/
def apply (h : Harvest) : Record → Harvest
  | .header version sdk =>
    { h with version := version.or h.version, sdkStyle := h.sdkStyle || sdk }
  | .value name value => h.addValue name value
  | .offer name value => h.declare name value
  | .property name text => { h with properties := assign h.properties name text }
  | .item name => h.addItem name
  | .metadata item name => h.addMetadata item name
  | .target name => h.addTarget name
  | .task name => h.addTask name
  | .use task name output => h.addParameter task name output
  | .parameter task e => h.declareParameter task e

/-! ### What a record leaves as it is -/

theorem exists_apply_value (h : Harvest) (name value : String) :
    ∃ values, h.apply (.value name value) = { h with values := values } := by
  rw [apply, addValue]
  split
  · exact ⟨_, rfl⟩
  · exact ⟨h.values, rfl⟩

theorem exists_apply_offer (h : Harvest) (name value : String) : ∃ values declared,
    h.apply (.offer name value) = { h with values := values, declared := declared } := by
  rw [apply, declare]
  split
  · obtain ⟨values, heq⟩ := exists_apply_value { h with declared := _ } name value
    exact ⟨values, _, heq⟩
  · exact ⟨h.values, h.declared, rfl⟩

theorem exists_apply_target (h : Harvest) (name : String) :
    ∃ targets, h.apply (.target name) = { h with targets := targets } := by
  simp only [apply, addTarget]
  split
  · exact ⟨h.targets, rfl⟩
  · exact ⟨_, rfl⟩

theorem exists_apply_use (h : Harvest) (task name : String) (output : Bool) :
    ∃ parameters, h.apply (.use task name output) = { h with parameters := parameters } := by
  rw [apply, addParameter]
  split
  · exact ⟨h.parameters, rfl⟩
  · exact ⟨_, rfl⟩

/-! ### The records of an element -/

/-- the elements in the parameter groups of a registration -/
def groupParameters (t : Tree) (id : Nat) : List Element :=
  ((elementsUnder t id).filter fun g => g.2.isNamed "ParameterGroup").flatMap fun g =>
    (elementsUnder t g.1).map (·.2)

/-- the parameters that an invocation takes as outputs -/
def outputNames (t : Tree) (id : Nat) : List String :=
  (((elementsUnder t id).filter fun o => o.2.isNamed "Output").filterMap fun o =>
    o.2.value? "TaskParameter").map trimmed

namespace Record

def ofCondition (condition : String) : List Record :=
  (Condition.comparisons condition.toList).map fun p => .offer p.1 p.2

/-- the values in the text of a plural property -/
def ofPlural (name text : String) : List Record :=
  match plurals.find? fun row => sameName row.1 name with
  | some (_, singular) =>
    if isLiteral text then
      (Text.splitOn (· == ';') text.toList).map fun part =>
        .offer singular (String.ofList (Text.trim part))
    else []
  | none => []

def ofProperty (name text : String) : List Record :=
  .property name text :: (ofPlural name text ++ [.value name text])

def ofUsingTask (t : Tree) (id : Nat) (e : Element) : List Record :=
  match (e.value? "TaskName").map shortTaskName with
  | none => []
  | some short =>
    if short.isEmpty then [] else .task short :: (groupParameters t id).map (.parameter short)

def ofInvocation (t : Tree) (id : Nat) (rule : ElementRule) (e : Element) : List Record :=
  .task e.name :: ((openAttributes rule e).map (.use e.name · false) ++
    (outputNames t id).map (.use e.name · true))

/-- what an element says, by what the grammar takes it for -/
def ofElement (t : Tree) (id : Nat) (rule : ElementRule) (e : Element) : List Record :=
  match rule.construct with
  | .project =>
    [.header ((e.value? "ToolsVersion").map ToolsVersion.parse)
      ((e.value? "Sdk").any fun sdk => !(trimmed sdk).isEmpty)]
  | .sdk => [.header none true]
  | .property => ofProperty e.name (textOf t id)
  | .item | .itemDefinition => .item e.name :: (openAttributes rule e).map (.metadata e.name)
  | .metadata => (t.parentName? id).toList.map (.metadata · e.name)
  | .target => (e.value? "Name").toList.map .target
  | .usingTask => ofUsingTask t id e
  | .task => ofInvocation t id rule e
  | _ => []

end Record

/-- the records of an element with its rule -/
def records (t : Tree) (entry : Nat × ElementRule) : List Record :=
  match t.element? entry.1 with
  | none => []
  | some e =>
    (e.value? "Condition").toList.flatMap Record.ofCondition ++
      Record.ofElement t entry.1 entry.2 e

/-- the records of an element; one without a rule leaves none -/
def recordsAt (t : Tree) (id : Nat) : List Record :=
  match t.rule? id with
  | some rule => records t (id, rule)
  | none => []

variable {t : Tree}

theorem addCondition_eq_foldl (h : Harvest) (condition : String) :
    h.addCondition condition = (Record.ofCondition condition).foldl apply h := by
  rw [Record.ofCondition, List.foldl_map]
  rfl

theorem declarePlural_eq (h : Harvest) (name text : String) :
    h.declarePlural name text = (Record.ofPlural name text).foldl apply h := by
  rw [declarePlural, Record.ofPlural]
  cases plurals.find? fun row => sameName row.1 name with
  | none => rfl
  | some row =>
    dsimp only
    split
    · rw [List.foldl_map]
      rfl
    · rfl

theorem addProperty_eq (h : Harvest) (name text : String) :
    h.addProperty name text = (Record.ofProperty name text).foldl apply h := by
  rw [Record.ofProperty, List.foldl_cons, List.foldl_append, ← declarePlural_eq]
  rfl

theorem addUsingTask_eq (h : Harvest) (t : Tree) (id : Nat) (e : Element) :
    h.addUsingTask t id e = (Record.ofUsingTask t id e).foldl apply h := by
  rw [addUsingTask, Record.ofUsingTask]
  cases e.value? "TaskName" with
  | none => rfl
  | some qualified =>
    dsimp only [Option.map_some]
    split
    · rfl
    · rw [List.foldl_cons, List.foldl_map]
      rfl

theorem addInvocation_eq (h : Harvest) (t : Tree) (id : Nat) (rule : ElementRule) (e : Element) :
    h.addInvocation t id rule e = (Record.ofInvocation t id rule e).foldl apply h := by
  rw [Record.ofInvocation, List.foldl_cons, List.foldl_append, List.foldl_map, List.foldl_map,
    outputNames, List.foldl_map]
  rfl

theorem addElement_eq (h : Harvest) (t : Tree) (id : Nat) (rule : ElementRule) (e : Element) :
    h.addElement t id rule e = (Record.ofElement t id rule e).foldl apply h := by
  unfold addElement Record.ofElement
  cases rule.construct <;> dsimp only
  case sdk => simp [apply]
  case property => exact addProperty_eq h e.name (textOf t id)
  case item | itemDefinition => simp only [List.foldl_cons, List.foldl_map, apply]
  case metadata => cases t.parentName? id <;> rfl
  case target =>
    -- left to `rfl`, the trimmed name would be computed
    cases e.value? "Name" with
    | none => rfl
    | some name => simp only [Option.toList_some, List.map_cons, List.map_nil, List.foldl_cons,
        List.foldl_nil, apply]
  case usingTask => exact addUsingTask_eq h t id e
  case task => exact addInvocation_eq h t id rule e
  all_goals rfl

/-- an element does what its records do -/
theorem visit_eq (h : Harvest) (t : Tree) (entry : Nat × ElementRule) :
    visit t h entry = (records t entry).foldl apply h := by
  unfold visit records
  cases t.element? entry.1 with
  | none => rfl
  | some e =>
    dsimp only
    rw [addElement_eq, List.foldl_append]
    congr 1
    cases e.value? "Condition" with
    | none => rfl
    | some condition =>
      rw [Option.toList_some, List.flatMap_singleton]
      exact addCondition_eq_foldl h condition

/-! ### The records of a document -/

theorem foldl_visit_eq (h : Harvest) (t : Tree) (entries : List (Nat × ElementRule)) :
    entries.foldl (visit t) h = (entries.flatMap (records t)).foldl apply h := by
  induction entries generalizing h with
  | nil => rfl
  | cons entry entries ih =>
    rw [List.foldl_cons, ih, visit_eq, List.flatMap_cons, List.foldl_append]

theorem flatMap_withRule (t : Tree) (ids : List Nat) :
    (withRule t ids).flatMap (records t) = ids.flatMap (recordsAt t) := by
  induction ids with
  | nil => rfl
  | cons id ids ih =>
    rw [withRule, List.filterMap_cons, List.flatMap_cons, ← ih, recordsAt]
    cases t.rule? id <;> rfl

/-- a document is the sum of the records of its elements -/
theorem ofTree_eq_foldl (hl : t.Linked) :
    ofTree t = (t.projectElements.flatMap (recordsAt t)).foldl apply empty := by
  rw [ofTree_eq hl, foldl_visit_eq, flatMap_withRule]

/-- what holds before anything is recorded and is kept by every record holds of all documents -/
theorem ofTree_induction {P : Harvest → Prop} (hempty : P empty)
    (hstep : ∀ h record, P h → P (h.apply record)) (t : Tree) : P (ofTree t) := by
  have hrecords : ∀ (rs : List Record) (h : Harvest), P h → P (rs.foldl apply h) := by
    intro rs
    induction rs with
    | nil => exact fun h hp => hp
    | cons record rs ih => exact fun h hp => ih _ (hstep h record hp)
  rw [ofTree]
  split
  · rw [foldl_visit_eq]
    exact hrecords _ empty hempty
  · exact hempty

end Harvest
end ProjectSense
