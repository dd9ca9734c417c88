import ProjectSense.Completion.Item
import ProjectSense.Proofs.Document.Declared
import ProjectSense.Proofs.Schema.Precedence

/-!
# Declarations without a name

Where a tag has just been begun, an element has no name yet.  What the grammar takes it for decides
whether it is recorded all the same: properties, items, metadata, tasks and the parameters in a
group are, and so a document can declare the empty name.  Targets, values, the attributes of an
invocation and its outputs never do.

* `Schema.names`: the names of a schema of one kind.
* `Tree.Nameless`: an element of the kind has no name.
* `Harvest.empty_mem_names`: the kinds of which a document declares the empty name.
-/

namespace ProjectSense

/-- the names that a schema declares of a kind, under whatever item or task; configurations and
platforms are values -/
def Schema.names (s : Schema) : CompletionKind → List String
  | .item => spellings s.items
  | .property => spellings s.properties
  | .metadata => s.metadata.values.flatMap spellings
  | .task => spellings s.tasks
  | .parameter => s.parameters.values.flatMap spellings
  | .target => spellings s.targets
  | .value => s.configurations ++ s.platforms
  | _ => []

/-- the elements whose own names are names of the kind -/
def CompletionKind.constructs : CompletionKind → List Construct
  | item => [.item, .itemDefinition]
  | property => [.property]
  | metadata => [.metadata]
  | task => [.task]
  | _ => []

/-- an element of the kind has no name; a parameter counts in a group of a task with a name -/
def Tree.Nameless (t : Tree) : CompletionKind → Prop
  | .parameter => ∃ id ∈ t.projectElements, t.construct? id = some .usingTask ∧
      (∃ task ∈ (t.value? id "TaskName").map Harvest.shortTaskName, task ≠ "") ∧
        ∃ p ∈ Harvest.groupParameters t id, p.name = ""
  | kind => ∃ id ∈ t.projectElements, t.elementName? id = some "" ∧
      ∃ construct ∈ kind.constructs, t.construct? id = some construct

/-! ### What is listed under names -/

namespace NameMap

variable {Facts : Type} {m : NameMap (List (Declared Facts))} {key : Name} {name : String}

theorem mem_names_of_find? (h : name ∈ ProjectSense.spellings ((m.find? key).getD [])) :
    name ∈ m.values.flatMap ProjectSense.spellings := by
  cases hfind : m.find? key with
  | none => simp [hfind, ProjectSense.spellings] at h
  | some ds =>
    rw [hfind] at h
    obtain ⟨e, he, rfl⟩ := Option.map_eq_some_iff.1 hfind
    exact List.mem_flatMap.2
      ⟨e.2, List.mem_map_of_mem (List.mem_of_find?_eq_some he), h⟩

/-- where no name stands twice, all that is listed is found -/
theorem Holds.mem_names_iff {P : Name → List (Declared Facts) → Prop} (h : m.Holds P) :
    name ∈ m.values.flatMap ProjectSense.spellings ↔
      ∃ key : String, name ∈ ProjectSense.spellings ((m.find? ⟨key⟩).getD []) := by
  refine ⟨fun hmem => ?_, fun ⟨_, hmem⟩ => mem_names_of_find? hmem⟩
  obtain ⟨ds, hds, hname⟩ := List.mem_flatMap.1 hmem
  obtain ⟨e, he, rfl⟩ := List.mem_map.1 hds
  refine ⟨e.1.spelling, ?_⟩
  rw [show m.find? ⟨e.1.spelling⟩ = some e.2 from h.find?_of_mem he]
  exact hname

/-- declarations gathered from elements have the empty name if one of the elements gives it -/
theorem Lists.empty_mem_iff {m : NameMap (Declared Facts)} {ids : List Nat}
    {names : Nat → List String} (h : m.Lists (distinctNames (ids.flatMap names))) :
    "" ∈ ProjectSense.spellings m.values ↔ ∃ id ∈ ids, "" ∈ names id := by
  rw [ProjectSense.spellings, h.values, empty_mem_distinctNames, List.mem_flatMap]

end NameMap

theorem empty_mem_spellings {Facts : Type} {ds : List (Declared Facts)} :
    "" ∈ spellings ds ↔ (lookUp "" ds).isSome := by
  rw [Option.isSome_iff_ne_none, ← exists_spelledBy_iff, spellings, List.mem_map]
  simp only [Name.spelledBy, sameName_empty]

namespace Harvest

variable {text task : String} {t : Tree} {id : Nat}

/-! ### Each kind -/

theorem empty_mem_properties (hl : t.Linked) :
    "" ∈ (ofTree t).schema.names .property ↔ t.Nameless .property := by
  have hlists := (adds_ofTree hl).properties [] NameMap.lists_empty
  refine hlists.empty_mem_iff.trans (exists_congr fun id => and_congr_right fun _ => ?_)
  simp [Tree.propertyNames, CompletionKind.constructs, and_comm]

theorem empty_mem_items (hl : t.Linked) :
    "" ∈ (ofTree t).schema.names .item ↔ t.Nameless .item := by
  have hlists := (adds_ofTree hl).items [] NameMap.lists_empty
  refine hlists.empty_mem_iff.trans (exists_congr fun id => and_congr_right fun _ => ?_)
  simp [Tree.itemNames, CompletionKind.constructs, and_comm]

theorem empty_mem_tasks (hl : t.Linked) :
    "" ∈ (ofTree t).schema.names .task ↔ t.Nameless .task := by
  have hlists := (adds_ofTree hl).tasks [] NameMap.lists_empty
  refine hlists.empty_mem_iff.trans (exists_congr fun id => and_congr_right fun _ => ?_)
  -- a task that is registered has a name, so that only invocations count
  simp only [Tree.taskNames, CompletionKind.constructs]
  split
  · next htask => simp [htask]
  · next husing => simp [husing]
  · next hother _ => simpa using fun _ htask => hother htask

theorem empty_notMem_targets (hl : t.Linked) : "" ∉ (ofTree t).schema.names .target := by
  have hlists := (adds_ofTree hl).targets [] NameMap.lists_empty
  refine hlists.empty_mem_iff.not.2 fun ⟨id, _, hname⟩ => ?_
  rw [Tree.targetNames] at hname
  split at hname
  · simp at hname
  · cases hname

/-- attributes have names, so that metadata without one is an element -/
theorem empty_mem_metadataNames {item : String} {id : Nat} :
    let t := Tree.parse text
    "" ∈ t.metadataNames item id ↔ t.construct? id = some .metadata ∧
      t.elementName? id = some "" ∧ (t.parentName? id).any (sameName · item) := by
  intro t
  rw [Tree.metadataNames, Tree.construct?, Tree.elementName?]
  cases hr : t.rule? id with
  | none => simp
  | some rule =>
    cases he : t.element? id with
    | none => simp
    | some e =>
      simp only [Option.map_some, Option.some.injEq]
      split
      · next hitem =>
        refine iff_of_false (fun h => ?_) (by simp [hitem])
        split at h
        · obtain ⟨a, ha, hname⟩ := List.mem_map.1 (List.mem_filter.1 h).1
          exact Tree.attribute_name_ne he ha hname
        · cases h
      · next hmetadata =>
        rw [hmetadata]
        split
        · next hparent =>
          simp only [List.mem_singleton, hparent, and_true, true_and]
          exact eq_comm
        · next hparent => simp [hparent]
      · next hother => exact iff_of_false List.not_mem_nil fun h => hother h.1

theorem empty_mem_metadata (text : String) :
    let t := Tree.parse text
    "" ∈ (ofTree t).schema.names .metadata ↔ t.Nameless .metadata := by
  intro t
  have hl := Tree.linked_parse text
  have hitem : ∀ item, "" ∈ spellings ((ofTree t).schema.metadataOf item) ↔
      ∃ id ∈ t.projectElements, t.construct? id = some .metadata ∧
        t.elementName? id = some "" ∧ (t.parentName? id).any (sameName · item) := by
    intro item
    have hlists := (adds_ofTree hl).metadata (fun _ => []) (fun _ => NameMap.lists_empty) item
    rw [metadataOf_schema]
    exact hlists.empty_mem_iff.trans
      (exists_congr fun id => and_congr_right fun _ => empty_mem_metadataNames)
  have hholds : ((ofTree t).metadata.map NameMap.values).Holds fun _ _ => True :=
    (consistent_ofTree t).metadata.map fun _ _ _ => trivial
  refine hholds.mem_names_iff.trans ((exists_congr hitem).trans ?_)
  constructor
  · rintro ⟨item, id, hid, hmetadata, hname, -⟩
    exact ⟨id, hid, hname, .metadata, List.mem_singleton_self _, hmetadata⟩
  · rintro ⟨id, hid, hname, construct, hc, hconstruct⟩
    obtain rfl := List.mem_singleton.1 hc
    obtain ⟨rule, hr, hmetadata⟩ := Option.map_eq_some_iff.1 hconstruct
    obtain ⟨item, hitem⟩ := Tree.parentName?_of_metadata hl hr hmetadata
    refine ⟨item, id, hid, hconstruct, hname, ?_⟩
    rw [hitem]
    exact sameName_refl item

/-- invocations mention no parameter of the empty name -/
theorem mentions_empty_ne_nil : t.mentions task "" id ≠ [] ↔
    t.construct? id = some .usingTask ∧
      (∃ short ∈ (t.value? id "TaskName").map shortTaskName, sameName short task ∧ task ≠ "") ∧
        ∃ p ∈ groupParameters t id, p.name = "" := by
  rw [Tree.mentions, Tree.construct?, Tree.value?]
  cases hr : t.rule? id with
  | none => simp
  | some rule =>
    cases he : t.element? id with
    | none => simp
    | some e =>
      simp only [Option.map_some, Option.some.injEq]
      split
      · next htask => simp [htask]
      · next husing =>
        have hany : ∀ o : Option String, o.any (sameName · task) ↔
            ∃ short ∈ o, sameName short task := by
          intro o
          cases o <;> simp
        have hnamed : ¬(groupParameters t id).filter (·.isNamed "") = [] ↔
            ∃ p ∈ groupParameters t id, p.name = "" := by
          simp only [Element.isNamed, sameName_empty, List.filter_eq_nil_iff, not_forall, not_not,
            exists_prop]
        rw [ite_ne_right_iff, hany]
        simp only [ne_eq, List.map_eq_nil_iff, hnamed, husing, true_and]
        simp only [← exists_and_right, and_assoc, Option.bind_eq_bind, Option.bind_some]
      · next husing => exact iff_of_false (fun h => h rfl) fun h => husing h.1

theorem empty_mem_parameters (hl : t.Linked) :
    "" ∈ (ofTree t).schema.names .parameter ↔ t.Nameless .parameter := by
  have htask : ∀ task, "" ∈ spellings ((ofTree t).schema.parametersOf task) ↔
      ∃ id ∈ t.projectElements, t.mentions task "" id ≠ [] := by
    intro task
    rw [empty_mem_spellings, lookUp_parametersOf (consistent_ofTree t), ← Option.isSome_map,
      ← output?, output?_ofTree hl, Mention.isSome_foldl_note]
    simp
  have hholds : ((ofTree t).parameters.map NameMap.values).Holds fun _ _ => True :=
    (consistent_ofTree t).parameters.map fun _ _ _ => trivial
  refine hholds.mem_names_iff.trans ((exists_congr htask).trans ?_)
  simp only [mentions_empty_ne_nil]
  constructor
  · rintro ⟨task, id, hid, husing, ⟨short, hshort, hsame, hne⟩, hp⟩
    exact ⟨id, hid, husing, ⟨short, hshort, mt (eq_empty_congr hsame).1 hne⟩, hp⟩
  · rintro ⟨id, hid, husing, ⟨short, hshort, hne⟩, hp⟩
    exact ⟨short, id, hid, husing, ⟨short, hshort, sameName_refl short, hne⟩, hp⟩

theorem empty_notMem_values (t : Tree) : "" ∉ (ofTree t).schema.names .value := by
  have hliteral : ∀ property, ∀ v ∈ (ofTree t).declared.valuesOf property, v ≠ "" := by
    intro property v hv
    obtain ⟨values, hfind, hv⟩ : ∃ values, (ofTree t).declared.find? ⟨property⟩ = some values ∧
        v ∈ values := by
      rw [Values.valuesOf] at hv
      cases hfind : (ofTree t).declared.find? ⟨property⟩ with
      | none => simp [hfind] at hv
      | some values => exact ⟨values, rfl, by simpa [hfind] using hv⟩
    obtain ⟨key, -, hlists⟩ := (consistent_ofTree t).declared.of_find? hfind
    exact (hlists.literal v hv).1
  intro h
  rcases List.mem_append.1 h with h | h
  · exact hliteral _ _ h rfl
  · exact hliteral _ _ h rfl

/-! ### Every document -/

/-- A document declares the empty name of just those kinds of which an element has no name.  Of
targets and values it never does, nor of parameters that are only given or taken. -/
theorem empty_mem_names (text : String) (kind : CompletionKind) :
    let t := Tree.parse text
    "" ∈ (ofTree t).schema.names kind ↔ t.Nameless kind := by
  intro t
  have hl := Tree.linked_parse text
  cases kind with
  | property => exact empty_mem_properties hl
  | item => exact empty_mem_items hl
  | task => exact empty_mem_tasks hl
  | metadata => exact empty_mem_metadata text
  | parameter => exact empty_mem_parameters hl
  | target =>
    simpa [Tree.Nameless, CompletionKind.constructs] using empty_notMem_targets hl
  | value => simpa [Tree.Nameless, CompletionKind.constructs] using empty_notMem_values t
  | _ => simp [Schema.names, Tree.Nameless, CompletionKind.constructs]

end Harvest
end ProjectSense
