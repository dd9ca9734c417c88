import ProjectSense.Proofs.Document.Records
import ProjectSense.Proofs.Text.Break
import ProjectSense.Proofs.Text.NameMap

/-!
# The names that a document declares

What is recorded while the walk goes on are the names of the elements, sorted by what the grammar
takes each element for, every name once and in document order.

* `Harvest.shortTaskName_qualified`, `Harvest.shortTaskName_plain`: the name of a registered task.
* `Harvest.Adds`: how recording changes the names; `Harvest.adds_apply`: by those of the record.
* `Names.ofRecords_recordsAt`: the records of an element give the names of the element.
* `Harvest.names_ofTree`: the names of all properties, items, targets, tasks and metadata.
-/

namespace ProjectSense

/-! ### What the grammar takes an element for -/

namespace Tree

def construct? (t : Tree) (id : Nat) : Option Construct := (t.rule? id).map (·.construct)

/-- the name of the element if it is a property -/
def propertyNames (t : Tree) (id : Nat) : List String :=
  if t.construct? id = some .property then (t.elementName? id).toList else []

/-- the name of the element if it is an item, or the definition of one -/
def itemNames (t : Tree) (id : Nat) : List String :=
  if t.construct? id = some .item ∨ t.construct? id = some .itemDefinition then
    (t.elementName? id).toList
  else []

/-- the value of an attribute of the element -/
def value? (t : Tree) (id : Nat) (name : String) : Option String :=
  t.element? id >>= (·.value? name)

/-- the name that a target is given -/
def targetNames (t : Tree) (id : Nat) : List String :=
  if t.construct? id = some .target then
    ((t.value? id "Name").map trimmed).toList.filter fun name => !name.isEmpty
  else []

/-- the task that is invoked, or registered -/
def taskNames (t : Tree) (id : Nat) : List String :=
  match t.construct? id with
  | some .task => (t.elementName? id).toList
  | some .usingTask =>
    ((t.value? id "TaskName").map Harvest.shortTaskName).toList.filter fun name => !name.isEmpty
  | _ => []

/-- the metadata of items of that name: attributes of an item, or an element in one -/
def metadataNames (t : Tree) (item : String) (id : Nat) : List String :=
  match t.rule? id, t.element? id with
  | some rule, some e =>
    match rule.construct with
    | .item =>
      if e.isNamed item then
        (e.attributes.toList.map (·.name)).filter fun name =>
          (rule.attr? name).any (·.construct = .itemMetadata)
      else []
    | .metadata => if (t.parentName? id).any (sameName · item) then [e.name] else []
    | _ => []
  | _, _ => []

end Tree

namespace Harvest

/-- the short name of a task stands after the last dot, without the blanks around it -/
theorem shortTaskName_qualified (front : List Char) {short : List Char} (h : '.' ∉ short) :
    shortTaskName (String.ofList (front ++ '.' :: short)) = String.ofList (Text.trim short) := by
  have hlast : Text.afterLast (· == '.') (front ++ '.' :: short) = short :=
    Text.afterLast_append_cons front (beq_self_eq_true '.') (Text.beq_of_not_mem h)
  rw [shortTaskName, String.toList_ofList, hlast]

/-- a name without dots is short -/
theorem shortTaskName_plain {name : String} (h : '.' ∉ name.toList) :
    shortTaskName name = trimmed name := by
  rw [shortTaskName, Text.afterLast_eq_self (Text.beq_of_not_mem h), trimmed]

end Harvest

/-! ### Rules of the grammar -/

namespace ElementRule

variable {r c : ElementRule} {name : String}

theorem childRules_mem (h : c ∈ r.childRules) : c ∈ Grammar.elements := by
  obtain ⟨construct, -, hc⟩ := List.mem_filterMap.1 h
  exact List.mem_of_find?_eq_some hc

theorem child?_mem (h : r.child? name = some c) : c ∈ Grammar.elements := by
  rcases Option.or_eq_some_iff.1 h with h | ⟨-, h⟩
  · exact childRules_mem (List.mem_of_find?_eq_some h)
  · exact childRules_mem (List.mem_of_find?_eq_some h)

theorem attr?_mem {a : AttributeRule} (h : r.attr? name = some a) : a ∈ r.attributes := by
  rcases Option.or_eq_some_iff.1 h with h | ⟨-, h⟩
  · exact List.mem_of_find?_eq_some h
  · exact List.mem_of_find?_eq_some h

/-- the open category of an item's attributes is metadata -/
theorem isAbstract_item (hr : r ∈ Grammar.elements) (hc : r.construct = .item) :
    ∀ a ∈ r.attributes, a.isAbstract = decide (a.construct = .itemMetadata) := by
  revert r
  decide

theorem isAbstract_itemDefinition (hr : r ∈ Grammar.elements)
    (hc : r.construct = .itemDefinition) : ∀ a ∈ r.attributes, a.isAbstract = false := by
  revert r
  decide

end ElementRule

theorem Tree.rule?_mem {t : Tree} {id : Nat} {rule : ElementRule} (h : t.rule? id = some rule) :
    rule ∈ Grammar.elements := by
  have hpath : ∀ (path : List Nat) (start : ElementRule), start ∈ Grammar.elements →
      path.foldlM (fun rule node => t.elementName? node >>= rule.child?) start = some rule →
      rule ∈ Grammar.elements := by
    intro path
    induction path with
    | nil =>
      rintro start hstart ⟨⟩
      exact hstart
    | cons node path ih =>
      intro start _ hfold
      obtain ⟨next, hnext, hfold⟩ := Option.bind_eq_some_iff.1 hfold
      obtain ⟨name, -, hchild⟩ := Option.bind_eq_some_iff.1 hnext
      exact ih next (ElementRule.child?_mem hchild) hfold
  rw [rule?] at h
  split at h
  · cases h
  · split at h
    · exact hpath _ _ List.mem_cons_self h
    · cases h

/-! ### Lists of declarations -/

namespace NameMap

variable {Facts : Type} {m : NameMap (Declared Facts)} {names : List String}

/-- the map holds declarations of these names, each under its name -/
structure Lists (m : NameMap (Declared Facts)) (names : List String) : Prop where
  spellings : m.spellings = names
  labels : ∀ e ∈ m.entries, e.2.name = e.1

theorem Lists.values (h : m.Lists names) : m.values.map (·.name.spelling) = names := by
  rw [← h.spellings, NameMap.values, NameMap.spellings, List.map_map]
  refine List.map_congr_left fun e he => ?_
  exact congrArg Name.spelling (h.labels e he)

theorem lists_empty : (empty : NameMap (Declared Facts)).Lists [] := ⟨rfl, by simp [empty]⟩

theorem Lists.upsert (h : m.Lists names) {name : String} {fresh : Declared Facts}
    {change : Declared Facts → Declared Facts} (hf : fresh.name = ⟨name⟩)
    (hc : ∀ d, (change d).name = d.name) :
    (m.upsert ⟨name⟩ fresh change).Lists (addName names name) := by
  obtain ⟨hs, hl⟩ := h
  refine ⟨by rw [spellings_upsert, hs], ?_⟩
  obtain ⟨es⟩ := m
  simp only [NameMap.upsert] at hl ⊢
  clear hs
  induction es with
  | nil => simpa [upsertIn] using hf
  | cons e es ih =>
    obtain ⟨he, hes⟩ := List.forall_mem_cons.1 hl
    rw [upsertIn]
    split
    · exact List.forall_mem_cons.2 ⟨(hc e.2).trans he, hes⟩
    · exact List.forall_mem_cons.2 ⟨he, ih hes⟩

/-- the declarations under each name are those of these names -/
def ListsUnder (m : NameMap (NameMap (Declared Facts))) (names : String → List String) : Prop :=
  ∀ key, ((m.find? ⟨key⟩).getD empty).Lists (names key)

theorem ListsUnder.upsert {m : NameMap (NameMap (Declared Facts))} {names : String → List String}
    (h : m.ListsUnder names) {key name : String} {fresh : Declared Facts} (hf : fresh.name = ⟨name⟩)
    {add : NameMap (Declared Facts) → NameMap (Declared Facts)}
    (ha : ∀ m, add m = m.insertIfNew ⟨name⟩ fresh) :
    (m.upsert ⟨key⟩ (add empty) add).ListsUnder fun other =>
      (if sameName key other then [name] else []).foldl addName (names other) := by
  intro other
  have hadd : ∀ found : Option (NameMap (Declared Facts)),
      (some ((found.map add).getD (add empty))).getD empty =
        (found.getD empty).insertIfNew ⟨name⟩ fresh := by
    intro found
    cases found <;> exact ha _
  rw [find?_upsert]
  by_cases hsame : sameName key other = true
  · rw [if_pos (show Name.same ⟨key⟩ ⟨other⟩ = true from hsame), hadd]
    simp only [if_pos hsame]
    exact (h other).upsert hf fun _ => rfl
  · rw [if_neg (show ¬Name.same ⟨key⟩ ⟨other⟩ = true from hsame)]
    simp only [if_neg hsame]
    exact h other

end NameMap

/-! ### What recording adds -/

/-- names of declarations, metadata by item -/
structure Names where
  properties : List String
  items : List String
  targets : List String
  tasks : List String
  metadata : String → List String

namespace Names

def none : Names := ⟨[], [], [], [], fun _ => []⟩

def append (a b : Names) : Names :=
  ⟨a.properties ++ b.properties, a.items ++ b.items, a.targets ++ b.targets, a.tasks ++ b.tasks,
    fun item => a.metadata item ++ b.metadata item⟩

theorem none_append (a : Names) : none.append a = a := rfl

/-- the names that elements give, by what the grammar takes each for -/
def ofElements (t : Tree) (ids : List Nat) : Names :=
  ⟨ids.flatMap t.propertyNames, ids.flatMap t.itemNames, ids.flatMap t.targetNames,
    ids.flatMap t.taskNames, fun item => ids.flatMap (t.metadataNames item)⟩

/-- the names that one element gives -/
def ofElement (t : Tree) (id : Nat) : Names :=
  ⟨t.propertyNames id, t.itemNames id, t.targetNames id, t.taskNames id,
    fun item => t.metadataNames item id⟩

theorem ofElements_cons (t : Tree) (id : Nat) (ids : List Nat) :
    ofElements t (id :: ids) = (ofElement t id).append (ofElements t ids) := rfl

theorem ofElement_of_none {t : Tree} {id : Nat} (h : t.rule? id = Option.none) :
    ofElement t id = none := by
  simp [ofElement, none, Tree.propertyNames, Tree.itemNames, Tree.targetNames, Tree.taskNames,
    Tree.metadataNames, Tree.construct?, h]

theorem ofElement_of_no_element {t : Tree} {id : Nat} (h : t.element? id = Option.none) :
    ofElement t id = none := by
  have hname : t.elementName? id = Option.none := by
    rw [Tree.elementName?, h]
    rfl
  have hvalue : ∀ name, t.value? id name = Option.none := by
    intro name
    rw [Tree.value?, h]
    rfl
  simp only [ofElement, none, Tree.propertyNames, Tree.itemNames, Tree.targetNames,
    Tree.taskNames, Tree.metadataNames, h, hname, hvalue, Option.map_none, Option.toList_none,
    List.filter_nil, ite_self]
  congr 1
  · split <;> rfl
  · funext item
    cases t.rule? id <;> rfl

/-- each kind of element gives names of one kind, an item also metadata -/
theorem ofElement_eq {t : Tree} {id : Nat} {rule : ElementRule} {e : Element}
    (hr : t.rule? id = some rule) (he : t.element? id = some e) :
    ofElement t id = match rule.construct with
      | .property => { none with properties := [e.name] }
      | .item => { none with
          items := [e.name]
          metadata := fun item => if e.isNamed item then
            (e.attributes.toList.map (·.name)).filter fun name =>
              (rule.attr? name).any (·.construct = .itemMetadata)
            else [] }
      | .itemDefinition => { none with items := [e.name] }
      | .metadata => { none with
          metadata := fun item =>
            if (t.parentName? id).any (sameName · item) then [e.name] else [] }
      | .target => { none with
          targets := ((e.value? "Name").map trimmed).toList.filter fun name => !name.isEmpty }
      | .task => { none with tasks := [e.name] }
      | .usingTask => { none with
          tasks := ((e.value? "TaskName").map Harvest.shortTaskName).toList.filter fun name =>
            !name.isEmpty }
      | _ => none := by
  have hname : t.elementName? id = some e.name := by
    rw [Tree.elementName?, he]
    rfl
  have hvalue : ∀ name, t.value? id name = e.value? name := by
    intro name
    rw [Tree.value?, he]
    rfl
  simp only [ofElement, Tree.propertyNames, Tree.itemNames, Tree.targetNames, Tree.taskNames,
    Tree.metadataNames, Tree.construct?, hr, he, hname, hvalue, Option.map_some,
    Option.toList_some]
  cases rule.construct <;> rfl

end Names

namespace Harvest

variable {h h' h'' : Harvest} {a b : Names}

/-- the names recorded in `h'` are those in `h` and the added ones -/
structure Adds (h : Harvest) (added : Names) (h' : Harvest) : Prop where
  properties : ∀ names, h.properties.Lists names →
    h'.properties.Lists (added.properties.foldl addName names)
  items : ∀ names, h.items.Lists names → h'.items.Lists (added.items.foldl addName names)
  targets : ∀ names, h.targets.Lists names → h'.targets.Lists (added.targets.foldl addName names)
  tasks : ∀ names, h.tasks.Lists names → h'.tasks.Lists (added.tasks.foldl addName names)
  metadata : ∀ names, h.metadata.ListsUnder names →
    h'.metadata.ListsUnder fun item => (added.metadata item).foldl addName (names item)

/-- a step that leaves all declarations as they are -/
theorem Adds.of_eq (hp : h'.properties = h.properties) (hi : h'.items = h.items)
    (hg : h'.targets = h.targets) (ht : h'.tasks = h.tasks) (hm : h'.metadata = h.metadata) :
    Adds h .none h' := by
  constructor
  · exact fun _ => hp ▸ id
  · exact fun _ => hi ▸ id
  · exact fun _ => hg ▸ id
  · exact fun _ => ht ▸ id
  · exact fun _ => hm ▸ id

theorem Adds.refl (h : Harvest) : Adds h .none h := .of_eq rfl rfl rfl rfl rfl

theorem Adds.trans (ha : Adds h a h') (hb : Adds h' b h'') : Adds h (a.append b) h'' := by
  constructor
  · intro names hn
    simpa [Names.append] using hb.properties _ (ha.properties _ hn)
  · intro names hn
    simpa [Names.append] using hb.items _ (ha.items _ hn)
  · intro names hn
    simpa [Names.append] using hb.targets _ (ha.targets _ hn)
  · intro names hn
    simpa [Names.append] using hb.tasks _ (ha.tasks _ hn)
  · intro names hn
    simpa [Names.append] using hb.metadata _ (ha.metadata _ hn)

/-! ### Recording -/

/-- the names that a record gives -/
def Record.names : Record → Names
  | .property name _ => { Names.none with properties := [name] }
  | .item name => { Names.none with items := [name] }
  | .metadata owner name =>
    { Names.none with metadata := fun other => if sameName owner other then [name] else [] }
  | .target name => { Names.none with targets := [trimmed name].filter fun name => !name.isEmpty }
  | .task name => { Names.none with tasks := [name] }
  | _ => .none

theorem adds_addTarget (h : Harvest) (name : String) :
    Adds h (Record.target name).names (h.addTarget name) := by
  simp only [addTarget, Record.names]
  cases hname : (trimmed name).isEmpty with
  | true =>
    rw [if_pos rfl, List.filter_cons_of_neg (by simp [hname])]
    exact .refl h
  | false =>
    rw [if_neg Bool.false_ne_true, List.filter_cons_of_pos (by simp [hname])]
    exact ⟨fun _ => id, fun _ => id, fun _ hn => hn.upsert rfl fun _ => rfl, fun _ => id,
      fun _ => id⟩

/-- a record adds the names that it gives -/
theorem adds_apply (h : Harvest) (record : Record) : Adds h record.names (h.apply record) := by
  cases record with
  | header version sdk => exact .of_eq rfl rfl rfl rfl rfl
  | value name value =>
    obtain ⟨values, heq⟩ := exists_apply_value h name value
    exact heq ▸ .of_eq rfl rfl rfl rfl rfl
  | offer name value =>
    obtain ⟨values, declared, heq⟩ := exists_apply_offer h name value
    exact heq ▸ .of_eq rfl rfl rfl rfl rfl
  | property name text =>
    exact ⟨fun _ hn => hn.upsert (withDefault_name ..) (withDefault_name text), fun _ => id,
      fun _ => id, fun _ => id, fun _ => id⟩
  | item name =>
    exact ⟨fun _ => id, fun _ hn => hn.upsert rfl fun _ => rfl, fun _ => id, fun _ => id,
      fun _ => id⟩
  | metadata item name =>
    have hfresh : (Declared.metadata item name "" .document).name = ⟨name⟩ := rfl
    exact ⟨fun _ => id, fun _ => id, fun _ => id, fun _ => id,
      fun _ hn => hn.upsert hfresh fun _ => rfl⟩
  | target name => exact adds_addTarget h name
  | task name =>
    exact ⟨fun _ => id, fun _ => id, fun _ => id, fun _ hn => hn.upsert rfl fun _ => rfl,
      fun _ => id⟩
  | use task name output =>
    obtain ⟨parameters, heq⟩ := exists_apply_use h task name output
    exact heq ▸ .of_eq rfl rfl rfl rfl rfl
  | parameter task e => exact .of_eq rfl rfl rfl rfl rfl

variable {rule : ElementRule} {e : Element}

theorem openAttributes_item (hr : rule ∈ Grammar.elements) (hc : rule.construct = .item) :
    openAttributes rule e = (e.attributes.toList.map (·.name)).filter fun name =>
      (rule.attr? name).any (·.construct = .itemMetadata) := by
  rw [openAttributes]
  refine List.filter_congr fun name _ => ?_
  cases ha : rule.attr? name with
  | none => rfl
  | some a => exact ElementRule.isAbstract_item hr hc a (ElementRule.attr?_mem ha)

theorem openAttributes_itemDefinition (hr : rule ∈ Grammar.elements)
    (hc : rule.construct = .itemDefinition) : openAttributes rule e = [] := by
  rw [openAttributes]
  refine List.filter_eq_nil_iff.2 fun name _ => ?_
  cases ha : rule.attr? name with
  | none => simp
  | some a =>
    simp [ElementRule.isAbstract_itemDefinition hr hc a (ElementRule.attr?_mem ha)]

end Harvest

/-! ### The names of records -/

namespace Names

open Harvest

/-- the names that records give -/
def ofRecords (rs : List Record) : Names :=
  ⟨rs.flatMap (·.names.properties), rs.flatMap (·.names.items), rs.flatMap (·.names.targets),
    rs.flatMap (·.names.tasks), fun item => rs.flatMap (·.names.metadata item)⟩

theorem ofRecords_cons (record : Record) (rs : List Record) :
    ofRecords (record :: rs) = record.names.append (ofRecords rs) := rfl

theorem ofRecords_append (rs rs' : List Record) :
    ofRecords (rs ++ rs') = (ofRecords rs).append (ofRecords rs') := by
  simp [ofRecords, append]

theorem ofRecords_eq_none {rs : List Record} (h : ∀ record ∈ rs, record.names = none) :
    ofRecords rs = none := by
  induction rs with
  | nil => rfl
  | cons record rs ih =>
    obtain ⟨hrecord, hrs⟩ := List.forall_mem_cons.1 h
    rw [ofRecords_cons, hrecord, none_append, ih hrs]

theorem ofRecords_metadata (item : String) (names : List String) :
    ofRecords (names.map (Record.metadata item)) =
      { none with metadata := fun other => if sameName item other then names else [] } := by
  induction names with
  | nil => simp [ofRecords, none]
  | cons name names ih =>
    rw [List.map_cons, ofRecords_cons, ih]
    simp only [append, Record.names, none, List.append_nil, mk.injEq, true_and]
    funext other
    split <;> rfl

variable {t : Tree} {id : Nat} {rule : ElementRule} {e : Element}

theorem ofRecords_ofProperty (name text : String) :
    ofRecords (Record.ofProperty name text) = { none with properties := [name] } := by
  have hplural : ∀ record ∈ Record.ofPlural name text, record.names = none := by
    rw [Record.ofPlural]
    split
    · split
      · exact List.forall_mem_map.2 fun _ _ => rfl
      · exact List.forall_mem_nil _
    · exact List.forall_mem_nil _
  rw [Record.ofProperty, ofRecords_cons, ofRecords_append, ofRecords_eq_none hplural]
  rfl

theorem ofRecords_ofUsingTask (t : Tree) (id : Nat) (e : Element) :
    ofRecords (Record.ofUsingTask t id e) = { none with tasks :=
      ((e.value? "TaskName").map shortTaskName).toList.filter fun name => !name.isEmpty } := by
  rw [Record.ofUsingTask]
  cases (e.value? "TaskName").map shortTaskName with
  | none => rfl
  | some short =>
    dsimp only [Option.toList_some]
    cases hname : short.isEmpty with
    | true =>
      rw [if_pos rfl, List.filter_cons_of_neg (by simp [hname])]
      rfl
    | false =>
      rw [if_neg Bool.false_ne_true, List.filter_cons_of_pos (by simp [hname]), ofRecords_cons,
        ofRecords_eq_none (List.forall_mem_map.2 fun _ _ => rfl)]
      rfl

theorem ofRecords_ofInvocation (t : Tree) (id : Nat) (rule : ElementRule) (e : Element) :
    ofRecords (Record.ofInvocation t id rule e) = { none with tasks := [e.name] } := by
  rw [Record.ofInvocation, ofRecords_cons, ofRecords_append,
    ofRecords_eq_none (List.forall_mem_map.2 fun _ _ => rfl),
    ofRecords_eq_none (List.forall_mem_map.2 fun _ _ => rfl)]
  rfl

/-- the records of an element give the names that it gives -/
theorem ofRecords_recordsAt (t : Tree) (id : Nat) :
    ofRecords (recordsAt t id) = ofElement t id := by
  rw [recordsAt]
  cases hr : t.rule? id with
  | none => exact (ofElement_of_none hr).symm
  | some rule =>
    have hrule := Tree.rule?_mem hr
    dsimp only
    rw [records]
    cases he : t.element? id with
    | none => exact (ofElement_of_no_element he).symm
    | some e =>
      have hcondition : ∀ record ∈ (e.value? "Condition").toList.flatMap Record.ofCondition,
          record.names = none := by
        intro record hrecord
        obtain ⟨condition, -, hmem⟩ := List.mem_flatMap.1 hrecord
        obtain ⟨p, -, rfl⟩ := List.mem_map.1 hmem
        rfl
      dsimp only
      rw [ofRecords_append, ofRecords_eq_none hcondition, none_append, ofElement_eq hr he,
        Record.ofElement]
      cases hc : rule.construct with
      | property => exact ofRecords_ofProperty e.name (textOf t id)
      | item =>
        dsimp only
        rw [openAttributes_item hrule hc, ofRecords_cons, ofRecords_metadata]
        rfl
      | itemDefinition =>
        dsimp only
        rw [openAttributes_itemDefinition hrule hc]
        rfl
      | metadata =>
        cases t.parentName? id with
        | none => rfl
        | some item => exact ofRecords_metadata item [e.name]
      | target =>
        cases e.value? "Name" with
        | none => rfl
        | some name => simp [ofRecords, Record.names, none]
      | usingTask => exact ofRecords_ofUsingTask t id e
      | task => exact ofRecords_ofInvocation t id rule e
      | _ => rfl

theorem ofRecords_flatMap (t : Tree) (ids : List Nat) :
    ofRecords (ids.flatMap (recordsAt t)) = ofElements t ids := by
  induction ids with
  | nil => rfl
  | cons id ids ih =>
    rw [List.flatMap_cons, ofRecords_append, ofRecords_recordsAt, ih, ofElements_cons]

end Names

/-! ### The walk -/

namespace Harvest

variable {t : Tree}

theorem adds_foldl (h : Harvest) (rs : List Record) :
    Adds h (.ofRecords rs) (rs.foldl apply h) := by
  induction rs generalizing h with
  | nil => exact .refl h
  | cons record rs ih =>
    rw [Names.ofRecords_cons]
    exact (adds_apply h record).trans (ih (h.apply record))

/-- after a walk the names of all elements are recorded -/
theorem adds_walk (h : Harvest) (ids : List Nat) :
    Adds h (.ofElements t ids) ((withRule t ids).foldl (visit t) h) := by
  rw [foldl_visit_eq, flatMap_withRule, ← Names.ofRecords_flatMap]
  exact adds_foldl h _

/-- What a text declares are the names of the elements of its project, sorted by what the grammar
takes each element for from the root down, every name once, as it was first spelled, and in
document order. -/
theorem names_ofTree (text : String) :
    let t := Tree.parse text
    let s := (ofTree t).schema
    s.properties.map (·.name.spelling) =
        distinctNames (t.projectElements.flatMap t.propertyNames) ∧
      s.items.map (·.name.spelling) = distinctNames (t.projectElements.flatMap t.itemNames) ∧
      s.targets.map (·.name.spelling) = distinctNames (t.projectElements.flatMap t.targetNames) ∧
      s.tasks.map (·.name.spelling) = distinctNames (t.projectElements.flatMap t.taskNames) ∧
      ∀ item, (s.metadataOf item).map (·.name.spelling) =
        distinctNames (t.projectElements.flatMap (t.metadataNames item)) := by
  intro t s
  have hadds := adds_walk (t := t) empty t.projectElements
  rw [← ofTree_eq (Tree.linked_parse text)] at hadds
  refine ⟨(hadds.properties [] NameMap.lists_empty).values,
    (hadds.items [] NameMap.lists_empty).values, (hadds.targets [] NameMap.lists_empty).values,
    (hadds.tasks [] NameMap.lists_empty).values, fun item => ?_⟩
  have hmetadata := hadds.metadata (fun _ => []) (fun _ => NameMap.lists_empty) item
  have hvalues : s.metadataOf item =
      (((ofTree t).metadata.find? ⟨item⟩).getD .empty).values := by
    change (((ofTree t).metadata.map NameMap.values).find? ⟨item⟩).getD [] = _
    rw [NameMap.find?_map]
    cases (ofTree t).metadata.find? ⟨item⟩ <;> rfl
  rw [hvalues]
  exact hmetadata.values

end Harvest
end ProjectSense
