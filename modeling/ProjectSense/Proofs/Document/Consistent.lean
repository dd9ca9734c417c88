import ProjectSense.Proofs.Document.Condition
import ProjectSense.Proofs.Document.Properties
import ProjectSense.Proofs.Schema.Lookup

/-!
# What a document declares is consistent

Names are declared once, in whatever case, metadata and parameters belong to what they are listed
under, and the values of properties are literal texts.  What a document offers for a property is
among the values that the property takes.

* `Harvest.Consistent`: the invariant; `Harvest.consistent_apply`: every record keeps it.
* `Harvest.wellFormed_schema`: what it says of the declarations and the values of every document.
-/

namespace ProjectSense

/-! ### Maps of declarations -/

namespace NameMap

variable {Facts : Type} {m : NameMap (Declared Facts)}

/-- every declaration stands under its name -/
def Labelled (m : NameMap (Declared Facts)) : Prop := m.Holds fun key d => d.name.same key = true

/-- where declarations stand under their names, no two have the same -/
theorem Labelled.apart_values (h : m.Labelled) : NamesApart (m.values.map (·.name.spelling)) := by
  refine List.pairwise_map.2 (List.pairwise_map.2 ?_)
  refine (List.pairwise_map.1 h.apart).imp_of_mem fun {e f} he hf hne => ?_
  have hsame : sameName e.2.name.spelling f.2.name.spelling =
      sameName e.1.spelling f.1.spelling := by
    rw [sameName_congr (h.all e he), sameName_comm, sameName_congr (h.all f hf), sameName_comm]
  rw [hsame]
  exact hne

/-- looking up a declaration by its name finds what stands under the name -/
theorem Labelled.lookUp_values (h : m.Labelled) (name : String) :
    lookUp name m.values = m.find? ⟨name⟩ := by
  have hnames : ∀ e ∈ m.entries, e.2.name.spelledBy name = e.1.same ⟨name⟩ := fun e he =>
    sameName_congr (h.all e he) name
  rw [lookUp, values, List.find?_map, find?, ← List.head?_filter, ← List.head?_filter]
  exact congrArg (fun es => es.head?.map (·.2)) (List.filter_congr hnames)

theorem Labelled.insertIfNew (h : m.Labelled) {name : String} {d : Declared Facts}
    (hd : d.name = ⟨name⟩) : (m.insertIfNew ⟨name⟩ d).Labelled :=
  Holds.upsert h (hd ▸ Name.same_refl _) fun _ _ _ hb => hb

end NameMap

namespace Harvest

open NameMap (Labelled)
open Condition (counts counts_iff)

/-! ### The invariant -/

/-- some text, without signs of references -/
def IsLiteral (value : String) : Prop := value ≠ "" ∧ ∀ c ∈ value.toList, c ∉ ['$', '@', '%']

theorem isLiteral_iff {value : String} : isLiteral value = true ↔ IsLiteral value := by
  simp [isLiteral, IsLiteral, and_assoc]

/-- the values of a property that has a name: at least one, all literal, and none twice -/
structure Lists (property : Name) (values : List String) : Prop where
  named : property.spelling ≠ ""
  some : values ≠ []
  literal : ∀ v ∈ values, IsLiteral v
  apart : NamesApart values

structure Consistent (h : Harvest) : Prop where
  items : h.items.Labelled
  properties : h.properties.Holds fun key d =>
    d.name.same key = true ∧ ∀ v, d.facts.default = some v → IsLiteral v
  tasks : h.tasks.Labelled
  targets : h.targets.Labelled
  metadata : h.metadata.Holds fun item m => m.Holds fun key d =>
    d.name.same key = true ∧ ∃ owner, d.facts.item = some owner ∧ owner.same item = true
  parameters : h.parameters.Holds fun task m => m.Holds fun key d =>
    d.name.same key = true ∧ d.facts.task.same task = true
  values : h.values.Holds Lists
  declared : h.declared.Holds Lists
  /-- what is offered for a property is a value that it takes -/
  offered : ∀ name, ∀ v ∈ h.declared.valuesOf name, ∃ w ∈ h.values.valuesOf name,
    sameName w v = true

variable {h : Harvest} {name value : String}

theorem consistent_empty : empty.Consistent where
  items := NameMap.holds_empty
  properties := NameMap.holds_empty
  tasks := NameMap.holds_empty
  targets := NameMap.holds_empty
  metadata := NameMap.holds_empty
  parameters := NameMap.holds_empty
  values := NameMap.holds_empty
  declared := NameMap.holds_empty
  offered _ _ hv := by cases hv

/-! ### Values -/

theorem addName_ne_nil (values : List String) (v : String) : addName values v ≠ [] := by
  obtain ⟨name, hmem, -⟩ := exists_mem_addName values v
  exact List.ne_nil_of_mem hmem

theorem lists_record {vs : Values} (hvs : vs.Holds Lists) (hc : counts (name, value) = true) :
    (record vs name value).Holds Lists := by
  obtain ⟨hliteral, hnamed⟩ := counts_iff.1 hc
  refine hvs.upsert
    ⟨hnamed, by simp, List.forall_mem_singleton.2 hliteral, List.pairwise_singleton _ _⟩ ?_
  intro key values _ hlists
  refine ⟨hlists.named, addName_ne_nil values value, fun v hv => ?_, hlists.apart.addName value⟩
  rcases mem_of_mem_addName hv with hv | rfl
  · exact hlists.literal v hv
  · exact hliteral

/-- recording one more value of a property takes none away -/
theorem mem_valuesOf_record {vs : Values} {property v : String} (hv : v ∈ vs.valuesOf property) :
    v ∈ (record vs name value).valuesOf property := by
  rw [valuesOf_record]
  split
  · exact mem_addName_of_mem hv value
  · exact hv

theorem consistent_addValue (hh : h.Consistent) : (h.addValue name value).Consistent := by
  rw [addValue]
  split
  · next hcounts =>
    exact { hh with
      values := lists_record hh.values hcounts
      offered := fun property v hv => by
        obtain ⟨w, hw, hsame⟩ := hh.offered property v hv
        exact ⟨w, mem_valuesOf_record hw, hsame⟩ }
  · exact hh

theorem consistent_declare (hh : h.Consistent) : (h.declare name value).Consistent := by
  rw [declare_eq h (name, value)]
  split
  · next hcounts =>
    refine { hh with
      values := lists_record hh.values hcounts
      declared := lists_record hh.declared hcounts
      offered := fun property v hv => ?_ }
    -- the value just offered, or one offered before
    have hcases : v ∈ h.declared.valuesOf property ∨ sameName name property = true ∧ v = value := by
      rw [valuesOf_record] at hv
      split at hv
      · next hsame => exact (mem_of_mem_addName hv).imp id fun heq => ⟨hsame, heq⟩
      · exact .inl hv
    rcases hcases with hv | ⟨hsame, rfl⟩
    · obtain ⟨w, hw, hsame⟩ := hh.offered property v hv
      exact ⟨w, mem_valuesOf_record hw, hsame⟩
    · change ∃ w ∈ (record h.values name v).valuesOf property, sameName w v = true
      rw [valuesOf_record, if_pos hsame]
      exact exists_mem_addName _ v
  · exact hh

/-! ### Declarations -/

theorem default_withDefault {text : String} {d : PropertyDecl}
    (hd : ∀ v, d.facts.default = some v → IsLiteral v) :
    ∀ v, (withDefault text d).facts.default = some v → IsLiteral v := by
  intro v hv
  unfold withDefault at hv
  split at hv
  · next hliteral =>
    obtain rfl := Option.some.inj hv
    exact isLiteral_iff.1 (Bool.and_eq_true_iff.1 hliteral).2
  · exact hd v hv

theorem consistent_property (hh : h.Consistent) (text : String) :
    ({ h with properties := assign h.properties name text } : Harvest).Consistent := by
  refine { hh with properties := hh.properties.upsert ⟨?_, ?_⟩ fun key d _ hd => ⟨?_, ?_⟩ }
  · rw [withDefault_name]
    exact Name.same_refl _
  · exact default_withDefault fun v hv => by cases hv
  · rw [withDefault_name]
    exact hd.1
  · exact default_withDefault hd.2

theorem consistent_addMetadata (hh : h.Consistent) (item : String) :
    (h.addMetadata item name).Consistent := by
  let IsOwn (item : Name) (key : Name) (d : MetadataDecl) : Prop :=
    d.name.same key = true ∧ ∃ owner, d.facts.item = some owner ∧ owner.same item = true
  have hadd : ∀ (key : Name) (m : NameMap MetadataDecl), Name.same ⟨item⟩ key = true →
      m.Holds (IsOwn key) →
      (m.insertIfNew ⟨name⟩ (.metadata item name "" .document)).Holds (IsOwn key) :=
    fun key m hkey hm => hm.upsert ⟨Name.same_refl _, _, rfl, hkey⟩ fun _ _ _ hb => hb
  have hmetadata := hh.metadata.upsert
    (hadd ⟨item⟩ .empty (Name.same_refl _) NameMap.holds_empty)
    fun key m hkey hm => hadd key m (Name.same_symm hkey) hm
  exact { hh with metadata := hmetadata }

/-- changing the parameters of a task keeps what each change of a list of parameters keeps -/
theorem consistent_changeParameters (hh : h.Consistent) {task : String}
    {change : NameMap ParameterDecl → NameMap ParameterDecl}
    (hc : ∀ (key : Name) (m : NameMap ParameterDecl), Name.same ⟨task⟩ key = true →
      (m.Holds fun name d => d.name.same name = true ∧ d.facts.task.same key = true) →
      (change m).Holds fun name d => d.name.same name = true ∧ d.facts.task.same key = true) :
    (h.changeParameters task change).Consistent := by
  have hparameters := hh.parameters.upsert
    (hc ⟨task⟩ .empty (Name.same_refl _) NameMap.holds_empty)
    fun key m hkey hm => hc key m (Name.same_symm hkey) hm
  exact { hh with parameters := hparameters }

theorem consistent_addParameter (hh : h.Consistent) (task : String) (output : Bool) :
    (h.addParameter task name output).Consistent := by
  rw [addParameter]
  split
  · exact hh
  · exact consistent_changeParameters hh fun key m hkey hm =>
      hm.upsert ⟨Name.same_refl _, hkey⟩ fun _ d _ hd => hd

theorem consistent_declareParameter (hh : h.Consistent) (task : String) (e : Element) :
    (h.declareParameter task e).Consistent := by
  rw [declareParameter]
  refine consistent_changeParameters hh fun key m hkey hm => hm.upsert ⟨?_, hkey⟩ ?_
  · exact Name.same_refl _
  -- the new declaration takes the place of the old one, under the old spelling of its name
  · exact fun _ _ hname _ => ⟨Name.same_symm hname, hkey⟩

/-- every record keeps the invariant -/
theorem consistent_apply (hh : h.Consistent) (record : Record) : (h.apply record).Consistent := by
  cases record with
  | header version sdk => exact { hh with }
  | value name value => exact consistent_addValue hh
  | offer name value => exact consistent_declare hh
  | property name text => exact consistent_property hh text
  | item name => exact { hh with items := hh.items.insertIfNew rfl }
  | metadata item name => exact consistent_addMetadata hh item
  | target name =>
    simp only [apply, addTarget]
    split
    · exact hh
    · exact { hh with targets := hh.targets.insertIfNew rfl }
  | task name => exact { hh with tasks := hh.tasks.insertIfNew rfl }
  | use task name output => exact consistent_addParameter hh task output
  | parameter task e => exact consistent_declareParameter hh task e

theorem consistent_ofTree (t : Tree) : (ofTree t).Consistent :=
  ofTree_induction consistent_empty (fun _ record hh => consistent_apply hh record) t

end Harvest

/-! ### Every document -/

/-- names are declared once, and metadata and parameters belong to what they are listed under -/
structure Schema.WellFormed (s : Schema) : Prop where
  items : NamesApart (spellings s.items)
  properties : NamesApart (spellings s.properties)
  tasks : NamesApart (spellings s.tasks)
  targets : NamesApart (spellings s.targets)
  metadata : s.metadata.Holds fun item ds => NamesApart (spellings ds) ∧
    ∀ d ∈ ds, ∃ owner, d.facts.item = some owner ∧ owner.same item = true
  parameters : s.parameters.Holds fun task ds => NamesApart (spellings ds) ∧
    ∀ d ∈ ds, d.facts.task.same task = true

namespace Harvest

/-- Whatever a document says, its names are declared once in each list, metadata and parameters are
listed under their item or task, defaults and all recorded values are literal, no list of values is
empty or has a value twice, and what is offered for a property is among its values. -/
theorem wellFormed_schema (t : Tree) :
    let h := ofTree t
    h.schema.WellFormed ∧
      (∀ p ∈ h.schema.properties, ∀ v, p.facts.default = some v → IsLiteral v) ∧
      h.values.Holds Lists ∧ h.declared.Holds Lists ∧
      ∀ name, ∀ v ∈ h.declared.valuesOf name, ∃ w ∈ h.values.valuesOf name,
        sameName w v = true := by
  intro h
  have hh : h.Consistent := consistent_ofTree t
  have hproperties : h.properties.Labelled :=
    ⟨hh.properties.apart, fun e he => (hh.properties.all e he).1⟩
  refine ⟨⟨hh.items.apart_values, hproperties.apart_values, hh.tasks.apart_values,
    hh.targets.apart_values, ?_, ?_⟩, ?_, hh.values, hh.declared, hh.offered⟩
  · refine hh.metadata.map fun item m hm => ⟨?_, List.forall_mem_map.2 fun e he => ?_⟩
    · have hlabelled : m.Labelled := ⟨hm.apart, fun e he => (hm.all e he).1⟩
      exact hlabelled.apart_values
    · exact (hm.all e he).2
  · refine hh.parameters.map fun task m hm => ⟨?_, List.forall_mem_map.2 fun e he => ?_⟩
    · have hlabelled : m.Labelled := ⟨hm.apart, fun e he => (hm.all e he).1⟩
      exact hlabelled.apart_values
    · exact (hm.all e he).2
  · exact List.forall_mem_map.2 fun e he => (hh.properties.all e he).2

end Harvest
end ProjectSense
