import ProjectSense.Proofs.Completion.Open
import ProjectSense.Proofs.Document.Properties
import ProjectSense.Proofs.Schema.Precedence

/-!
# Properties that the build sets

The built-in schema marks the properties that the build sets itself.  The mark is a fact of the
first declaration of a name, so that a more specific declaration without it takes its place.

* `Registry.exists_property_iff`: the properties that can be assigned, by their first declaration.
* `Document.completions_namesProperty`: these are what a group of properties is offered.
* `Document.property_assigned`: where a marked property is among them all the same.
-/

namespace ProjectSense

variable {Facts : Type} {name : String} {ds : List (Declared Facts)}

/-! ### The first declaration of a name -/

theorem lookUp_congr {other : String} (h : sameName name other = true)
    (ds : List (Declared Facts)) : lookUp name ds = lookUp other ds := by
  rw [lookUp, lookUp]
  congr 1
  funext d
  rw [Name.spelledBy, Name.spelledBy, sameName, sameName, sameName_iff.1 h]

theorem lookUp_append (name : String) (ds es : List (Declared Facts)) :
    lookUp name (ds ++ es) = (lookUp name ds).or (lookUp name es) := List.find?_append

/-- the facts of what is enumerated under a name are those of its first declaration -/
theorem facts_lookUp_merge (name : String) (ds : List (Declared Facts)) :
    (lookUp name (merge ds)).map (·.facts) = (lookUp name ds).map (·.facts) := by
  have horigin := origin_firstFilled (named name ds)
  rw [← lookUp_merge, ← lookUp_eq_head?] at horigin
  have hfacts := congrArg (Option.map fun o : Name × Provenance × Facts => o.2.2) horigin
  rwa [Option.map_map, Option.map_map] at hfacts

/-- among entries of different names one is found under all spellings of its name -/
theorem lookUp_of_spelledBy {e : Declared Facts} (h : NamesApart (spellings ds)) (he : e ∈ ds)
    (hname : e.name.spelledBy name = true) : lookUp name ds = some e :=
  (lookUp_congr hname ds).symm.trans (lookUp_of_mem h he)

/-! ### Enumerating -/

namespace Registry

/-- a property can be assigned if the first declaration of its name does not mark it -/
theorem exists_property_iff (r : Registry) (name : String) :
    (∃ p ∈ r.properties false, p.name.spelledBy name = true) ↔
      ∃ d, lookUp name (r.live.flatMap (·.properties)) = some d ∧ d.facts.reserved = false := by
  have hfacts := facts_lookUp_merge name (r.live.flatMap (·.properties))
  simp only [properties, List.mem_filter, Bool.false_or, Bool.not_eq_true']
  constructor
  · rintro ⟨p, ⟨hp, hfree⟩, hname⟩
    rw [lookUp_of_spelledBy (spellings_merge_apart _) hp hname] at hfacts
    obtain ⟨d, hd, heq⟩ := Option.map_eq_some_iff.1 hfacts.symm
    exact ⟨d, hd, by rw [heq, hfree]⟩
  · rintro ⟨d, hd, hfree⟩
    rw [hd] at hfacts
    obtain ⟨p, hp, heq⟩ := Option.map_eq_some_iff.1 hfacts
    exact ⟨p, ⟨List.mem_of_find?_eq_some hp, by rw [heq, hfree]⟩, spelledBy_of_lookUp hp⟩

/-- under a group of properties nothing but properties is offered -/
theorem elementCandidates_propertyGroup (r : Registry) {s : Site} {rule : ElementRule}
    (hr : s.rule = some rule) (hmem : rule ∈ Grammar.elements)
    (hc : rule.construct = .propertyGroup) :
    elementCandidates r (some s) = .ok ((r.properties false).map .property) := by
  have hchild : rule.childRules.map (fun c => (c.isAbstract, c.construct)) =
      [(true, .property)] := by
    clear hr
    revert rule
    decide
  obtain ⟨child, hrules, heq⟩ := List.map_eq_singleton_iff.1 hchild
  obtain ⟨habstract, hproperty⟩ := Prod.mk.inj heq
  simp only [elementCandidates, hr, Option.map_some, Option.bind_eq_bind, Option.bind_some, hrules]
  rw [List.mapM_cons, List.mapM_nil, if_pos habstract, hproperty]
  exact congrArg Except.ok (List.append_nil _)

end Registry

/-! ### Properties of a document -/

/-- the built-in schema marks a property of the name -/
def IsReserved (name : String) : Prop :=
  ∃ p ∈ Schema.builtin.properties, p.name.spelledBy name = true ∧ p.facts.reserved = true

instance (name : String) : Decidable (IsReserved name) :=
  inferInstanceAs (Decidable (∃ _ ∈ _, _))

theorem builtinProperties_apart : NamesApart (spellings builtinProperties) := by
  unfold NamesApart
  decide +kernel

theorem IsReserved.lookUp (h : IsReserved name) :
    ∃ p, ProjectSense.lookUp name builtinProperties = some p ∧ p.facts.reserved = true := by
  obtain ⟨p, hp, hname, hreserved⟩ := h
  exact ⟨p, lookUp_of_spelledBy builtinProperties_apart hp hname, hreserved⟩

namespace Document

variable {d : Document} {offset : Nat}

/-- the document declares the property, or the first of the user's schemas that does so does not
mark it -/
def Assigns (d : Document) (name : String) : Prop :=
  (∃ p ∈ (Harvest.ofTree d.tree).schema.properties, p.name.spelledBy name = true) ∨
    ∃ p, lookUp name (d.schemas.flatMap (·.properties)) = some p ∧ p.facts.reserved = false

/-- the offset is on the name of an element right in a group of properties -/
def NamesProperty (d : Document) (offset : Nat) : Prop :=
  ∃ found group, d.resolve? offset = some found ∧ found.place = .elementName ∧
    d.tree.parentElement? found.site.element = some group ∧
    d.tree.construct? group = some .propertyGroup

theorem exists_property_iff_assigns (path text : String) (schemas : List Schema)
    (h : IsReserved name) :
    let d := (build (parse path text)).withSchemas schemas
    (∃ p ∈ d.registry.properties false, p.name.spelledBy name = true) ↔ d.Assigns name := by
  intro d
  obtain ⟨builtin, hbuiltin, hreserved⟩ := h.lookUp
  have hsources : d.registry.live.flatMap (·.properties) =
      (Harvest.ofTree d.tree).schema.properties ++
        (d.schemas.flatMap (·.properties) ++ builtinProperties) := by
    change List.flatMap _ ((Harvest.ofTree d.tree).schema :: d.schemas ++ [Schema.builtin]) = _
    rw [List.flatMap_append, List.flatMap_cons, List.flatMap_singleton, List.append_assoc]
    rfl
  rw [Registry.exists_property_iff, hsources, lookUp_append, lookUp_append, hbuiltin, Assigns,
    exists_spelledBy_iff]
  -- the first declaration is the document's, else a schema's, else the marked built-in one
  cases hown : lookUp name (Harvest.ofTree d.tree).schema.properties with
  | some p =>
    have hfree := Harvest.unreserved_ofTree d.tree p (List.mem_of_find?_eq_some hown)
    simp [hfree]
  | none =>
    cases lookUp name (d.schemas.flatMap (·.properties)) with
    | some p => simp
    | none => simp [hreserved]

/-- right in a group of properties those that can be assigned are offered, and nothing else -/
theorem completions_namesProperty (h : d.NamesProperty offset) (config : CompletionConfig)
    (cancelled : Bool) : ∃ items, d.completions offset config cancelled = .ok items ∧
      ∀ name, (∃ i ∈ items, sameName i.label name = true) ↔
        ∃ p ∈ { d.registry with cancelled := cancelled }.properties false,
          p.name.spelledBy name = true := by
  obtain ⟨found, group, hfound, hplace, hgroup, hc⟩ := h
  obtain ⟨rule, hrule, hconstruct⟩ := Option.map_eq_some_iff.1 hc
  obtain ⟨-, helement⟩ := Option.filter_eq_some_iff.1 hgroup
  obtain ⟨e, he⟩ := Option.isSome_iff_exists.1 helement
  let r := { d.registry with cancelled := cancelled }
  have hsite : Site.ofElement? d.tree group =
      some ⟨group, e.name, d.tree.parentName? group, some rule, none⟩ := by
    simp only [Site.ofElement?, Tree.elementName?, he, Option.map_some, hrule]
  have hcandidates : d.candidates offset config cancelled =
      .ok ((r.properties false).map .property) := by
    simp only [candidates, hfound, hplace, hgroup, Option.bind_eq_bind, Option.bind_some, hsite]
    exact r.elementCandidates_propertyGroup rfl (Tree.rule?_mem hrule) hconstruct
  obtain ⟨items, hitems, hlabels⟩ := exists_completions hcandidates
  refine ⟨items, hitems, fun name => (hlabels name).trans ?_⟩
  simp only [List.mem_map, exists_exists_and_eq_and]
  rfl

/-- A property that the build sets can be assigned in a document just where its first declaration,
before the built-in one, is the document's own or one of a schema that does not mark it; and just
there it is offered in a group of properties.  So it is not where nothing but the built-in schema
declares it. -/
theorem property_assigned (path text : String) (schemas : List Schema) (h : IsReserved name) :
    let d := (build (parse path text)).withSchemas schemas
    ((∃ p ∈ d.registry.properties false, p.name.spelledBy name = true) ↔ d.Assigns name) ∧
      ∀ offset config, d.NamesProperty offset → ∃ items,
        d.completions offset config false = .ok items ∧
          ((∃ i ∈ items, sameName i.label name = true) ↔ d.Assigns name) := by
  intro d
  have hassigns := exists_property_iff_assigns path text schemas h
  refine ⟨hassigns, fun offset config hoffset => ?_⟩
  obtain ⟨items, hitems, hlabels⟩ := completions_namesProperty hoffset config false
  exact ⟨items, hitems, (hlabels name).trans hassigns⟩

/-- gives the number of nodes, which the build sets -/
def nodeCountText : String :=
  "<Project><PropertyGroup><MSBuildNodeCount/><A/></PropertyGroup></Project>"

theorem namesProperty_nodeCount :
    ((build (parse "/a.proj" nodeCountText)).withSchemas []).NamesProperty 45 := by
  obtain ⟨found, hfound, hplace, group, hgroup, hc⟩ :
      let d := (build (parse "/a.proj" nodeCountText)).withSchemas []
      ∃ found ∈ d.resolve? 45, found.place = .elementName ∧
        ∃ group ∈ d.tree.parentElement? found.site.element,
          d.tree.construct? group = some .propertyGroup := by decide +kernel
  exact ⟨found, group, hfound, hplace, hgroup, hc⟩

theorem isReserved_nodeCount : IsReserved "MSBuildNodeCount" := by decide +kernel

theorem assigns_nodeCount :
    ((build (parse "/a.proj" nodeCountText)).withSchemas []).Assigns "MSBuildNodeCount" :=
  .inl (by decide +kernel)

/-- the number of nodes is offered; the version, which the document does not give, is not -/
theorem property_assigned_nodeCount :
    let d := (build (parse "/a.proj" nodeCountText)).withSchemas []
    ∃ items, d.completions 45 {} false = .ok items ∧
      (∃ i ∈ items, sameName i.label "MSBuildNodeCount" = true) ∧
      ¬∃ i ∈ items, sameName i.label "MSBuildVersion" = true := by
  intro d
  have hversion : IsReserved "MSBuildVersion" := by decide +kernel
  have hplace := namesProperty_nodeCount
  obtain ⟨items, hitems, hcounted⟩ :=
    (property_assigned "/a.proj" nodeCountText [] isReserved_nodeCount).2 45 {} hplace
  obtain ⟨others, hothers, hversioned⟩ :=
    (property_assigned "/a.proj" nodeCountText [] hversion).2 45 {} hplace
  obtain rfl := Except.ok.inj (hitems.symm.trans hothers)
  refine ⟨items, hitems, hcounted.2 assigns_nodeCount, fun h => ?_⟩
  rcases hversioned.1 h with hown | ⟨p, hp, -⟩
  · revert hown
    decide +kernel
  · cases hp

/-- so a property that the build sets can be assigned, and is offered -/
theorem exists_reserved_property :
    let d := (build (parse "/a.proj" nodeCountText)).withSchemas []
    IsReserved "MSBuildNodeCount" ∧
      (∃ p ∈ d.registry.properties false, p.name.spelledBy "MSBuildNodeCount" = true) ∧
      ∃ items, d.completions 45 {} false = .ok items ∧
        ∃ i ∈ items, sameName i.label "MSBuildNodeCount" = true := by
  intro d
  have hproperty := (exists_property_iff_assigns "/a.proj" nodeCountText [] isReserved_nodeCount).2
    assigns_nodeCount
  obtain ⟨items, hitems, hlabels⟩ := completions_namesProperty namesProperty_nodeCount {} false
  exact ⟨isReserved_nodeCount, hproperty, items, hitems, (hlabels _).2 hproperty⟩

end Document
end ProjectSense
