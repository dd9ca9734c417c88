import ProjectSense.Proofs.Completion.Reserved
import ProjectSense.Proofs.Completion.Cancelled
import ProjectSense.Proofs.Document.Nameless

/-!
# Labels of completions

The words of the grammar, the fixed values, the frameworks and the well-known metadata all have
names.  What else is offered is declared by a source, or lies in a directory, so that an empty label
is shown only where one of these has an empty name.

* `Titled`: what is offered without a name comes from a source, or from a directory.
* `Document.titled_candidates`: this holds of all candidates.
* `Document.nameless_of_empty_label`: the labels that every document is shown.
-/

namespace ProjectSense

/-- what has no name is declared without one by a source, or is an entry of a directory -/
def Titled (sources : List Schema) (candidates : List Descriptor) : Prop :=
  ∀ c ∈ candidates, c.name = "" → CompletionKind.of c ∈ [CompletionKind.file, .folder] ∨
    ∃ s ∈ sources, "" ∈ s.names (.of c)

variable {sources : List Schema} {candidates : List Descriptor}

theorem titled_of_named (h : ∀ c ∈ candidates, c.name ≠ "") : Titled sources candidates :=
  fun c hc hempty => absurd hempty (h c hc)

theorem Titled.subset {others : List Descriptor} (h : Titled sources candidates)
    (hsub : others ⊆ candidates) : Titled sources others := fun c hc => h c (hsub hc)

theorem Titled.append {others : List Descriptor} (h : Titled sources candidates)
    (h' : Titled sources others) : Titled sources (candidates ++ others) :=
  List.forall_mem_append.2 ⟨h, h'⟩

theorem distinctCandidates_subset (candidates : List Descriptor) :
    distinctCandidates candidates ⊆ candidates := by
  induction candidates with
  | nil => exact List.Subset.refl _
  | cons c cs ih =>
    exact List.cons_subset_cons c (List.Subset.trans (List.filter_subset_self _) ih)

/-! ### What sources declare -/

namespace Registry

variable {Facts : Type} {r : Registry} {decls : Schema → List (Declared Facts)}

theorem live_subset (r : Registry) : r.live ⊆ r.sources := by
  rw [live]
  split
  · exact List.nil_subset _
  · exact List.Subset.refl _

/-- every name that is enumerated is declared by a source -/
theorem exists_source_of_mem {name : String}
    (h : name ∈ spellings (merge (r.live.flatMap decls))) :
    ∃ s ∈ r.sources, name ∈ spellings (decls s) := by
  rw [spellings_merge] at h
  obtain ⟨d, hd, rfl⟩ := List.mem_map.1 (mem_of_mem_distinctNames h)
  obtain ⟨s, hs, hd⟩ := List.mem_flatMap.1 hd
  exact ⟨s, r.live_subset hs, List.mem_map_of_mem hd⟩

/-- declarations that are enumerated, as candidates of a kind -/
theorem titled_enumerated {make : Declared Facts → Descriptor} {kind : CompletionKind}
    (hname : ∀ d, (make d).name = d.name.spelling) (hkind : ∀ d, CompletionKind.of (make d) = kind)
    (hnames : ∀ s name, name ∈ spellings (decls s) → name ∈ Schema.names s kind) :
    Titled r.sources ((merge (r.live.flatMap decls)).map make) := by
  refine List.forall_mem_map.2 fun d hd hempty => .inr ?_
  rw [hname] at hempty
  rw [hkind]
  have hmem : "" ∈ spellings (merge (r.live.flatMap decls)) := hempty ▸ List.mem_map_of_mem hd
  obtain ⟨s, hs, hmem⟩ := exists_source_of_mem hmem
  exact ⟨s, hs, hnames s "" hmem⟩

theorem titled_items : Titled r.sources (r.items.map .item) :=
  titled_enumerated (fun _ => rfl) (fun _ => rfl) fun _ _ h => h

theorem titled_tasks : Titled r.sources (r.tasks.map .task) :=
  titled_enumerated (fun _ => rfl) (fun _ => rfl) fun _ _ h => h

theorem titled_targets : Titled r.sources (r.targets.map .target) :=
  titled_enumerated (fun _ => rfl) (fun _ => rfl) fun _ _ h => h

theorem titled_properties (reserved : Bool) :
    Titled r.sources ((r.properties reserved).map .property) := by
  have hall : Titled r.sources ((merge (r.live.flatMap (·.properties))).map .property) :=
    titled_enumerated (fun _ => rfl) (fun _ => rfl) fun _ _ h => h
  exact hall.subset (List.map_subset _ (List.filter_subset_self _))

theorem titled_parameters (task : String) :
    Titled r.sources ((r.parameters task).map .parameter) :=
  titled_enumerated (fun _ => rfl) (fun _ => rfl) fun _ _ => NameMap.mem_names_of_find?

theorem titled_metadata (item : String) (wellKnown : Bool) :
    Titled r.sources ((r.metadata item wellKnown).map .metadata) := by
  have hown : Titled r.sources ((r.declaredMetadata item).map .metadata) :=
    titled_enumerated (fun _ => rfl) (fun _ => rfl) fun _ _ => NameMap.mem_names_of_find?
  have hknown : ∀ m ∈ wellKnownMetadata, m.name.spelling ≠ "" := by decide
  unfold metadata
  split
  · rw [List.map_append]
    refine hown.append (titled_of_named (List.forall_mem_map.2 fun m hm => ?_))
    exact hknown m (List.mem_of_mem_filter hm)
  · exact hown

theorem titled_category {construct : Construct} {element : String} {ds : List Descriptor}
    (h : r.category construct element = .ok ds) : Titled r.sources ds := by
  unfold category at h
  split at h <;> cases h
  · exact titled_items
  · exact titled_items
  · exact titled_tasks
  · exact titled_properties false
  · exact titled_metadata element false
  · exact titled_of_named fun c hc => by cases hc

end Registry

/-! ### Elements and attributes -/

/-- the elements and attributes that the grammar calls by name have one -/
theorem ElementRule.named {rule : ElementRule} (hr : rule ∈ Grammar.elements) :
    (rule.isAbstract = false → rule.name ≠ "") ∧
      ∀ a ∈ rule.attributes, a.isAbstract = false → a.name ≠ "" := by
  revert rule
  decide

theorem titled_elementCandidates {r : Registry} {s : Option Site} {ds : List Descriptor}
    (h : elementCandidates r s = .ok ds) : Titled r.sources ds := by
  unfold elementCandidates at h
  split at h
  · obtain rfl := Except.ok.inj h
    exact titled_of_named (List.forall_mem_singleton.2 (by decide))
  · next s rule _ =>
    obtain ⟨groups, hgroups, h⟩ := exists_of_bind_ok h
    obtain rfl : groups.flatten = ds := Except.ok.inj h
    have hgroup : ∀ group ∈ groups, Titled r.sources group := by
      refine forall_of_mapM_ok (fun child hmem group hchild => ?_) hgroups
      split at hchild
      · exact Registry.titled_category hchild
      · next hconcrete =>
        obtain rfl := Except.ok.inj hchild
        refine titled_of_named (List.forall_mem_singleton.2 ?_)
        exact (ElementRule.named (ElementRule.childRules_mem hmem)).1 (by simpa using hconcrete)
    intro c hc
    obtain ⟨group, hmem, hc⟩ := List.mem_flatten.1 hc
    exact hgroup group hmem c hc

theorem titled_attrCandidates {r : Registry} {t : Tree} {s : Site} {version : ToolsVersion}
    {config : CompletionConfig} (hs : ∀ rule, s.rule = some rule → rule ∈ Grammar.elements) :
    Titled r.sources (attrCandidates r t s version config) := by
  unfold attrCandidates
  split
  · exact titled_of_named fun c hc => by cases hc
  · next rule hrule =>
    have hconcrete := (ElementRule.named (hs rule hrule)).2
    refine Titled.append (Titled.append (titled_of_named ?_) ?_) ?_
    · refine List.forall_mem_map.2 fun a ha => ?_
      obtain ⟨hmem, hkept⟩ := List.mem_filter.1 ha
      exact hconcrete a hmem (by simpa using (Bool.and_eq_true_iff.1 hkept).1)
    · split
      · exact Registry.titled_metadata s.name false
      · exact titled_of_named fun c hc => by cases hc
    · split
      · exact Registry.titled_parameters s.name
      · exact titled_of_named fun c hc => by cases hc

/-! ### References and values -/

theorem titled_referenceCandidates {r : Registry} {s : Site} {e : Expr} {ds : List Descriptor}
    (h : referenceCandidates? r s e = some ds) : Titled r.sources ds := by
  unfold referenceCandidates? at h
  split at h <;> cases h
  · exact Registry.titled_properties true
  · exact Registry.titled_items
  · exact Registry.titled_metadata _ true

/-- fixed values have names -/
theorem simpleValues?_named {kind : ValueKind} {values : List Constant}
    (h : simpleValues? kind = some values) : ∀ v ∈ values, v.name ≠ "" := by
  unfold simpleValues? at h
  split at h
  · cases h
  · split at h
    · obtain rfl := Option.some.inj h
      decide
    · unfold Constant.ofBase? at h
      split at h <;> cases h <;> decide

theorem titled_constants {values : Schema → List String}
    (hnames : ∀ s name, name ∈ values s → name ∈ Schema.names s .value) (r : Registry) :
    Titled r.sources (constants (distinctNames (r.live.flatMap values))) := by
  refine List.forall_mem_map.2 fun v hv hempty => .inr ?_
  obtain rfl : v = "" := hempty
  obtain ⟨s, hs, hmem⟩ := List.mem_flatMap.1 (empty_mem_distinctNames.1 hv)
  exact ⟨s, r.live_subset hs, hnames s "" hmem⟩

namespace Document

variable {d : Document} {kind : ValueKind} {s : Option Site} {typed : Option Expr}
  {config : CompletionConfig} {cancelled : Bool} {ds : List Descriptor}

theorem titled_fileCandidates {length : Nat}
    (h : d.fileCandidates? kind typed length s config cancelled = some ds) :
    Titled d.registry.sources ds := by
  unfold fileCandidates? at h
  split at h
  · cases h
  · split at h <;> cases h
    refine List.forall_mem_map.2 fun entry _ _ => .inl ?_
    simp only [CompletionKind.of]
    split <;> decide

theorem titled_frameworks {frameworks : List NamedFramework} (h : ∀ f ∈ frameworks, f.name ≠ "") :
    Titled sources (frameworks.map .framework) := titled_of_named (List.forall_mem_map.2 h)

/-- each name of frameworks of many kinds, once -/
theorem titled_distinctFrameworks {frameworks : Framework → List NamedFramework}
    (h : ∀ f, ∀ named ∈ frameworks f, named.name ≠ "") (fs : List Framework) :
    Titled sources (distinctCandidates ((fs.flatMap frameworks).map .framework)) := by
  refine (titled_frameworks fun named hnamed => ?_).subset (distinctCandidates_subset _)
  obtain ⟨f, -, hnamed⟩ := List.mem_flatMap.1 hnamed
  exact h f named hnamed

theorem versionsOf_named (identifier : String) :
    ∀ f ∈ Framework.versionsOf identifier, f.name ≠ "" := by
  refine List.forall_mem_map.2 fun f _ hempty => ?_
  have hlist := congrArg String.toList hempty
  simp at hlist

theorem profilesOf_named (identifier : String) (version : FrameworkVersion) :
    ∀ f ∈ Framework.profilesOf identifier version, f.name ≠ "" := by
  refine List.forall_mem_map.2 fun f hf hempty => ?_
  simpa [show f.profile = "" from hempty] using (List.mem_filter.1 hf).2

theorem titled_valueCandidates
    (h : d.valueCandidates? kind s typed config cancelled = some ds) :
    Titled d.registry.sources ds := by
  unfold valueCandidates? at h
  split at h
  · next values hvalues =>
    obtain rfl := Option.some.inj h
    exact titled_of_named (List.forall_mem_map.2 (simpleValues?_named hvalues))
  · split at h
    · split at h <;> cases h
      · exact (Registry.titled_parameters _).subset (List.map_subset _ (List.filter_subset_self _))
      · exact titled_of_named fun c hc => by cases hc
    all_goals first
      | exact titled_fileCandidates h
      | obtain rfl := Option.some.inj h
    · exact Registry.titled_targets
    · exact Registry.titled_properties true
    · exact Registry.titled_items
    · exact titled_frameworks (by decide +kernel)
    · exact titled_frameworks (by decide +kernel)
    · exact titled_frameworks (by decide +kernel)
    · exact titled_distinctFrameworks (fun f => versionsOf_named f.identifier) d.frameworks
    · exact titled_distinctFrameworks (fun f => profilesOf_named f.identifier f.version)
        d.frameworks
    · exact titled_constants (fun s name => List.mem_append_left _) d.registry
    · exact titled_constants (fun s name => List.mem_append_right _) d.registry

/-! ### Every document -/

theorem titled_candidatesInValue {found : Resolution} {offset : Nat} (cancelled' : Bool)
    (h : d.candidatesInValue? (d.registry.cancel cancelled') found offset config cancelled =
      some ds) : Titled d.registry.sources ds := by
  obtain ⟨⟨raw, start⟩, -, h⟩ := Option.bind_eq_some_iff.1 h
  dsimp only at h
  split at h
  · next names hnames =>
    obtain rfl := Option.some.inj h
    obtain ⟨node, -, hnode⟩ := Option.bind_eq_some_iff.1 hnames
    exact titled_referenceCandidates (r := d.registry.cancel cancelled') hnode
  · obtain ⟨info, -, h⟩ := Option.bind_eq_some_iff.1 h
    exact titled_valueCandidates h

theorem rule_resolveIn (d : Document) (s : Site) (e : Element) (offset : Nat) :
    (d.resolveIn s e offset).site.rule = s.rule := by
  unfold resolveIn resolveInTag
  split
  · rfl
  split
  · split
    · rfl
    · split
      · rfl
      · dsimp only
        split <;> rfl
  · split <;> rfl

theorem rule_mem_of_resolve? {found : Resolution} {offset : Nat} {rule : ElementRule}
    (h : d.resolve? offset = some found) (hr : found.site.rule = some rule) :
    rule ∈ Grammar.elements := by
  obtain ⟨id, -, h⟩ := Option.bind_eq_some_iff.1 h
  obtain ⟨e, -, h⟩ := Option.bind_eq_some_iff.1 h
  obtain ⟨s, hs, h⟩ := Option.bind_eq_some_iff.1 h
  obtain rfl := Option.some.inj h
  obtain ⟨name, -, rfl⟩ := Option.map_eq_some_iff.1 hs
  rw [rule_resolveIn] at hr
  exact Tree.rule?_mem hr

/-- what is offered without a name comes from a source of the document, or from a directory -/
theorem titled_candidates {offset : Nat}
    (h : d.candidates offset config cancelled = .ok ds) : Titled d.registry.sources ds := by
  let r := d.registry.cancel cancelled
  have hvalue : ∀ found, Titled d.registry.sources
      ((d.candidatesInValue? r found offset config cancelled).getD []) := by
    intro found
    cases hnames : d.candidatesInValue? r found offset config cancelled with
    | none => exact fun c hc => by cases hc
    | some names => exact titled_candidatesInValue cancelled hnames
  unfold candidates at h
  split at h
  · exact titled_elementCandidates (r := r) h
  · next found hfound =>
    have hattrs : Titled r.sources (attrCandidates r d.tree found.site d.toolsVersion config) :=
      titled_attrCandidates fun rule hr => rule_mem_of_resolve? hfound hr
    split at h
    · exact titled_elementCandidates (r := r) h
    · obtain rfl := Except.ok.inj h
      exact hattrs
    · obtain rfl := Except.ok.inj h
      exact hattrs
    · obtain rfl := Except.ok.inj h
      exact hvalue found
    · obtain rfl := Except.ok.inj h
      exact hvalue found
    · obtain rfl := Except.ok.inj h
      exact fun c hc => by cases hc

theorem builtin_named (kind : CompletionKind) : "" ∉ Schema.builtin.names kind := by
  cases kind <;> decide +kernel

/-- A document declares the empty name of just those kinds of which an element has no name.  Only of
these kinds is it offered an empty label, or of those of which one of the given schemas declares the
empty name; unless the label is that of an entry of a directory. -/
theorem nameless_of_empty_label (path text : String) (schemas : List Schema) (given : Option Values)
    (sdks : SdkLocator) (listing : Listing) (offset : Nat) (config : CompletionConfig)
    (cancelled : Bool) :
    let t := Tree.parse text
    let d := build { parse path text with
      schemas := schemas, givenValues := given, sdks := sdks, listing := listing }
    (∀ kind, "" ∈ (Harvest.ofTree t).schema.names kind ↔ t.Nameless kind) ∧
      ∃ items, d.completions offset config cancelled = .ok items ∧ ∀ i ∈ items, i.label = "" →
        i.kind ∈ [CompletionKind.file, .folder] ∨ t.Nameless i.kind ∨
          ∃ s ∈ schemas, "" ∈ s.names i.kind := by
  intro t d
  refine ⟨Harvest.empty_mem_names text, ?_⟩
  obtain ⟨candidates, items, hcandidates, hitems, hpresents⟩ :=
    d.completions_presents offset config cancelled
  refine ⟨items, hitems, fun i hi hlabel => ?_⟩
  obtain ⟨c, hc, rfl⟩ := hpresents.exists_candidate hi
  refine (titled_candidates hcandidates c hc hlabel).imp_right ?_
  rintro ⟨s, hs, hname⟩
  -- the document's own schema, one that was given, or the built-in one
  rcases List.mem_append.1 (show s ∈ ((Harvest.ofTree t).schema :: schemas) ++ [Schema.builtin]
    from hs) with hs | hs
  · rcases List.mem_cons.1 hs with rfl | hs
    · exact .inl ((Harvest.empty_mem_names text _).1 hname)
    · exact .inr ⟨s, hs, hname⟩
  · obtain rfl := List.mem_singleton.1 hs
    exact absurd hname (builtin_named _)

/-- a group in which the name of a property is still to be typed -/
theorem exists_nameless_property :
    let d := (build (parse "/a.proj" "<Project><PropertyGroup><")).withSchemas []
    "" ∈ (Harvest.ofTree d.tree).schema.names .property ∧
      ∃ items, d.completions 25 {} false = .ok items ∧ ∃ i ∈ items, i.label = "" := by
  intro d
  have hplace : d.NamesProperty 25 := by
    obtain ⟨found, hfound, hplace, group, hgroup, hc⟩ :
        ∃ found ∈ d.resolve? 25, found.place = .elementName ∧
          ∃ group ∈ d.tree.parentElement? found.site.element,
            d.tree.construct? group = some .propertyGroup := by decide +kernel
    exact ⟨found, group, hfound, hplace, hgroup, hc⟩
  have hfirst : ∃ p ∈ lookUp "" (d.registry.live.flatMap (·.properties)),
      p.facts.reserved = false := by decide +kernel
  obtain ⟨p, hp, hfree⟩ := hfirst
  have hproperty := (d.registry.exists_property_iff "").2 ⟨p, hp, hfree⟩
  obtain ⟨items, hitems, hlabels⟩ := completions_namesProperty hplace {} false
  obtain ⟨i, hi, hlabel⟩ := (hlabels "").2 hproperty
  exact ⟨by decide +kernel, items, hitems, i, hi, sameName_empty.1 hlabel⟩

end Document
end ProjectSense
