import ProjectSense.Document.Lookup
import ProjectSense.Proofs.Document.Parameters
import ProjectSense.Proofs.Document.Resolve
import ProjectSense.Proofs.Markup.Named
import ProjectSense.Proofs.Schema.Lookup

/-!
# Declarations of what is named

Whatever the grammar knows in a project has a declaration: a word of the grammar is one itself, and
what else is named there the document declares, whether or not a schema does so too.

* `Registry.find?_of_mem`: what some source declares is found.
* `Tree.rule?_named`: the words of the grammar stand under their names.
* `Document.declared_touches`: what an offset touches of a named construct leads to a declaration
  of that name.
-/

namespace ProjectSense

/-! ### Declarations that are found -/

theorem firstFilled_spelled {Facts : Type} {name : String} {ds : List (Declared Facts)}
    (hne : ds ≠ []) (hs : ∀ d ∈ ds, d.name.spelledBy name = true) :
    ∃ found, firstFilled ds = some found ∧ found.name.spelledBy name = true := by
  obtain ⟨d, ds, rfl⟩ := List.exists_cons_of_ne_nil hne
  refine ⟨_, rfl, ?_⟩
  have hname : (ds.foldl .fill d).name = d.name := congrArg Prod.fst (origin_foldl_fill d ds)
  rw [hname]
  exact hs d List.mem_cons_self

namespace Registry

variable {Facts : Type} {r : Registry} {s : Schema} {name item : String}

theorem found_of_mem {decls : Schema → List (Declared Facts)} {d : Declared Facts}
    (hs : s ∈ r.sources) (hd : d ∈ decls s) (hn : d.name.spelledBy name = true) :
    (r.sources.filterMap fun s => lookUp name (decls s)) ≠ [] := by
  have hsome : (lookUp name (decls s)).isSome := List.find?_isSome.2 ⟨d, hd, hn⟩
  obtain ⟨found, hfound⟩ := Option.isSome_iff_exists.1 hsome
  exact List.ne_nil_of_mem (List.mem_filterMap.2 ⟨s, hs, hfound⟩)

theorem spelled_of_found {decls : Schema → List (Declared Facts)} :
    ∀ d ∈ r.sources.filterMap fun s => lookUp name (decls s), d.name.spelledBy name = true := by
  intro d hd
  obtain ⟨s, -, hfound⟩ := List.mem_filterMap.1 hd
  exact spelledBy_of_lookUp hfound

/-- what some source declares is found under its name -/
theorem find?_of_mem (decls : Schema → List (Declared Facts)) {d : Declared Facts}
    (hs : s ∈ r.sources) (hd : d ∈ decls s) (hn : d.name.spelledBy name = true) :
    ∃ found, r.find? decls name = some found ∧ found.name.spelledBy name = true :=
  firstFilled_spelled (found_of_mem hs hd hn) spelled_of_found

theorem metadata?_of_mem {d : MetadataDecl} (hs : s ∈ r.sources) (hd : d ∈ s.metadataOf item)
    (hn : d.name.spelledBy name = true) :
    ∃ found, r.metadata? item name = some found ∧ found.name.spelledBy name = true := by
  refine firstFilled_spelled ?_ fun d hd => ?_
  · exact List.append_ne_nil_of_left_ne_nil (found_of_mem hs hd hn) _
  · rcases List.mem_append.1 hd with hd | hd
    · exact spelled_of_found d hd
    · exact spelledBy_of_lookUp (Option.mem_toList.1 hd)

end Registry

/-- a look-up with another before it: whichever answers, answers under the name -/
theorem exists_or_spelled {Facts : Type} {name : String} {first second : Option (Declared Facts)}
    (hf : ∀ d, first = some d → d.name.spelledBy name = true)
    (hs : ∃ d, second = some d ∧ d.name.spelledBy name = true) :
    ∃ d, first.or second = some d ∧ d.name.spelledBy name = true := by
  cases h : first with
  | none => exact hs
  | some d => exact ⟨d, rfl, hf d h⟩

/-! ### What the document declares itself -/

theorem NameMap.Lists.exists_spelled {Facts : Type} {m : NameMap (Declared Facts)}
    {names : List String} {name : String} (h : m.Lists (distinctNames names))
    (hn : name ∈ names) : ∃ d ∈ m.values, d.name.spelledBy name = true := by
  obtain ⟨kept, hkept, hsame⟩ := exists_mem_distinctNames hn
  rw [← h.values] at hkept
  obtain ⟨d, hd, rfl⟩ := List.mem_map.1 hkept
  exact ⟨d, hd, hsame⟩

namespace Harvest

variable {t : Tree} {id : Nat} {item name : String}

theorem adds_ofTree (hl : t.Linked) : Adds empty (.ofElements t t.projectElements) (ofTree t) := by
  rw [ofTree_eq hl]
  exact adds_walk empty t.projectElements

theorem metadataOf_schema (h : Harvest) (item : String) :
    h.schema.metadataOf item = ((h.metadata.find? ⟨item⟩).getD .empty).values := by
  change ((h.metadata.map NameMap.values).find? ⟨item⟩).getD [] = _
  rw [NameMap.find?_map]
  cases h.metadata.find? ⟨item⟩ <;> rfl

theorem property_ofTree (hl : t.Linked) (hid : id ∈ t.projectElements)
    (hn : name ∈ t.propertyNames id) :
    ∃ d ∈ (ofTree t).schema.properties, d.name.spelledBy name = true :=
  ((adds_ofTree hl).properties [] NameMap.lists_empty).exists_spelled
    (List.mem_flatMap_of_mem hid hn)

theorem item_ofTree (hl : t.Linked) (hid : id ∈ t.projectElements) (hn : name ∈ t.itemNames id) :
    ∃ d ∈ (ofTree t).schema.items, d.name.spelledBy name = true :=
  ((adds_ofTree hl).items [] NameMap.lists_empty).exists_spelled (List.mem_flatMap_of_mem hid hn)

theorem task_ofTree (hl : t.Linked) (hid : id ∈ t.projectElements) (hn : name ∈ t.taskNames id) :
    ∃ d ∈ (ofTree t).schema.tasks, d.name.spelledBy name = true :=
  ((adds_ofTree hl).tasks [] NameMap.lists_empty).exists_spelled (List.mem_flatMap_of_mem hid hn)

theorem metadata_ofTree (hl : t.Linked) (hid : id ∈ t.projectElements)
    (hn : name ∈ t.metadataNames item id) :
    ∃ d ∈ (ofTree t).schema.metadataOf item, d.name.spelledBy name = true := by
  rw [metadataOf_schema]
  exact ((adds_ofTree hl).metadata (fun _ => []) (fun _ => NameMap.lists_empty) item).exists_spelled
    (List.mem_flatMap_of_mem hid hn)

end Harvest

/-! ### Words of the grammar -/

namespace ElementRule

variable {r c : ElementRule} {name : String}

/-- the categories that elements belong to -/
theorem construct_of_isAbstract (hr : r ∈ Grammar.elements) (ha : r.isAbstract = true) :
    r.construct ∈ [Construct.item, .itemDefinition, .property, .metadata, .task, .parameter] := by
  revert r
  decide

/-- only items and tasks take attributes of any name -/
theorem construct_of_abstract_attr (hr : r ∈ Grammar.elements) :
    ∀ a ∈ r.attributes, a.isAbstract = true → r.construct = .item ∨ r.construct = .task := by
  revert r
  decide

theorem attr?_named {a : AttributeRule} (h : r.attr? name = some a) (ha : a.isAbstract = false) :
    sameName a.name name = true := by
  rcases Option.or_eq_some_iff.1 h with h | ⟨-, h⟩
  · have hfound := List.find?_some h
    simp only [ha, Bool.not_false, Bool.true_and] at hfound
    exact hfound
  · rw [List.find?_some (p := fun a : AttributeRule => a.isAbstract) h] at ha
    cases ha

end ElementRule

namespace Tree

variable {t : Tree} {id q : Nat} {rule : ElementRule} {e : Element}

theorem element?_of_child (h : id ∈ t.children q) : ∃ e, t.element? q = some e := by
  rw [children] at h
  cases he : t.element? q with
  | none => simp [he] at h
  | some e => exact ⟨e, rfl⟩

/-- what has a rule is the root of a project, or stands in an element that has one -/
theorem rule?_cases (hl : t.Linked) (hr : t.rule? id = some rule) :
    (t.element? id).any (·.isNamed "Project") = true ∧ rule = Grammar.project ∨
      ∃ q outer, id ∈ t.children q ∧ t.rule? q = some outer ∧
        t.elementName? id >>= outer.child? = some rule := by
  cases hq : t.parent? id with
  | none =>
    refine .inl ?_
    rw [rule?, ancestors, hq] at hr
    simp only [List.reverse_nil, List.nil_append, List.foldlM_nil] at hr
    split at hr
    · next hproject => exact ⟨hproject, (Option.some.inj hr).symm⟩
    · cases hr
  | some q =>
    have hchild := hl.mem_children.2 hq
    rw [rule?_child hl hchild] at hr
    obtain ⟨outer, houter, hr⟩ := Option.bind_eq_some_iff.1 hr
    exact .inr ⟨q, outer, hchild, houter, hr⟩

/-- the words of the grammar stand under their names -/
theorem rule?_named (hl : t.Linked) (hr : t.rule? id = some rule) (he : t.element? id = some e)
    (ha : rule.isAbstract = false) : sameName rule.name e.name = true := by
  rcases rule?_cases hl hr with ⟨hproject, rfl⟩ | ⟨q, outer, -, -, hchild⟩
  · rw [he, Option.any_some, Element.isNamed] at hproject
    rw [sameName_comm]
    exact hproject
  · rw [elementName?, he] at hchild
    by_contra hn
    have habstract := ElementRule.child?_isAbstract hchild (Bool.eq_false_iff.2 hn)
    rw [ha] at habstract
    cases habstract

theorem parentName?_of_child (hl : t.Linked) (h : id ∈ t.children q) :
    ∃ name, t.parentName? id = some name := by
  obtain ⟨e, he⟩ := element?_of_child h
  have hq : t.parentElement? id = some q := by
    rw [parentElement?, hl.mem_children.1 h, Option.filter_some, isElement, he]
    rfl
  exact ⟨e.name, by simp [parentName?, hq, elementName?, he]⟩

/-- metadata stands in an element -/
theorem parentName?_of_metadata (hl : t.Linked) (hr : t.rule? id = some rule)
    (hc : rule.construct = .metadata) : ∃ name, t.parentName? id = some name := by
  rcases rule?_cases hl hr with ⟨-, rfl⟩ | ⟨q, outer, hchild, -⟩
  · cases hc
  · exact parentName?_of_child hl hchild

end Tree

/-! ### From a name to its declaration -/

namespace Document

variable {d : Document} {policy : GuessPolicy} {s : Site} {id offset k : Nat} {e : Element}
  {a : Attribute} {rule : ElementRule} {text name item : String}

/-- what is referred to has a declaration of that name -/
def Declares (d : Document) (policy : GuessPolicy) (s : Site) (reference : Option Reference)
    (name : String) : Prop :=
  ∃ info, reference >>= d.lookUp? policy s = some info ∧ sameName info.name name = true

/-- the document is read with what it declares itself among its sources -/
def ReadsItself (d : Document) : Prop := (Harvest.ofTree d.tree).schema ∈ d.registry.sources

section Kinds

variable (hl : d.tree.Linked) (hs : d.ReadsItself) (hid : id ∈ d.tree.projectElements)
include hl hs hid

theorem declares_property (hn : name ∈ d.tree.propertyNames id) :
    d.Declares policy s (some (.property name)) name := by
  obtain ⟨decl, hdecl, hname⟩ := Harvest.property_ofTree hl hid hn
  have hbuiltin : ∀ d, builtinProperty? name = some d → d.name.spelledBy name = true :=
    fun _ => spelledBy_of_lookUp
  obtain ⟨found, hfound, hsame⟩ :=
    exists_or_spelled hbuiltin (Registry.find?_of_mem _ hs hdecl hname)
  exact ⟨.property found, congrArg (Option.map Descriptor.property) hfound, hsame⟩

theorem declares_item (hn : name ∈ d.tree.itemNames id) :
    d.Declares policy s (some (.item name)) name := by
  obtain ⟨decl, hdecl, hname⟩ := Harvest.item_ofTree hl hid hn
  obtain ⟨found, hfound, hsame⟩ := Registry.find?_of_mem _ hs hdecl hname
  exact ⟨.item found, congrArg (Option.map Descriptor.item) hfound, hsame⟩

theorem declares_task (hn : name ∈ d.tree.taskNames id) :
    d.Declares policy s (some (.task name)) name := by
  obtain ⟨decl, hdecl, hname⟩ := Harvest.task_ofTree hl hid hn
  obtain ⟨found, hfound, hsame⟩ := Registry.find?_of_mem _ hs hdecl hname
  exact ⟨.task found, congrArg (Option.map Descriptor.task) hfound, hsame⟩

theorem declares_metadata (hn : name ∈ d.tree.metadataNames item id) :
    d.Declares policy s (some (.metadata item name)) name := by
  obtain ⟨decl, hdecl, hname⟩ := Harvest.metadata_ofTree hl hid hn
  have hknown : ∀ d, wellKnownMetadata? name = some d → d.name.spelledBy name = true :=
    fun _ => spelledBy_of_lookUp
  obtain ⟨found, hfound, hsame⟩ :=
    exists_or_spelled hknown (Registry.metadata?_of_mem hs hdecl hname)
  exact ⟨.metadata found, congrArg (Option.map Descriptor.metadata) hfound, hsame⟩

theorem declares_parameter (hr : d.tree.rule? id = some rule) (he : d.tree.element? id = some e)
    (hc : rule.construct = .task) (hmem : name ∈ Harvest.openAttributes rule e)
    (hn : name ≠ "") : d.Declares policy s (some (.parameter e.name name)) name := by
  obtain ⟨decl, hdecl, hname⟩ := Harvest.parameter_ofTree hl hid hr he hc hmem hn
  obtain ⟨found, hfound, hsame⟩ :=
    Registry.find?_of_mem (·.parametersOf e.name) hs hdecl hname
  exact ⟨.parameter found, congrArg (Option.map Descriptor.parameter) hfound, hsame⟩

/-- the site of an element as a whole -/
theorem declares_element (hr : d.tree.rule? id = some rule) (he : d.tree.element? id = some e)
    (hc : rule.construct ≠ .parameter) :
    let s : Site := ⟨id, e.name, d.tree.parentName? id, d.tree.rule? id, none⟩
    d.Declares policy s s.elementReference? e.name := by
  intro s
  have hname : d.tree.elementName? id = some e.name := by
    rw [Tree.elementName?, he]
    rfl
  have hconstruct : d.tree.construct? id = some rule.construct := by
    rw [Tree.construct?, hr]
    rfl
  have hrule : s.rule = some rule := hr
  rw [Site.elementReference?, hrule]
  dsimp only
  split
  · next hitem =>
    have hmem : e.name ∈ d.tree.itemNames id := by
      simp [Tree.itemNames, hconstruct, hitem, hname]
    exact declares_item hl hs hid hmem
  · next hdefinition =>
    have hmem : e.name ∈ d.tree.itemNames id := by
      simp [Tree.itemNames, hconstruct, hdefinition, hname]
    exact declares_item hl hs hid hmem
  · next hproperty =>
    have hmem : e.name ∈ d.tree.propertyNames id := by
      simp [Tree.propertyNames, hconstruct, hproperty, hname]
    exact declares_property hl hs hid hmem
  · next hmetadata =>
    obtain ⟨item, hitem⟩ := Tree.parentName?_of_metadata hl hr hmetadata
    have hparent : s.parent.getD "" = item := by rw [show s.parent = some item from hitem]; rfl
    have hmem : e.name ∈ d.tree.metadataNames item id := by
      simp [Tree.metadataNames, hr, he, hmetadata, hitem]
    rw [hparent]
    exact declares_metadata hl hs hid hmem
  · next htask =>
    have hmem : e.name ∈ d.tree.taskNames id := by
      simp [Tree.taskNames, hconstruct, htask, hname]
    exact declares_task hl hs hid hmem
  · next hparameter => exact absurd hparameter hc
  · next h1 h2 h3 h4 h5 h6 =>
    have hword : rule.isAbstract = false := by
      refine Bool.eq_false_iff.2 fun ha => ?_
      have := ElementRule.construct_of_isAbstract (Tree.rule?_mem hr) ha
      simp_all
    exact ⟨.element rule, rfl, Tree.rule?_named hl hr he hword⟩

/-- the site of an attribute -/
theorem declares_attribute (hr : d.tree.rule? id = some rule) (he : d.tree.element? id = some e)
    (ha : a ∈ e.attributes.toList) (hne : a.name ≠ "") (hattr : (rule.attr? a.name).isSome)
    (index : Nat) :
    let s : Site := ⟨id, e.name, d.tree.parentName? id, d.tree.rule? id,
      some ⟨index, a.name, d.tree.rule? id >>= (·.attr? a.name)⟩⟩
    d.Declares policy s s.attrReference? a.name := by
  intro s
  obtain ⟨attr, hattr⟩ := Option.isSome_iff_exists.1 hattr
  have hsite : s = ⟨id, e.name, d.tree.parentName? id, some rule,
      some ⟨index, a.name, some attr⟩⟩ := by
    simp only [s, hr, Option.bind_eq_bind, Option.bind_some, hattr]
  have hnames : a.name ∈ e.attributes.toList.map (·.name) := List.mem_map_of_mem ha
  rw [hsite, Site.attrReference?]
  dsimp only
  cases hopen : attr.isAbstract with
  | false => exact ⟨_, rfl, ElementRule.attr?_named hattr hopen⟩
  | true =>
    have hrule := Tree.rule?_mem hr
    have hmem := ElementRule.attr?_mem hattr
    have hmemOpen : a.name ∈ Harvest.openAttributes rule e :=
      List.mem_filter.2 ⟨hnames, by simp [hattr, hopen]⟩
    rcases ElementRule.construct_of_abstract_attr hrule attr hmem hopen with hitem | htask
    · simp only [Bool.not_true, Bool.false_eq_true, if_false, Site.construct?, Option.map_some,
        hitem]
      refine declares_metadata hl hs hid ?_
      rw [Harvest.openAttributes_item hrule hitem] at hmemOpen
      simpa [Tree.metadataNames, hr, he, hitem, Element.isNamed, sameName_refl] using hmemOpen
    · simp only [Bool.not_true, Bool.false_eq_true, if_false, Site.construct?, Option.map_some,
        htask]
      exact declares_parameter hl hs hid hr he htask hmemOpen hne

end Kinds

/-! ### From an offset to the declaration -/

/-- what the site of an element says before an attribute comes in -/
theorem resolve?_startTag (ht : d.tree = Tree.parse text) (he : d.tree.element? id = some e)
    (hlt : e.startTag.start < offset) (hin : e.inStartTag offset = true) :
    d.resolve? offset =
      some (d.resolveIn ⟨id, e.name, d.tree.parentName? id, d.tree.rule? id, none⟩ e offset) := by
  have hinner : d.tree.innermostAt offset = some id := by
    rw [ht] at he ⊢
    exact Tree.innermostAt_startTag he hlt (Element.inStartTag_iff.1 hin)
  simp [resolve?, hinner, he, Site.ofElement?, Tree.elementName?]

theorem resolve?_elementName (ht : d.tree = Tree.parse text) (he : d.tree.element? id = some e)
    (ho : e.nameSpan.touches offset = true) :
    let s : Site := ⟨id, e.name, d.tree.parentName? id, d.tree.rule? id, none⟩
    d.resolve? offset = some ⟨s, .elementName, s.elementReference?, some e.nameSpan⟩ := by
  obtain ⟨hparted, span, hsound⟩ := parted_of_parse ht he
  obtain ⟨hlt, hin⟩ := hparted.inStartTag_of_name hsound ho
  rw [resolve?_startTag ht he hlt hin, resolveIn, if_pos ho]

theorem resolve?_attributeName (ht : d.tree = Tree.parse text)
    (he : d.tree.element? id = some e) (ha : e.attributes[k]? = some a)
    (ho : a.nameSpan.touches offset = true) :
    let s : Site := ⟨id, e.name, d.tree.parentName? id, d.tree.rule? id,
      some ⟨k, a.name, d.tree.rule? id >>= (·.attr? a.name)⟩⟩
    d.resolve? offset = some ⟨s, .attributeName, s.attrReference?, some a.nameSpan⟩ := by
  obtain ⟨hparted, span, hsound⟩ := parted_of_parse ht he
  have hmem : a ∈ e.attributes.toList := List.mem_of_getElem? (Array.getElem?_toList.trans ha)
  have hon : Tree.onAttribute offset a = true := by simp [Tree.onAttribute, ho]
  obtain ⟨hname, hlt, hin⟩ := hparted.inStartTag_of_attribute hsound hmem hon
  have hoff : ¬e.nameSpan.touches offset = true := by
    rw [Span.touches_iff]
    omega
  have hindex := hsound.findIdx?_onAttribute ha hon
  rw [resolve?_startTag ht he hlt hin, resolveIn, if_neg hoff, if_pos hin]
  simp only [resolveInTag, hindex, ha, if_pos ho]

/-- what stands at the offset has a declaration of that name -/
def DeclaredAt (d : Document) (policy : GuessPolicy) (offset : Nat) (name : String) : Prop :=
  ∃ r info, d.resolve? offset = some r ∧ d.declaration? policy r = some info ∧
    sameName info.name name = true

theorem readsItself_withSchemas (path text : String) (schemas : List Schema) :
    ((build (parse path text)).withSchemas schemas).ReadsItself := List.mem_cons_self

/-- What the grammar knows in a project is declared: whatever schemas a text is read with, an offset
on the name of an element leads to a declaration of that name, unless the element is the parameter
of an inline task, and an offset on the name of an attribute that the element may have leads to one
of that name too. -/
theorem declared_touches (path text : String) (schemas : List Schema) (policy : GuessPolicy)
    (hid : id ∈ (Tree.parse text).projectElements) (he : (Tree.parse text).element? id = some e)
    (hr : (Tree.parse text).rule? id = some rule) (offset : Nat) :
    let d := (build (parse path text)).withSchemas schemas
    (rule.construct ≠ .parameter → e.nameSpan.touches offset = true →
      d.DeclaredAt policy offset e.name) ∧
    ∀ a ∈ e.attributes.toList, (rule.attr? a.name).isSome → a.nameSpan.touches offset = true →
      d.DeclaredAt policy offset a.name := by
  intro d
  have ht : d.tree = Tree.parse text := rfl
  have hl : d.tree.Linked := Tree.linked_parse text
  have hitself := readsItself_withSchemas path text schemas
  refine ⟨fun hc ho => ?_, fun a ha hattr ho => ?_⟩
  · obtain ⟨info, hinfo, hname⟩ := declares_element hl hitself hid hr he hc
    exact ⟨_, info, resolve?_elementName ht he ho, hinfo, hname⟩
  · obtain ⟨k, hk⟩ := List.mem_iff_getElem?.1 ha
    have hne := Tree.attribute_name_ne he ha
    obtain ⟨info, hinfo, hname⟩ := declares_attribute hl hitself hid hr he ha hne hattr k
    exact ⟨_, info, resolve?_attributeName ht he (Array.getElem?_toList.symm.trans hk) ho, hinfo,
      hname⟩

/-- an item that no schema declares, with metadata of its own -/
theorem declared_touches_item :
    let text := "<Project><ItemGroup><Foo Bar=\"x\"/></ItemGroup></Project>"
    let d := (build (parse "/a.proj" text)).withSchemas []
    d.DeclaredAt ⟨true, true⟩ 22 "Foo" ∧ d.DeclaredAt ⟨true, true⟩ 26 "Bar" := by
  intro text d
  have hid : 2 ∈ (Tree.parse text).projectElements := by decide +kernel
  have he : (Tree.parse text).element? 2 = some ⟨"Foo", ⟨21, 24⟩,
      #[⟨"Bar", ⟨25, 28⟩, some "x", some ⟨30, 31⟩, ⟨25, 32⟩, true⟩], #[], ⟨20, 34⟩, true, true,
      none⟩ := by
    decide +kernel
  have hr : (Tree.parse text).rule? 2 =
      some ((ElementRule.of? .item).getD Grammar.project) := by
    decide +kernel
  constructor
  · exact (declared_touches "/a.proj" text [] ⟨true, true⟩ hid he hr 22).1 (by decide) rfl
  · exact (declared_touches "/a.proj" text [] ⟨true, true⟩ hid he hr 26).2 _
      List.mem_cons_self (by decide) rfl

end Document
end ProjectSense
