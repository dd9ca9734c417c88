import Mathlib.Data.List.Basic
import ProjectSense.Schema.Builtin
import ProjectSense.Schema.File
import ProjectSense.Proofs.Text.Name

/-!
# Looking up and enumerating

A registry merges the declarations of its sources when it enumerates them, and completes the first
declaration of each source when it looks up a name.  Both begin with the same declaration, and they
agree on all of it where no source declares the name twice.

* `lookUp_merge`: what merging makes of the declarations of one name.
* `Registry.agree_declared`: enumerations and look-ups of all that schemas declare.
* `Registry.agree_metadata`: the same with well-known metadata.
-/

namespace ProjectSense

variable {Facts : Type} {name : String} {d : Declared Facts} {ds ms : List (Declared Facts)}

/-! ### Merging -/

/-- the declarations of the name -/
def named (name : String) (ds : List (Declared Facts)) : List (Declared Facts) :=
  ds.filter (·.name.spelledBy name)

/-- what completing a declaration does not change -/
def Declared.origin (d : Declared Facts) : Name × Provenance × Facts :=
  (d.name, d.provenance, d.facts)

theorem lookUp_eq_head? (name : String) (ds : List (Declared Facts)) :
    lookUp name ds = (named name ds).head? := List.head?_filter.symm

theorem named_cons (name : String) (d : Declared Facts) (ds : List (Declared Facts)) :
    named name (d :: ds) =
      if d.name.spelledBy name then d :: named name ds else named name ds := List.filter_cons

theorem spelledBy_of_lookUp (h : lookUp name ds = some d) : d.name.spelledBy name = true := by
  rw [lookUp] at h
  exact List.find?_some (p := fun d : Declared Facts => d.name.spelledBy name) h

theorem spelledBy_congr {a b : Name} (h : a.same b = true) (s : String) :
    a.spelledBy s = b.spelledBy s := by
  rw [Name.spelledBy, Name.spelledBy, Bool.eq_iff_iff, sameName_iff, sameName_iff,
    Name.same_iff.1 h]

theorem same_of_spelledBy {a b : Name} (ha : a.spelledBy name = true)
    (hb : b.spelledBy name = true) : a.same b = true :=
  Name.same_iff.2 ((sameName_iff.1 ha).trans (sameName_iff.1 hb).symm)

/-- a further declaration completes the one of its name, or comes in if there is none -/
theorem lookUp_mergeInto (name : String) (ms : List (Declared Facts)) (d : Declared Facts) :
    lookUp name (mergeInto ms d) =
      if d.name.spelledBy name then some (((lookUp name ms).map (·.fill d)).getD d)
      else lookUp name ms := by
  -- the cases of merging, and in each whether `d` is what is looked up
  cases hany : ms.any (·.name.same d.name) with
  | true =>
    let complete (m : Declared Facts) := if m.name.same d.name then m.fill d else m
    have hname : (fun m : Declared Facts => m.name.spelledBy name) ∘ complete =
        fun m => m.name.spelledBy name := by
      funext m
      simp only [Function.comp, complete]
      split <;> rfl
    have hmerged : lookUp name (mergeInto ms d) = (lookUp name ms).map complete := by
      rw [mergeInto, if_pos hany, lookUp, List.find?_map, hname]
      rfl
    rw [hmerged]
    cases hd : d.name.spelledBy name with
    | true =>
      obtain ⟨m, hmem, hsame⟩ := List.any_eq_true.1 hany
      cases hm : lookUp name ms with
      | none =>
        have hnot := List.find?_eq_none.1 hm m hmem
        exact absurd ((spelledBy_congr hsame name).trans hd) hnot
      | some m =>
        have hcomplete : complete m = m.fill d :=
          if_pos (same_of_spelledBy (spelledBy_of_lookUp hm) hd)
        simp [hcomplete]
    | false =>
      cases hm : lookUp name ms with
      | none => simp
      | some m =>
        have hcomplete : complete m = m := by
          refine if_neg fun hsame => ?_
          rw [← spelledBy_congr hsame, spelledBy_of_lookUp hm] at hd
          cases hd
        simp [hcomplete]
  | false =>
    have hmerged : lookUp name (mergeInto ms d) = (lookUp name ms).or (lookUp name [d]) := by
      rw [mergeInto, if_neg (Bool.eq_false_iff.1 hany), lookUp, List.find?_append]
      rfl
    rw [hmerged]
    cases hd : d.name.spelledBy name with
    | true =>
      cases hm : lookUp name ms with
      | none => simp [lookUp, hd]
      | some m =>
        have hnot := List.any_eq_false.1 hany m (List.mem_of_find?_eq_some hm)
        exact absurd (same_of_spelledBy (spelledBy_of_lookUp hm) hd) hnot
    | false => simp [lookUp, hd]

theorem lookUp_foldl_mergeInto (name : String) (ms ds : List (Declared Facts)) :
    lookUp name (ds.foldl mergeInto ms) =
      ((lookUp name ms).map ((named name ds).foldl .fill)).or (firstFilled (named name ds)) := by
  induction ds generalizing ms with
  | nil => cases h : lookUp name ms <;> simp [named, firstFilled, h]
  | cons d ds ih =>
    rw [List.foldl_cons, ih, lookUp_mergeInto, named_cons]
    cases hd : d.name.spelledBy name with
    | true => cases hm : lookUp name ms <;> simp [firstFilled]
    | false => simp

/-- what is enumerated under a name is the first declaration of it, completed from all others -/
theorem lookUp_merge (name : String) (ds : List (Declared Facts)) :
    lookUp name (merge ds) = firstFilled (named name ds) := by
  rw [merge, lookUp_foldl_mergeInto]
  rfl

/-- the names as they are first spelled -/
def spellings (ds : List (Declared Facts)) : List String := ds.map (·.name.spelling)

theorem spellings_mergeInto (ms : List (Declared Facts)) (d : Declared Facts) :
    spellings (mergeInto ms d) = addName (spellings ms) d.name.spelling := by
  have hany : (spellings ms).any (sameName d.name.spelling) = ms.any (·.name.same d.name) := by
    rw [spellings, List.any_map]
    congr 1
    funext m
    exact sameName_comm _ _
  rw [addName, hany, mergeInto]
  split
  · rw [spellings, spellings, List.map_map]
    refine List.map_congr_left fun m _ => ?_
    simp only [Function.comp]
    split <;> rfl
  · rw [spellings, List.map_append]
    rfl

/-- merging lists every name once, in order of first occurrence -/
theorem spellings_merge (ds : List (Declared Facts)) :
    spellings (merge ds) = distinctNames (spellings ds) := by
  have hfold : ∀ ms : List (Declared Facts),
      spellings (ds.foldl mergeInto ms) = (spellings ds).foldl addName (spellings ms) := by
    induction ds with
    | nil => exact fun ms => rfl
    | cons d ds ih =>
      intro ms
      rw [List.foldl_cons, ih, spellings_mergeInto]
      rfl
  exact hfold []

theorem spellings_merge_apart (ds : List (Declared Facts)) : NamesApart (spellings (merge ds)) :=
  spellings_merge ds ▸ distinctNames_apart _

/-! ### One name in many sources -/

theorem origin_foldl_fill (d : Declared Facts) (ds : List (Declared Facts)) :
    (ds.foldl .fill d).origin = d.origin := by
  induction ds generalizing d with
  | nil => rfl
  | cons e ds ih => exact (ih (d.fill e)).trans rfl

/-- completing from one declaration or another leaves name, provenance and facts of the first -/
theorem origin_firstFilled (ds : List (Declared Facts)) :
    (firstFilled ds).map Declared.origin = ds.head?.map Declared.origin := by
  cases ds with
  | nil => rfl
  | cons d ds => exact congrArg some (origin_foldl_fill d ds)

variable {sources : List Schema} {decls : Schema → List (Declared Facts)}

theorem named_append (name : String) (ds es : List (Declared Facts)) :
    named name (ds ++ es) = named name ds ++ named name es := List.filter_append ..

/-- looking up and enumerating begin with the same declaration -/
theorem head?_filterMap_lookUp (name : String) (sources : List Schema)
    (decls : Schema → List (Declared Facts)) :
    (sources.filterMap fun s => lookUp name (decls s)).head? =
      (named name (sources.flatMap decls)).head? := by
  induction sources with
  | nil => rfl
  | cons s sources ih =>
    rw [List.flatMap_cons, named_append, List.head?_append, ← lookUp_eq_head?, List.filterMap_cons]
    cases lookUp name (decls s) with
    | none => exact ih
    | some d => rfl

/-- no source declares the name twice -/
def DeclaredOnce (name : String) (sources : List Schema)
    (decls : Schema → List (Declared Facts)) : Prop :=
  ∀ s ∈ sources, (named name (decls s)).length ≤ 1

/-- where no source declares the name twice, looking up leaves no declaration out -/
theorem filterMap_lookUp (h : DeclaredOnce name sources decls) :
    (sources.filterMap fun s => lookUp name (decls s)) = named name (sources.flatMap decls) := by
  induction sources with
  | nil => rfl
  | cons s sources ih =>
    obtain ⟨hs, hsources⟩ := List.forall_mem_cons.1 h
    rw [List.flatMap_cons, named_append, ← ih hsources, List.filterMap_cons, lookUp_eq_head?]
    cases hnamed : named name (decls s) with
    | nil => rfl
    | cons d ds =>
      rw [hnamed, List.length_cons] at hs
      obtain rfl : ds = [] := List.length_eq_zero_iff.1 (by omega)
      rfl

/-- What is enumerated has one entry at most under the name, and what is looked up comes from the
same declaration; where no source declares the name twice, it is the same altogether. -/
structure Agree (name : String) (sources : List Schema) (decls : Schema → List (Declared Facts))
    (entries : List (Declared Facts)) (found : Option (Declared Facts)) : Prop where
  apart : NamesApart (spellings entries)
  origin : found.map Declared.origin = (lookUp name entries).map Declared.origin
  eq : DeclaredOnce name sources decls → found = lookUp name entries

theorem agree_merge (name : String) (sources : List Schema)
    (decls : Schema → List (Declared Facts)) :
    Agree name sources decls (merge (sources.flatMap decls))
      ((Registry.ofSources sources).find? decls name) := by
  refine ⟨spellings_merge_apart _, ?_, fun h => ?_⟩
  · rw [Registry.find?, lookUp_merge, origin_firstFilled, origin_firstFilled, Registry.ofSources,
      head?_filterMap_lookUp]
  · rw [Registry.find?, lookUp_merge, Registry.ofSources, filterMap_lookUp h]

namespace Registry

/-- Under every name a registry enumerates one entry just when it finds one, with the spelling,
the provenance and the facts of the same declaration.  Where no source declares the name twice the
two are equal. -/
theorem agree_declared (sources : List Schema) (name task : String) :
    let r := ofSources sources
    Agree name sources (·.items) r.items (r.item? name) ∧
      Agree name sources (·.properties) (r.properties true) (r.property? name) ∧
      Agree name sources (·.tasks) r.tasks (r.task? name) ∧
      Agree name sources (·.targets) r.targets (r.target? name) ∧
      Agree name sources (·.parametersOf task) (r.parameters task) (r.parameter? task name) := by
  intro r
  have hproperties : r.properties true = merge (sources.flatMap (·.properties)) :=
    List.filter_eq_self.2 fun p _ => rfl
  refine ⟨agree_merge name sources _, ?_, agree_merge name sources _, agree_merge name sources _,
    agree_merge name sources _⟩
  rw [hproperties]
  exact agree_merge name sources _

/-- a file that spells a property in two ways: its description is enumerated but not found -/
theorem property_respelled :
    let text := "\x7b\"properties\": \x7b\"Foo\": \"\", \"foo\": \"later\"\x7d\x7d"
    ∃ s, Schema.parse "s" text = .ok s ∧
      (lookUp "foo" ((ofSources [s]).properties true)).map (·.description) = some "later" ∧
      ((ofSources [s]).property? "foo").map (·.description) = some "" :=
  ⟨{ Schema.empty "s" with
      properties := [.property "Foo" "" (.schema "s"), .property "foo" "later" (.schema "s")] },
    by decide +kernel, by decide +kernel, by decide +kernel⟩

/-! ### Well-known metadata -/

/-- the declaration completed from the well-known metadata of the name, if there is any -/
def fillKnown (name : String) (d : MetadataDecl) : MetadataDecl :=
  (wellKnownMetadata? name).elim d d.fill

theorem origin_fillKnown (name : String) (d : MetadataDecl) :
    (fillKnown name d).origin = d.origin := by
  unfold fillKnown
  cases wellKnownMetadata? name <;> rfl

/-- well-known metadata is complete -/
theorem fillKnown_wellKnown {name : String} {m : MetadataDecl}
    (h : wellKnownMetadata? name = some m) : fillKnown name m = m := by
  simp [fillKnown, h, Declared.fill]

/-- there is nothing to complete in a declaration without gaps -/
theorem fillKnown_of_full {name : String} {d : MetadataDecl}
    (h : wellKnownMetadata? name ≠ none → d.description ≠ "" ∧ d.kind.isOpen = false) :
    fillKnown name d = d := by
  unfold fillKnown
  cases hknown : wellKnownMetadata? name with
  | none => rfl
  | some m =>
    obtain ⟨hdescription, hkind⟩ := h (by simp [hknown])
    simp [Declared.fill, hdescription, hkind]

theorem wellKnown_apart : NamesApart (spellings wellKnownMetadata) := by
  unfold NamesApart
  decide

theorem metadata_apart (r : Registry) (item : String) :
    NamesApart (spellings (r.metadata item true)) := by
  have hown : NamesApart (spellings (r.declaredMetadata item)) := spellings_merge_apart _
  rw [metadata, if_pos rfl, spellings, List.map_append]
  refine List.pairwise_append.2 ⟨hown, wellKnown_apart.sublist (List.filter_sublist.map _), ?_⟩
  intro a ha b hb
  obtain ⟨d, hd, rfl⟩ := List.mem_map.1 ha
  obtain ⟨m, hm, rfl⟩ := List.mem_map.1 hb
  have hnone := (List.mem_filter.1 hm).2
  rw [Bool.not_eq_true', List.any_eq_false] at hnone
  exact Bool.eq_false_iff.2 (hnone d hd)

/-- under a name the metadata of the item is enumerated, else the well-known -/
theorem lookUp_metadata (r : Registry) (item name : String) :
    lookUp name (r.metadata item true) =
      (lookUp name (r.declaredMetadata item)).or (wellKnownMetadata? name) := by
  rw [metadata, if_pos rfl, lookUp, List.find?_append]
  cases hown : lookUp name (r.declaredMetadata item) with
  | some d =>
    rw [lookUp] at hown
    rw [hown]
    rfl
  | none =>
    rw [lookUp] at hown
    rw [hown, Option.none_or, Option.none_or, wellKnownMetadata?, lookUp, List.find?_filter]
    congr 1
    funext m
    cases hm : m.name.spelledBy name with
    | false => simp
    | true =>
      have hfree : (r.declaredMetadata item).any (·.name.same m.name) = false := by
        rw [List.any_eq_false]
        intro d hd hsame
        exact List.find?_eq_none.1 hown d hd ((spelledBy_congr hsame name).trans hm)
      simp [hfree]

theorem firstFilled_concat (ds : List (Declared Facts)) (last : Option (Declared Facts)) :
    firstFilled (ds ++ last.toList) =
      ((firstFilled ds).map fun d => last.elim d d.fill).or last := by
  cases ds with
  | nil => cases last <;> rfl
  | cons d ds =>
    cases last with
    | none => simp [firstFilled]
    | some e => simp [firstFilled]

/-- Under every name there is one entry of metadata at most, and one just when metadata is found,
with the spelling, the provenance and the facts of the same declaration.  Where no source declares
the name twice for the item, what is found is the entry completed from the well-known metadata of
the name; so the two are equal if a declaration that hides well-known metadata leaves no gap. -/
theorem agree_metadata (sources : List Schema) (item name : String) :
    let r := ofSources sources
    let entries := r.metadata item true
    let found := r.metadata? item name
    NamesApart (spellings entries) ∧
      found.map Declared.origin = (lookUp name entries).map Declared.origin ∧
      (DeclaredOnce name sources (·.metadataOf item) →
        found = (lookUp name entries).map (fillKnown name) ∧
        ((∀ e ∈ lookUp name (r.declaredMetadata item), wellKnownMetadata? name ≠ none →
            e.description ≠ "" ∧ e.kind.isOpen = false) →
          found = lookUp name entries)) := by
  intro r entries found
  have hagree := agree_merge name sources (·.metadataOf item)
  have hentry : lookUp name entries =
      (lookUp name (r.declaredMetadata item)).or (wellKnownMetadata? name) :=
    lookUp_metadata r item name
  have hfound : found = ((r.find? (·.metadataOf item) name).map (fillKnown name)).or
      (wellKnownMetadata? name) := firstFilled_concat _ _
  refine ⟨metadata_apart r item, ?_, fun honce => ?_⟩
  · have horigin : (r.find? (·.metadataOf item) name).map Declared.origin =
        (lookUp name (r.declaredMetadata item)).map Declared.origin := hagree.origin
    rw [hfound, hentry, Option.map_or, Option.map_or, Option.map_map, ← horigin]
    congr 2
    exact funext (origin_fillKnown name)
  · have hown : r.find? (·.metadataOf item) name = lookUp name (r.declaredMetadata item) :=
      hagree.eq honce
    have hcompleted : found = (lookUp name entries).map (fillKnown name) := by
      rw [hfound, hentry, hown, Option.map_or]
      congr 1
      cases hknown : wellKnownMetadata? name with
      | none => rfl
      | some m => exact congrArg some (fillKnown_wellKnown hknown).symm
    refine ⟨hcompleted, fun hfull => ?_⟩
    rw [hcompleted, hentry]
    cases hdecl : lookUp name (r.declaredMetadata item) with
    | some d => exact congrArg some (fillKnown_of_full (hfull d hdecl))
    | none =>
      cases hknown : wellKnownMetadata? name with
      | none => rfl
      | some m => exact congrArg some (fillKnown_wellKnown hknown)

/-- a file that declares the full path of an item: what is known of it is found but not
enumerated -/
theorem metadata_hides_wellKnown :
    let text :=
      "\x7b\"items\": \x7b\"Compile\": \x7b\"metadata\": \x7b\"FullPath\": \"\"\x7d\x7d\x7d\x7d"
    ∃ s, Schema.parse "s" text = .ok s ∧
      (lookUp "FullPath" ((ofSources [s]).metadata "Compile" true)).map (·.description) = some "" ∧
      ((ofSources [s]).metadata? "Compile" "FullPath").map (·.description) =
        some "The full path of the item" :=
  ⟨{ Schema.empty "s" with
      items := [.item "Compile" "" (.schema "s")]
      metadata := .ofList [(⟨"Compile"⟩, [.metadata "Compile" "FullPath" "" (.schema "s")])] },
    by decide +kernel, by decide +kernel, by decide +kernel⟩

end Registry
end ProjectSense
