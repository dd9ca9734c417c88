import ProjectSense.Proofs.Schema.Lookup

/-!
# What wins among declarations

Among the declarations of one name the first gives the spelling, the provenance and the facts.  The
description is the first that says something, and the kind the first that is known; a kind that is
not known gives way to any other, so that without a known one the last remains.

* `firstFilled_settled`: what completing a declaration from those after it makes of them.
* `merge_precedence`: the entries of a merge, each settled by the declarations of its name.
* `Registry.precedence_enumerated`: the law for all that a registry enumerates.
-/

namespace ProjectSense

variable {Facts : Type} {d e : Declared Facts} {ds es : List (Declared Facts)}

/-! ### The declarations of one name -/

/-- something is known of the values, if only that they are a list -/
def ValueKind.IsKnown (kind : ValueKind) : Prop := kind ≠ .unknown ∧ kind.base ≠ .unknownItem

instance (kind : ValueKind) : Decidable kind.IsKnown := inferInstanceAs (Decidable (_ ∧ _))

/-- an entry as its occurrences, in order, settle it -/
structure Settled (occurrences : List (Declared Facts)) (entry : Declared Facts) : Prop where
  origin : occurrences.head?.map Declared.origin = some entry.origin
  description : entry.description =
    ((occurrences.map (·.description)).find? (· ≠ "")).getD ""
  kind : some entry.kind = ((occurrences.map (·.kind)).find? (·.IsKnown)).or
    (occurrences.map (·.kind)).getLast?

theorem isOpen_iff {kind : ValueKind} : kind.isOpen = true ↔ ¬kind.IsKnown := by
  simp only [ValueKind.isOpen, ValueKind.isUnknown, ValueKind.IsKnown, Bool.or_eq_true,
    decide_eq_true_eq]
  tauto

theorem description_foldl_fill (d : Declared Facts) (ds : List (Declared Facts)) :
    (ds.foldl .fill d).description =
      (((d :: ds).map (·.description)).find? (· ≠ "")).getD "" := by
  induction ds generalizing d with
  | nil => by_cases h : d.description = "" <;> simp [h]
  | cons e ds ih =>
    rw [List.foldl_cons, ih]
    by_cases h : d.description = ""
    · have hfill : (d.fill e).description = e.description := if_pos (by simp [h])
      simp only [List.map_cons, List.find?_cons, hfill, h, ne_eq, not_true_eq_false, decide_false]
    · have hfill : (d.fill e).description = d.description := if_neg (by simp [h])
      simp only [List.map_cons, List.find?_cons, hfill, h, ne_eq, not_false_eq_true, decide_true]

theorem kind_foldl_fill (d : Declared Facts) (ds : List (Declared Facts)) :
    some (ds.foldl .fill d).kind = (((d :: ds).map (·.kind)).find? (·.IsKnown)).or
      ((d :: ds).map (·.kind)).getLast? := by
  induction ds generalizing d with
  | nil => by_cases h : d.kind.IsKnown <;> simp [h]
  | cons e ds ih =>
    rw [List.foldl_cons, ih]
    by_cases h : d.kind.IsKnown
    · have hkind : (d.fill e).kind = d.kind := if_neg (isOpen_iff.not_left.2 h)
      simp only [List.map_cons, List.find?_cons, hkind, h, decide_true, Option.some_or]
    · have hkind : (d.fill e).kind = e.kind := if_pos (isOpen_iff.2 h)
      simp only [List.map_cons, List.find?_cons, hkind, h, decide_false, List.getLast?_cons_cons]

/-- completing the first declaration from those after it settles them -/
theorem firstFilled_settled (h : firstFilled ds = some e) : Settled ds e := by
  cases ds with
  | nil => cases h
  | cons d ds =>
    obtain rfl := Option.some.inj h
    exact ⟨congrArg some (origin_foldl_fill d ds).symm, description_foldl_fill d ds,
      kind_foldl_fill d ds⟩

/-! ### Merging -/

/-- what precedence makes of declarations: each name once, in order of first occurrence, and each
entry settled by the declarations of its name -/
structure Precedence (decls entries : List (Declared Facts)) : Prop where
  apart : NamesApart (spellings entries)
  order : spellings entries = (spellings decls).eraseDupsBy sameName
  declared : ∀ name, (∃ e ∈ entries, e.name.spelledBy name = true) ↔
    ∃ d ∈ decls, d.name.spelledBy name = true
  settled : ∀ e ∈ entries, Settled (named e.name.spelling decls) e

/-- where names are apart, an entry is found under its own -/
theorem lookUp_of_mem (h : NamesApart (spellings es)) (he : e ∈ es) :
    lookUp e.name.spelling es = some e := by
  have hsome : (lookUp e.name.spelling es).isSome = true :=
    List.find?_isSome.2 ⟨e, he, sameName_refl _⟩
  obtain ⟨found, hfind⟩ := Option.isSome_iff_exists.1 hsome
  have hsame := List.find?_some hfind
  obtain rfl := h.eq_of_same (List.mem_of_find?_eq_some hfind) he hsame
  exact hfind

theorem exists_spelledBy_iff (name : String) (es : List (Declared Facts)) :
    (∃ e ∈ es, e.name.spelledBy name = true) ↔ lookUp name es ≠ none := by
  rw [lookUp, Ne, List.find?_eq_none]
  simp

theorem merge_precedence (ds : List (Declared Facts)) : Precedence ds (merge ds) := by
  have hapart := spellings_merge_apart ds
  refine ⟨hapart, ?_, fun name => ?_, fun e he => ?_⟩
  · rw [spellings_merge, distinctNames_eq_eraseDupsBy]
  · rw [exists_spelledBy_iff, exists_spelledBy_iff, lookUp_merge, lookUp_eq_head?]
    cases named name ds <;> simp [firstFilled]
  · exact firstFilled_settled ((lookUp_merge _ ds).symm.trans (lookUp_of_mem hapart he))

namespace Registry

/-- Whatever a registry enumerates obeys the precedence of its sources, and configurations and
platforms are their values in order, each name once. -/
theorem precedence_enumerated (sources : List Schema) (task item : String) :
    let r := ofSources sources
    Precedence (sources.flatMap (·.items)) r.items ∧
      Precedence (sources.flatMap (·.properties)) (r.properties true) ∧
      Precedence (sources.flatMap (·.tasks)) r.tasks ∧
      Precedence (sources.flatMap (·.targets)) r.targets ∧
      Precedence (sources.flatMap (·.parametersOf task)) (r.parameters task) ∧
      Precedence (sources.flatMap (·.metadataOf item)) (r.metadata item false) ∧
      r.configurations = (sources.flatMap (·.configurations)).eraseDupsBy sameName ∧
      r.platforms = (sources.flatMap (·.platforms)).eraseDupsBy sameName := by
  intro r
  have hproperties : r.properties true = merge (sources.flatMap (·.properties)) :=
    List.filter_eq_self.2 fun p _ => rfl
  refine ⟨merge_precedence _, ?_, merge_precedence _, merge_precedence _, merge_precedence _,
    merge_precedence _, distinctNames_eq_eraseDupsBy _, distinctNames_eq_eraseDupsBy _⟩
  rw [hproperties]
  exact merge_precedence _

end Registry
end ProjectSense
