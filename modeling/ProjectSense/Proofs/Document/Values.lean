import ProjectSense.Document.Basic
import ProjectSense.Proofs.Document.Consistent
import ProjectSense.Proofs.Path.Combinations

/-!
# The values that a document's templates go through

The configurations and platforms that are offered come from the registry, those that a template goes
through from the values of the document.  Whenever the schemas change both are built anew, so that
they stay in step.

* `Document.Current`: the invariant; `Document.current_apply`, `Document.current_configure`: every
  change of the surroundings keeps it.
* `Document.valuesOf_extend`: what more values of one property change.
* `Document.values_offered`: templates go through what is offered, each value once.
-/

namespace ProjectSense
namespace Document

/-! ### Surroundings -/

/-- a change of what surrounds a document, which keeps values of its own -/
inductive Setting where
  | schemas (schemas : List Schema)
  | sdks (sdks : SdkLocator)
  | listing (listing : Listing)

namespace Setting

def apply (d : Document) : Setting → Document
  | .schemas new => d.withSchemas new
  | .sdks locator => d.withSdks locator
  | .listing view => d.withListing view

/-- the schemas after the change -/
def lastSchemas (before : List Schema) : Setting → List Schema
  | .schemas new => new
  | _ => before

end Setting

def configure (d : Document) (settings : List Setting) : Document := settings.foldl Setting.apply d

/-- the registry and the values are those that the tree and the schemas lead to -/
structure Current (t : Tree) (schemas : List Schema) (d : Document) : Prop where
  harvest : d.harvest = Harvest.ofTree t
  schemas : d.schemas = schemas
  own : d.givenValues = none
  registry : d.registry = .ofSources d.sources
  values : d.values = d.ownValues d.registry

variable {d : Document} {t : Tree} {schemas : List Schema}

theorem current_build (path text : String) :
    Current (Tree.parse text) [] (build (parse path text)) := ⟨rfl, rfl, rfl, rfl, rfl⟩

theorem current_apply (h : d.Current t schemas) (s : Setting) :
    (s.apply d).Current t (s.lastSchemas schemas) := by
  obtain ⟨hharvest, hschemas, hown, hregistry, hvalues⟩ := h
  cases s with
  | schemas new =>
    refine ⟨hharvest, rfl, hown, rfl, ?_⟩
    simp only [Setting.apply, withSchemas, rebuild, hown, Option.isSome_none, Bool.false_eq_true,
      if_false]
  | sdks sdks => exact ⟨hharvest, hschemas, hown, hregistry, hvalues⟩
  | listing listing => exact ⟨hharvest, hschemas, hown, hregistry, hvalues⟩

theorem current_configure (h : d.Current t schemas) (settings : List Setting) :
    (d.configure settings).Current t (settings.foldl Setting.lastSchemas schemas) := by
  induction settings generalizing d schemas with
  | nil => exact h
  | cons s settings ih => exact ih (current_apply h s)

/-! ### More values of one property -/

theorem valuesOf_extend (vs : Values) (name other : String) (more : List String) :
    (extend vs name more).valuesOf other =
      if sameName name other then more.foldl addName (vs.valuesOf other)
      else vs.valuesOf other := by
  have hfound : sameName name other = true → vs.valuesOf name = vs.valuesOf other := fun hsame =>
    congrArg (Option.getD · []) (NameMap.find?_congr vs hsame)
  unfold extend
  split
  · next hnil =>
    -- no value comes in, and none was there
    split
    · next hsame =>
      rw [← hfound hsame, hnil]
      refine List.eq_nil_iff_forall_not_mem.2 fun v hv => ?_
      obtain ⟨w, hw, -⟩ := exists_mem_foldl_addName (vs.valuesOf name) more (.inl hv)
      rw [hnil] at hw
      cases hw
    · rfl
  · have hsame : Name.same ⟨name⟩ ⟨other⟩ = sameName name other := rfl
    rw [Values.valuesOf, NameMap.insert, NameMap.find?_upsert, hsame]
    split
    · next hsame =>
      rw [← hfound hsame]
      cases vs.find? ⟨other⟩ <;> rfl
    · rfl

/-! ### What templates go through -/

theorem apart_valuesOf {vs : Values} (h : vs.Holds Harvest.Lists) (name : String) :
    NamesApart (vs.valuesOf name) := by
  rw [Values.valuesOf]
  cases hfind : vs.find? ⟨name⟩ with
  | none => exact .nil
  | some values =>
    obtain ⟨key, -, hlist⟩ := h.of_find? hfind
    exact hlist.apart

/-- a template goes through what is offered for a property and what the text gives it: no value
twice, none left out, and nothing else -/
structure ExpandsOver (d : Document) (name : String) (offered : List String) : Prop where
  apart : NamesApart (d.values.valuesOf name)
  source : ∀ v ∈ d.values.valuesOf name, v ∈ offered ∨ v ∈ d.harvest.values.valuesOf name
  covers : ∀ v, v ∈ offered ∨ v ∈ d.harvest.values.valuesOf name →
    ∃ w ∈ d.values.valuesOf name, sameName w v = true
  expansions : d.values.expansions (TemplatePart.write [.property name]) =
    (d.values.choices name).map String.toList
  once : ∀ v ∈ offered, (d.values.expansions (TemplatePart.write [.property name])).countP
    (fun text => sameName (String.ofList text) v) = 1
  paths : ∀ base, d.values.paths (TemplatePart.write [.property name]) base =
    (d.values.choices name).filterMap fun v => (Path.resolve? v.toList base).map String.ofList

theorem expandsOver_of_valuesOf {name : String} {offered : List String}
    (hname : (name.toList.all fun c => !Text.isBlank c && c != ')') = true)
    (hharvest : NamesApart (d.harvest.values.valuesOf name))
    (h : d.values.valuesOf name = offered.foldl addName (d.harvest.values.valuesOf name)) :
    d.ExpandsOver name offered := by
  have hcovers : ∀ v, v ∈ offered ∨ v ∈ d.harvest.values.valuesOf name →
      ∃ w ∈ d.values.valuesOf name, sameName w v = true := by
    intro v hv
    rw [h]
    exact exists_mem_foldl_addName _ _ hv.symm
  have hexpansions := Values.expansions_reference d.values (by simpa using hname)
  refine ⟨h ▸ hharvest.foldl_addName offered, fun v hv => ?_, hcovers, hexpansions, fun v hv => ?_,
    fun base => ?_⟩
  · exact (mem_of_mem_foldl_addName (h ▸ hv)).symm
  · obtain ⟨w, hw, hsame⟩ := hcovers v (.inl hv)
    rw [hexpansions, Values.choices_of_ne_nil (List.ne_nil_of_mem hw), List.countP_map]
    simp only [Function.comp_def, String.ofList_toList]
    exact NamesApart.countP_eq_one (h ▸ hharvest.foldl_addName offered) ⟨w, hw, hsame⟩
  · rw [Values.paths, hexpansions, List.filterMap_map]
    rfl

/-- Whatever schemas a text is read with, and however often they or the surroundings change, the
registry is that of the last schemas, and templates go through the configurations and platforms that
it offers and those that the text itself gives, each of them once. -/
theorem values_offered (path text : String) (settings : List Setting) :
    let d := (build (parse path text)).configure settings
    let harvest := Harvest.ofTree (Tree.parse text)
    let schemas := settings.foldl Setting.lastSchemas []
    d.harvest = harvest ∧ d.registry = .ofSources (harvest.schema :: schemas ++ [Schema.builtin]) ∧
      d.ExpandsOver "Configuration" d.registry.configurations ∧
      d.ExpandsOver "Platform" d.registry.platforms := by
  intro d harvest schemas
  obtain ⟨hharvest, hschemas, -, hregistry, hvalues⟩ :=
    current_configure (current_build path text) settings
  have hapart : ∀ name, NamesApart (d.harvest.values.valuesOf name) := by
    rw [hharvest]
    exact apart_valuesOf (Harvest.consistent_ofTree (Tree.parse text)).values
  have hregistry' : d.registry = .ofSources (harvest.schema :: schemas ++ [Schema.builtin]) := by
    rw [hregistry, Basis.sources, hharvest, hschemas]
  refine ⟨hharvest, hregistry', expandsOver_of_valuesOf rfl (hapart _) ?_,
    expandsOver_of_valuesOf rfl (hapart _) ?_⟩
  · have hother : sameName "Platform" "Configuration" = false := by decide
    rw [hvalues, Basis.ownValues, valuesOf_extend, hother, valuesOf_extend, sameName_refl]
    rfl
  · have hother : sameName "Configuration" "Platform" = false := by decide
    rw [hvalues, Basis.ownValues, valuesOf_extend, sameName_refl, valuesOf_extend, hother]
    rfl

end Document
end ProjectSense
