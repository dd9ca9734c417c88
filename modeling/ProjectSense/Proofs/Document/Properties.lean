import ProjectSense.Proofs.Document.Records
import ProjectSense.Proofs.Text.NameMap

/-!
# The properties that a document records

Of all records only that of a property changes the properties: it puts its name there, and its text
as the default.

* `Harvest.properties_apply`: what one record does to the properties.
* `Harvest.properties_ofTree`: what holds of no properties and is kept by recording one holds of
  those of every document.
* `Harvest.unreserved_ofTree`: no property of a document is marked as set by the build.
-/

namespace ProjectSense
namespace Harvest

/-- the record of a property changes the properties, and no other does -/
theorem properties_apply (h : Harvest) (record : Record) :
    (h.apply record).properties = match record with
      | .property name text => assign h.properties name text
      | _ => h.properties := by
  cases record with
  | value name value =>
    obtain ⟨values, heq⟩ := exists_apply_value h name value
    rw [heq]
  | offer name value =>
    obtain ⟨values, declared, heq⟩ := exists_apply_offer h name value
    rw [heq]
  | target name =>
    obtain ⟨targets, heq⟩ := exists_apply_target h name
    rw [heq]
  | use task name output =>
    obtain ⟨parameters, heq⟩ := exists_apply_use h task name output
    rw [heq]
  | _ => rfl

/-- what holds of no properties, and is kept where one is recorded, holds of all that a document
records -/
theorem properties_ofTree {P : NameMap PropertyDecl → Prop} (hempty : P .empty)
    (hassign : ∀ m name text, P m → P (assign m name text)) (t : Tree) :
    P (ofTree t).properties := by
  refine ofTree_induction (P := fun h => P h.properties) hempty (fun h record hp => ?_) t
  rw [properties_apply]
  split
  · exact hassign _ _ _ hp
  · exact hp

/-- a document cannot mark a property as one that the build sets -/
theorem unreserved_ofTree (t : Tree) :
    ∀ p ∈ (ofTree t).schema.properties, p.facts.reserved = false := by
  have hdefault : ∀ text (p : PropertyDecl), p.facts.reserved = false →
      (withDefault text p).facts.reserved = false := by
    intro text p hp
    rw [withDefault]
    split <;> exact hp
  have hentries : ∀ e ∈ (ofTree t).properties.entries, e.2.facts.reserved = false := by
    refine properties_ofTree (P := fun m => ∀ e ∈ m.entries, e.2.facts.reserved = false)
      (by simp [NameMap.empty]) (fun m name text hm e he => ?_) t
    rcases NameMap.mem_upsert he with he | ⟨old, hold, rfl⟩ | rfl
    · exact hm e he
    · exact hdefault text old.2 (hm old hold)
    · exact hdefault text _ rfl
  exact List.forall_mem_map.2 hentries

end Harvest
end ProjectSense
