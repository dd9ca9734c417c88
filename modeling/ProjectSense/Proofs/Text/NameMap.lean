import ProjectSense.Proofs.Text.Name
import ProjectSense.Text.NameMap

/-!
# Maps from names, changed

Changing the value under a name changes nothing under other names, and the names of a map grow as a
list of distinct names does.

* `NameMap.find?_upsert`: what stands under each name.
* `NameMap.find?_ofList`: of the pairs put in under a name the last one stands.
* `NameMap.mem_upsert`: where an entry of a changed map comes from.
* `NameMap.spellings_upsert`: the names in their order.
* `NameMap.Holds.upsert`: what holds of every value under its name, and that no name stands twice,
  is kept by changes that keep it.
-/

namespace ProjectSense
namespace NameMap

variable {β : Type} {name other : Name} {fresh : β} {change : β → β}

/-- the names as they were first spelled, in order -/
def spellings (m : NameMap β) : List String := m.entries.map (·.1.spelling)

theorem find?_map {γ : Type} (m : NameMap β) (f : β → γ) :
    (m.map f).find? name = (m.find? name).map f := by
  have hnames : (fun e : Name × γ => e.1.same name) ∘ (fun e : Name × β => (e.1, f e.2)) =
      fun e => e.1.same name := rfl
  rw [find?, find?, map, List.find?_map, hnames, Option.map_map, Option.map_map]
  rfl

theorem find?_upsert (m : NameMap β) :
    (m.upsert name fresh change).find? other =
      if name.same other then some (((m.find? other).map change).getD fresh)
      else m.find? other := by
  obtain ⟨es⟩ := m
  simp only [upsert, find?]
  induction es with
  | nil => cases h : name.same other <;> simp [upsertIn, h]
  | cons e es ih =>
    cases he : e.1.same name with
    | true =>
      have hother : e.1.same other = name.same other := by
        rw [Bool.eq_iff_iff]
        exact ⟨fun g => Name.same_trans (Name.same_symm he) g, fun g => Name.same_trans he g⟩
      cases h : name.same other <;> simp [upsertIn, he, hother, h]
    | false =>
      cases h : e.1.same other with
      | false => simpa [upsertIn, he, h] using ih
      | true =>
        have hne : name.same other = false := by
          refine Bool.eq_false_iff.2 fun g => ?_
          exact Bool.noConfusion (he.symm.trans (Name.same_trans h (Name.same_symm g)))
        simp [upsertIn, he, h, hne]

/-- the same names have the same value -/
theorem find?_congr (m : NameMap β) (h : name.same other = true) :
    m.find? name = m.find? other := by
  have hsame : (fun e : Name × β => e.1.same name) = fun e => e.1.same other := by
    funext e
    rw [Bool.eq_iff_iff]
    exact ⟨fun g => Name.same_trans g h, fun g => Name.same_trans g (Name.same_symm h)⟩
  rw [find?, find?, hsame]

theorem find?_foldl_insert (pairs : List (Name × β)) (m : NameMap β) :
    (pairs.foldl (fun m p => m.insert p.1 p.2) m).find? name =
      ((pairs.reverse.find? fun p => p.1.same name).map (·.2)).or (m.find? name) := by
  induction pairs generalizing m with
  | nil => simp
  | cons p pairs ih =>
    rw [List.foldl_cons, ih, insert, find?_upsert, List.reverse_cons, List.find?_append]
    cases hlater : pairs.reverse.find? fun p => p.1.same name with
    | some q => simp
    | none =>
      cases hsame : p.1.same name with
      | false => simp [hsame]
      | true => cases hold : m.find? name <;> simp [hsame]

theorem find?_ofList (pairs : List (Name × β)) :
    (ofList pairs).find? name = (pairs.reverse.find? fun p => p.1.same name).map (·.2) := by
  rw [ofList, find?_foldl_insert]
  simp [empty, find?]

/-- an entry of a changed map stood there before, was changed, or came in -/
theorem mem_upsert {m : NameMap β} {e : Name × β} (h : e ∈ (m.upsert name fresh change).entries) :
    e ∈ m.entries ∨ (∃ old ∈ m.entries, e = (old.1, change old.2)) ∨ e = (name, fresh) := by
  obtain ⟨es⟩ := m
  simp only [upsert] at h
  induction es with
  | nil => exact .inr (.inr (List.mem_singleton.1 h))
  | cons first es ih =>
    rw [upsertIn] at h
    split at h
    · rcases List.mem_cons.1 h with rfl | h
      · exact .inr (.inl ⟨first, List.mem_cons_self, rfl⟩)
      · exact .inl (List.mem_cons_of_mem _ h)
    · rcases List.mem_cons.1 h with rfl | h
      · exact .inl List.mem_cons_self
      rcases ih h with h | ⟨old, hold, rfl⟩ | rfl
      · exact .inl (List.mem_cons_of_mem _ h)
      · exact .inr (.inl ⟨old, List.mem_cons_of_mem _ hold, rfl⟩)
      · exact .inr (.inr rfl)

theorem spellings_upsert (m : NameMap β) :
    (m.upsert name fresh change).spellings = addName m.spellings name.spelling := by
  obtain ⟨es⟩ := m
  simp only [upsert, spellings]
  induction es with
  | nil => rfl
  | cons e es ih =>
    have hsame : sameName name.spelling e.1.spelling = e.1.same name := by
      rw [Bool.eq_iff_iff, sameName_iff, Name.same_iff]
      exact eq_comm
    cases he : e.1.same name with
    | true => simp [upsertIn, addName, he, hsame]
    | false =>
      rw [upsertIn, he, if_neg Bool.false_ne_true, List.map_cons, List.map_cons, ih]
      simp only [addName, List.any_cons, hsame, he, Bool.false_or, List.cons_append]
      split <;> rfl

/-- no name stands twice, and of every value under its name it holds -/
structure Holds (m : NameMap β) (P : Name → β → Prop) : Prop where
  apart : NamesApart m.spellings
  all : ∀ e ∈ m.entries, P e.1 e.2

variable {P : Name → β → Prop} {m : NameMap β}

theorem holds_empty : (empty : NameMap β).Holds P := ⟨.nil, fun e he => by cases he⟩

/-- only the value under the name is changed -/
theorem Holds.upsert (h : m.Holds P) (hf : P name fresh)
    (hc : ∀ key b, key.same name = true → P key b → P key (change b)) :
    (m.upsert name fresh change).Holds P := by
  refine ⟨spellings_upsert m ▸ h.apart.addName _, ?_⟩
  have hall := h.all
  obtain ⟨es⟩ := m
  simp only [NameMap.upsert] at hall ⊢
  clear h
  induction es with
  | nil => simpa [upsertIn] using hf
  | cons e es ih =>
    obtain ⟨he, hes⟩ := List.forall_mem_cons.1 hall
    rw [upsertIn]
    split
    · next hsame => exact List.forall_mem_cons.2 ⟨hc e.1 e.2 hsame he, hes⟩
    · exact List.forall_mem_cons.2 ⟨he, ih hes⟩

theorem Holds.map {γ : Type} {Q : Name → γ → Prop} {f : β → γ} (h : m.Holds P)
    (hf : ∀ key b, P key b → Q key (f b)) : (m.map f).Holds Q := by
  refine ⟨?_, List.forall_mem_map.2 fun e he => hf e.1 e.2 (h.all e he)⟩
  have hnames : (m.map f).spellings = m.spellings := by
    rw [spellings, NameMap.map, List.map_map]
    rfl
  exact hnames ▸ h.apart

/-- what is found holds under a name that is the same -/
theorem Holds.of_find? {b : β} (h : m.Holds P) (hfind : m.find? name = some b) :
    ∃ key, key.same name = true ∧ P key b := by
  obtain ⟨e, he, rfl⟩ := Option.map_eq_some_iff.1 hfind
  exact ⟨e.1, List.find?_some (p := fun e : Name × β => e.1.same name) he,
    h.all e (List.mem_of_find?_eq_some he)⟩

/-- every entry is found under its name -/
theorem Holds.find?_of_mem {e : Name × β} (h : m.Holds P) (he : e ∈ m.entries) :
    m.find? e.1 = some e.2 := by
  have hsome : (m.entries.find? (·.1.same e.1)).isSome :=
    List.find?_isSome.2 ⟨e, he, Name.same_refl e.1⟩
  obtain ⟨found, hfound⟩ := Option.isSome_iff_exists.1 hsome
  have hsame := List.find?_some (p := fun other : Name × β => other.1.same e.1) hfound
  obtain rfl := h.apart.eq_of_same (List.mem_of_find?_eq_some hfound) he hsame
  rw [find?, hfound]
  rfl

end NameMap
end ProjectSense
