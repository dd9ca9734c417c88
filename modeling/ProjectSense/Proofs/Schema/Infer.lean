import Mathlib.Data.List.Pairwise
import Mathlib.Data.List.Perm.Basic
import ProjectSense.Proofs.Schema.Precedence
import ProjectSense.Schema.Infer

/-!
# Kinds guessed, and kept

Names tell of kinds by their endings.  No ending of the table ends with another one, so a name has
one of them at most and the order of the table is of no account.  What is told stands: declared, it
is told again.

* `NameHint.Decided`, `NameHint.decided`: one ending for each name, in any order of the table.
* `Descriptor.inferredKind_cases`: a kind is told, unless none is declared.
* `Descriptor.Stable`, `Descriptor.inferredKind_stable`: what is told stands.
-/

namespace ProjectSense

/-! ### Finding the only one -/

section OnlyOne

variable {α : Type} {p : α → Bool} {l table : List α}

theorem countP_le_one (h : l.Pairwise fun a b => ¬(p a = true ∧ p b = true)) : l.countP p ≤ 1 := by
  induction h with
  | nil => simp
  | @cons a l hfirst _ ih =>
    rw [List.countP_cons]
    split
    · next ha =>
      have hnone : l.countP p = 0 := List.countP_eq_zero.2 fun b hb hpb => hfirst b hb ⟨ha, hpb⟩
      exact Nat.le_of_eq (congrArg (· + 1) hnone)
    · exact ih

/-- what is the only one to be found is found in any order -/
theorem find?_perm (h : table.Perm l) (hone : l.countP p ≤ 1) : table.find? p = l.find? p := by
  have hfilter := h.filter p
  rw [List.countP_eq_length_filter] at hone
  rw [← List.head?_filter, ← List.head?_filter]
  generalize l.filter p = fits at *
  match fits with
  | [] => rw [hfilter.eq_nil]
  | [a] => rw [hfilter.eq_singleton]
  | a :: b :: more => simp at hone

end OnlyOne

/-! ### Endings -/

namespace NameHint

variable {name : List Char} {e f : String}

/-- the name has an ending of the row -/
def endsIn (name : List Char) (row : List String × ValueKind) : Bool := row.1.any (endsWith name)

/-- what the name tells of by a table of endings -/
def kindBy? (table : List (List String × ValueKind)) (name : List Char) : Option ValueKind :=
  if booleanWords.any (beginsWithWord name) then some BaseKind.bool.one
  else (table.find? (endsIn name)).map (·.2)

theorem kind?_eq (name : List Char) : kind? name = kindBy? endings name := rfl

theorem endsWith_iff : endsWith name e = true ↔ foldCase e <:+ name.map Char.toLower :=
  List.isSuffixOf_iff_suffix

/-- neither ends with the other, whatever their case -/
def Apart (e f : String) : Prop := ¬foldCase e <:+ foldCase f ∧ ¬foldCase f <:+ foldCase e

instance : DecidableRel Apart := fun _ _ => inferInstanceAs (Decidable (_ ∧ _))

instance : Std.Symm Apart := ⟨fun _ _ h => ⟨h.2, h.1⟩⟩

theorem Apart.not_endsWith (h : Apart e f) (he : endsWith name e = true) : ¬endsWith name f = true :=
  fun hf => (List.suffix_or_suffix_of_suffix (endsWith_iff.1 he) (endsWith_iff.1 hf)).elim h.1 h.2

theorem endings_apart : (endings.flatMap (·.1)).Pairwise Apart := by decide +kernel

/-- a name has one ending of the table at most -/
theorem eq_of_endsWith (he : e ∈ endings.flatMap (·.1)) (hf : f ∈ endings.flatMap (·.1))
    (hname : endsWith name e = true) (hname' : endsWith name f = true) : e = f := by
  by_contra hne
  exact (endings_apart.forall he hf hne).not_endsWith hname hname'

theorem countP_endings (name : List Char) : endings.countP (endsIn name) ≤ 1 := by
  refine countP_le_one ((List.pairwise_flatMap.1 endings_apart).2.imp fun hapart => ?_)
  rintro ⟨hrow, hother⟩
  obtain ⟨e, he, hname⟩ := List.any_eq_true.1 hrow
  obtain ⟨f, hf, hname'⟩ := List.any_eq_true.1 hother
  exact (hapart e he f hf).not_endsWith hname hname'

/-- One row of the table fits the name at most: the first that fits has the longest ending that
fits, and any order of the table tells the same. -/
structure Decided (name : List Char) : Prop where
  one : endings.countP (endsIn name) ≤ 1
  longest : ∀ row, endings.find? (endsIn name) = some row → ∃ e ∈ row.1, endsWith name e = true ∧
    ∀ other ∈ endings, ∀ f ∈ other.1, endsWith name f = true → f.length ≤ e.length
  anyOrder : ∀ table, table.Perm endings → kindBy? table name = kind? name

theorem decided (name : List Char) : Decided name := by
  refine ⟨countP_endings name, fun row hrow => ?_, fun table htable => ?_⟩
  · obtain ⟨e, he, hname⟩ := List.any_eq_true.1 (List.find?_some (p := endsIn name) hrow)
    refine ⟨e, he, hname, fun other hother f hf hname' => ?_⟩
    have hlisted := List.mem_flatMap_of_mem (List.mem_of_find?_eq_some hrow) he
    exact Nat.le_of_eq (congrArg String.length
      (eq_of_endsWith (List.mem_flatMap_of_mem hother hf) hlisted hname' hname))
  · rw [kind?_eq, kindBy?, kindBy?, find?_perm htable (countP_endings name)]

example : kind? "LogFILENAME".toList = some BaseKind.filename.one := by decide

/-! ### What names tell of -/

theorem isKnown_of_kind? {kind : ValueKind} (h : kind? name = some kind) : kind.IsKnown := by
  rw [kind?_eq, kindBy?] at h
  split at h
  · cases h
    decide
  · obtain ⟨row, hrow, rfl⟩ := Option.map_eq_some_iff.1 h
    have hall : ∀ row ∈ endings, row.2.IsKnown := by decide
    exact hall row (List.mem_of_find?_eq_some hrow)

theorem ofCommon_cases (name : String) : (ofCommon name).IsKnown ∨ ofCommon name = .unknown := by
  unfold ofCommon
  split
  · exact .inl (by decide)
  split
  · exact .inl (by decide)
  · exact .inr rfl

end NameHint

namespace Descriptor

/-! ### What is told stands -/

/-- it is declared with a kind of its own -/
def hasKind : Descriptor → Bool
  | element _ | attr .. | item _ | property _ | metadata _ | parameter _ | function _ => true
  | task _ | target _ | constant _ | framework _ | file _ | klass _ => false

/-- the same, declared with the kind if it is declared with any -/
def withKind : Descriptor → ValueKind → Descriptor
  | element rule, kind => element { rule with kind := kind }
  | attr rule _, kind => attr rule kind
  | item d, kind => item (d.withKind kind)
  | property d, kind => property (d.withKind kind)
  | metadata d, kind => metadata (d.withKind kind)
  | parameter d, kind => parameter (d.withKind kind)
  | function d, kind => function { d with kind := kind }
  | other, _ => other

theorem kind_withKind {d : Descriptor} (h : d.hasKind = true) (kind : ValueKind) :
    (d.withKind kind).kind = kind := by
  cases d <;> first | rfl | cases h

theorem withKind_kind (d : Descriptor) : d.withKind d.kind = d := by
  cases d <;> rfl

theorem inferredKind_of_isKnown {d : Descriptor} (h : d.kind.IsKnown) : d.inferredKind = d.kind :=
  inferredKind_of_declared (Bool.eq_false_iff.2 fun hopen => isOpen_iff.1 hopen h)

/-- An item that nothing describes is files; of anything else that is open nothing is declared. -/
theorem files_or_told {kind told : ValueKind} (hopen : ¬kind.IsKnown)
    (htold : told.IsKnown ∨ told = .unknown) :
    (if kind.base = .unknownItem then filesFor kind else told).IsKnown ∨
      kind = .unknown ∧ (if kind.base = .unknownItem then filesFor kind else told) = .unknown := by
  split
  · exact .inl ⟨by simp [filesFor, ValueKind.unknown], by simp [filesFor]⟩
  · next hitem =>
    have hunknown : kind = .unknown := not_not.1 fun hne => hopen ⟨hne, hitem⟩
    exact htold.imp_right fun htold => ⟨hunknown, htold⟩

/-- a kind is told, unless none is declared -/
theorem inferredKind_cases (d : Descriptor) :
    d.inferredKind.IsKnown ∨ d.kind = .unknown ∧ d.inferredKind = .unknown := by
  by_cases hknown : d.kind.IsKnown
  · exact .inl (inferredKind_of_isKnown hknown ▸ hknown)
  · have hopen : d.kind.isOpen = true := isOpen_iff.2 hknown
    simp only [inferredKind, hopen, Bool.not_true, Bool.false_eq_true, if_false]
    cases d with
    | attr rule kind =>
      dsimp only
      split
      · exact .inl (by decide)
      · exact files_or_told hknown (.inr rfl)
    | property decl =>
      refine files_or_told hknown ?_
      cases htold : NameHint.kind? decl.name.spelling.toList with
      | none => exact NameHint.ofCommon_cases decl.name.spelling
      | some kind => exact .inl (NameHint.isKnown_of_kind? htold)
    | metadata decl =>
      refine files_or_told hknown ?_
      cases htold : NameHint.kind? decl.name.spelling.toList with
      | none => exact .inr rfl
      | some kind => exact .inl (NameHint.isKnown_of_kind? htold)
    | element | item | task | parameter | target | constant | framework | file | function
    | klass => exact files_or_told hknown (.inr rfl)

/-- A declared kind stands if anything is known of it.  What is told is never of an item that nothing
describes, and, once declared, is told again. -/
structure Stable (d : Descriptor) : Prop where
  declared : d.kind ≠ .unknown → d.kind.base ≠ .unknownItem → d.inferredKind = d.kind
  described : d.inferredKind.base ≠ .unknownItem
  recorded : d.hasKind = true → (d.withKind d.inferredKind).kind = d.inferredKind ∧
    (d.withKind d.inferredKind).inferredKind = d.inferredKind

theorem stable (d : Descriptor) : d.Stable := by
  refine ⟨fun hkind hitem => inferredKind_of_isKnown ⟨hkind, hitem⟩, ?_,
    fun hkind => ⟨kind_withKind hkind _, ?_⟩⟩
  · rcases d.inferredKind_cases with hknown | ⟨-, hunknown⟩
    · exact hknown.2
    · rw [hunknown]
      decide
  · rcases d.inferredKind_cases with hknown | ⟨hnone, hunknown⟩
    · have hrecorded := kind_withKind hkind d.inferredKind
      rw [inferredKind_of_isKnown (hrecorded.symm ▸ hknown), hrecorded]
    · -- nothing was declared, and nothing is recorded
      rw [hunknown, ← hnone, withKind_kind, hunknown, hnone]

/-- What is told of anything stands, and no name tells of a kind that another order of the table of
endings would not. -/
theorem inferredKind_stable : (∀ d : Descriptor, d.Stable) ∧ ∀ name, NameHint.Decided name :=
  ⟨stable, NameHint.decided⟩

end Descriptor
end ProjectSense
