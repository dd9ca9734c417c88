import Mathlib.Data.List.Basic
import ProjectSense.Document.Harvest
import ProjectSense.Proofs.Text.Break
import ProjectSense.Proofs.Text.NameMap

/-!
# What conditions declare

A condition compares quoted texts, with other text around the comparisons.  The values that it
declares are those that stand at the same place in the two texts of a comparison as a property.

* `Condition.comparisons_written`: each comparison is read as it was written.
* `Condition.offersOf_iff`: the pairs of a property and a value that places offer.
* `Harvest.foldl_declare`: what comes of declaring pairs one after the other.
* `Harvest.addCondition_written`: what a condition declares.
-/

namespace ProjectSense

open Text (isBlank trim)

namespace Condition

/-- text without quotes and signs of equality -/
abbrev Bare := { cs : List Char // '\'' ∉ cs ∧ '=' ∉ cs }

/-- blank text -/
abbrev Blanks := { cs : List Char // ∀ c ∈ cs, isBlank c = true }

/-- two quoted texts with a sign of equality between them, and the blanks around it -/
structure Comparison where
  left : Bare
  before : Blanks
  after : Blanks
  right : Bare

namespace Comparison

def text (c : Comparison) : List Char :=
  ['\''] ++ c.left.1 ++ ['\''] ++ c.before.1 ++ ['=', '='] ++ c.after.1 ++ ['\''] ++ c.right.1 ++
    ['\'']

/-- the parts that stand at the same place on both sides, if there are as many -/
def places (c : Comparison) : List (List Char × List Char) :=
  let names := c.left.1.splitOn '|'
  let values := c.right.1.splitOn '|'
  if names.length = values.length then names.zip values else []

end Comparison

/-- the text of a condition -/
def written (front : Bare) (rest : List (Comparison × Bare)) : List Char :=
  front.1 ++ rest.flatMap fun p => p.1.text ++ p.2.1

variable {left right cs tail : List Char} {name value : String}

/-! ### Reading comparisons -/

theorem takeWhile_quote (h : '\'' ∉ cs) (more : List Char) :
    (cs ++ '\'' :: more).takeWhile (· ≠ '\'') = cs := by
  have hall : ∀ c ∈ cs, decide (c ≠ '\'') = true := fun c hc =>
    decide_eq_true fun heq => h (heq ▸ hc)
  rw [List.takeWhile_append_of_pos hall, List.takeWhile_cons_of_neg (by decide), List.append_nil]

theorem dropWhile_blanks {blanks : List Char} (h : ∀ c ∈ blanks, isBlank c = true)
    (more : List Char) : (blanks ++ '\'' :: more).dropWhile isBlank = '\'' :: more := by
  rw [List.dropWhile_append_of_pos h, List.dropWhile_cons_of_neg (by decide)]

theorem lastQuoted?_quoted (hleft : '\'' ∉ left) (before : Blanks) (tail : List Char) :
    lastQuoted? (tail ++ ['\''] ++ left ++ ['\''] ++ before.1) = some left := by
  have hreverse : (tail ++ ['\''] ++ left ++ ['\''] ++ before.1).reverse =
      before.1.reverse ++ '\'' :: (left.reverse ++ '\'' :: tail.reverse) := by
    simp
  have hblank : ∀ c ∈ before.1.reverse, isBlank c = true := fun c hc =>
    before.2 c (List.mem_reverse.1 hc)
  rw [lastQuoted?, Text.trimEnd, hreverse, dropWhile_blanks hblank, List.reverse_reverse]
  have hquote : (left.reverse ++ '\'' :: tail.reverse).contains '\'' = true := by simp
  refine (if_pos hquote).trans ?_
  rw [takeWhile_quote (by simpa using hleft), List.reverse_reverse]

theorem firstQuoted?_quoted (hright : '\'' ∉ right) (after : Blanks) (more : List Char) :
    firstQuoted? (after.1 ++ ['\''] ++ right ++ ['\''] ++ more) = some right := by
  have hassoc : after.1 ++ ['\''] ++ right ++ ['\''] ++ more =
      after.1 ++ '\'' :: (right ++ '\'' :: more) := by
    simp
  rw [firstQuoted?, Text.trimStart, hassoc, dropWhile_blanks after.2]
  have hquote : (right ++ '\'' :: more).contains '\'' = true := by simp
  refine (if_pos hquote).trans ?_
  rw [takeWhile_quote hright]

theorem comparisons_of_not_mem (h : '=' ∉ cs) : comparisons cs = [] := by
  rw [comparisons]
  split
  · next left rest hbreak =>
    refine absurd ?_ h
    rw [Text.breakOn_eq hbreak]
    simp
  · rfl

theorem comparisons_of_breakOn {rest : List Char} (h : Text.breakOn ['=', '='] cs = (tail, some rest))
    (hl : lastQuoted? tail = some left) (hr : firstQuoted? rest = some right) :
    comparisons cs = pairsOf left right ++ comparisons rest := by
  rw [comparisons]
  split
  · next before after hbreak =>
    obtain ⟨rfl, hafter⟩ := Prod.mk.inj (hbreak.symm.trans h)
    obtain rfl := Option.some.inj hafter
    rw [hl, hr]
  · next before hbreak => cases (Prod.mk.inj (hbreak.symm.trans h)).2

/-- one sign of equality is none of the two -/
theorem not_infix_of_not_mem (h : '=' ∉ cs) : ¬['=', '='] <:+: cs ++ ['='] := by
  intro hinfix
  have hcount := hinfix.sublist.count_le '='
  rw [List.count_append, List.count_eq_zero_of_not_mem h] at hcount
  exact absurd hcount (by decide)

/-- the next comparison is read, whatever stands before it -/
theorem comparisons_step (c : Comparison) (htail : '=' ∉ tail) (more : List Char) :
    comparisons (tail ++ (c.text ++ more)) = pairsOf c.left.1 c.right.1 ++
      comparisons (c.after.1 ++ ['\''] ++ c.right.1 ++ ['\''] ++ more) := by
  have hassoc : tail ++ (c.text ++ more) =
      tail ++ ['\''] ++ c.left.1 ++ ['\''] ++ c.before.1 ++ ['=', '='] ++
        (c.after.1 ++ ['\''] ++ c.right.1 ++ ['\''] ++ more) := by
    simp [Comparison.text]
  have hbefore : '=' ∉ c.before.1 := fun h => absurd (c.before.2 '=' h) (by decide)
  have hfront : '=' ∉ tail ++ ['\''] ++ c.left.1 ++ ['\''] ++ c.before.1 := by
    simp [htail, c.left.2.2, hbefore]
  rw [hassoc]
  exact comparisons_of_breakOn
    (Text.breakOn_pattern (by simp) (not_infix_of_not_mem hfront) _)
    (lastQuoted?_quoted c.left.2.1 c.before tail) (firstQuoted?_quoted c.right.2.1 c.after more)

theorem comparisons_written (front : Bare) (rest : List (Comparison × Bare)) :
    comparisons (written front rest) = rest.flatMap fun p => pairsOf p.1.left.1 p.1.right.1 := by
  -- what stands before a comparison may end in the text that was compared last
  have key : ∀ tail : List Char, '=' ∉ tail →
      comparisons (tail ++ rest.flatMap fun p => p.1.text ++ p.2.1) =
        rest.flatMap fun p => pairsOf p.1.left.1 p.1.right.1 := by
    induction rest with
    | nil =>
      intro tail htail
      rw [List.flatMap_nil, List.append_nil, comparisons_of_not_mem htail]
      rfl
    | cons p rest ih =>
      intro tail htail
      obtain ⟨c, text⟩ := p
      have hafter : '=' ∉ c.after.1 := fun h => absurd (c.after.2 '=' h) (by decide)
      have hnext : '=' ∉ c.after.1 ++ ['\''] ++ c.right.1 ++ ['\''] ++ text.1 := by
        simp [hafter, c.right.2.2, text.2.2]
      rw [List.flatMap_cons, List.flatMap_cons, List.append_assoc, comparisons_step c htail,
        ← List.append_assoc, ih _ hnext]
  exact key front.1 front.2.2

example : comparisons "'$(A)|$(B)' == 'x|y' and '$(A)'=='X'".toList =
    [("A", "x"), ("B", "y"), ("A", "X")] := by
  decide +kernel

/-! ### Values that are offered -/

/-- the place holds a name in `$(name)` on the left and a value that refers to nothing on the
right -/
structure Offers (left right : List Char) (name value : String) : Prop where
  property : ∃ cs, trim left = ['$', '('] ++ cs ++ [')'] ∧ name.toList = trim cs
  named : name ≠ ""
  text : value.toList = trim right
  literal : value ≠ "" ∧ ∀ c ∈ value.toList, c ∉ ['$', '@', '%']

/-- what the places offer one after the other; a place may offer nothing -/
inductive OffersOf : List (List Char × List Char) → List (String × String) → Prop
  | nil : OffersOf [] []
  | offer {left right : List Char} {name value : String} {places : List (List Char × List Char)}
      {pairs : List (String × String)} (h : Offers left right name value)
      (more : OffersOf places pairs) : OffersOf ((left, right) :: places) ((name, value) :: pairs)
  | skip {left right : List Char} {places : List (List Char × List Char)}
      {pairs : List (String × String)} (h : ∀ name value, ¬Offers left right name value)
      (more : OffersOf places pairs) : OffersOf ((left, right) :: places) pairs

theorem property?_eq_some_iff :
    property? left = some name ↔
      ∃ cs, trim left = ['$', '('] ++ cs ++ [')'] ∧ name.toList = trim cs := by
  unfold property?
  split
  · next rest htrim =>
    rw [htrim]
    constructor
    · intro h
      split at h
      · next hlast =>
        obtain ⟨cs, rfl⟩ := List.getLast?_eq_some_iff.1 hlast
        obtain rfl := Option.some.inj h
        exact ⟨cs, by simp, by simp⟩
      · cases h
    · rintro ⟨cs, heq, hname⟩
      obtain rfl : rest = cs ++ [')'] := by simpa using heq
      rw [if_pos List.getLast?_concat, List.dropLast_concat, ← hname, String.ofList_toList]
  · next hother =>
    refine iff_of_false (by simp) ?_
    rintro ⟨cs, heq, -⟩
    exact hother _ heq

/-- a value of a property, and not just of nothing -/
def counts (pair : String × String) : Bool := isLiteral pair.2 && !pair.1.isEmpty

theorem counts_iff : counts (name, value) = true ↔
    (value ≠ "" ∧ ∀ c ∈ value.toList, c ∉ ['$', '@', '%']) ∧ name ≠ "" := by
  simp [counts, isLiteral, and_assoc]

/-- what a place offers -/
def offer? (place : List Char × List Char) : Option (String × String) :=
  ((property? place.1).map fun name => (name, String.ofList (trim place.2))).filter counts

theorem offer?_eq_some_iff :
    offer? (left, right) = some (name, value) ↔ Offers left right name value := by
  have hvalue : String.ofList (trim right) = value ↔ value.toList = trim right := by
    rw [← String.toList_inj, String.toList_ofList, eq_comm]
  rw [offer?, Option.filter_eq_some_iff, Option.map_eq_some_iff, counts_iff]
  constructor
  · rintro ⟨⟨n, hn, heq⟩, hliteral, hnamed⟩
    obtain ⟨rfl, hv⟩ := Prod.mk.inj heq
    exact ⟨property?_eq_some_iff.1 hn, hnamed, hvalue.1 hv, hliteral⟩
  · rintro ⟨hproperty, hnamed, htext, hliteral⟩
    exact ⟨⟨name, property?_eq_some_iff.2 hproperty, by rw [hvalue.2 htext]⟩, hliteral, hnamed⟩

theorem offersOf_iff {places : List (List Char × List Char)} {pairs : List (String × String)} :
    OffersOf places pairs ↔ pairs = places.filterMap offer? := by
  constructor
  · intro h
    induction h with
    | nil => rfl
    | offer h _ ih => rw [List.filterMap_cons_some (offer?_eq_some_iff.2 h), ih]
    | @skip left right places pairs h _ ih =>
      have hnone : offer? (left, right) = none :=
        Option.eq_none_iff_forall_ne_some.2 fun pair hpair => h _ _ (offer?_eq_some_iff.1 hpair)
      rw [List.filterMap_cons_none hnone, ih]
  · rintro rfl
    induction places with
    | nil => exact .nil
    | cons place places ih =>
      cases hplace : offer? place with
      | none =>
        rw [List.filterMap_cons_none hplace]
        refine .skip (fun name value h => ?_) ih
        rw [offer?_eq_some_iff.2 h] at hplace
        cases hplace
      | some pair =>
        rw [List.filterMap_cons_some hplace]
        exact .offer (offer?_eq_some_iff.1 hplace) ih

theorem filter_pairsOf (c : Comparison) :
    (pairsOf c.left.1 c.right.1).filter counts = c.places.filterMap offer? := by
  have hsplit : ∀ cs : List Char, Text.splitOn (· == '|') cs = cs.splitOn '|' :=
    Text.splitOn_eq_splitOnP _
  rw [pairsOf, hsplit, hsplit, Comparison.places]
  dsimp only
  split
  · rw [List.filter_filterMap]
    rfl
  · rfl

end Condition

namespace Harvest

open Condition

variable {vs : Values} {pairs : List (String × String)} {name value : String}

/-- the values with the pairs recorded one after the other -/
def recordAll (vs : Values) (pairs : List (String × String)) : Values :=
  pairs.foldl (fun vs p => record vs p.1 p.2) vs

theorem valuesOf_record (vs : Values) (name value other : String) :
    (record vs name value).valuesOf other =
      if sameName name other then addName (vs.valuesOf other) value else vs.valuesOf other := by
  rw [record, Values.valuesOf, NameMap.find?_upsert, Values.valuesOf]
  have hsame : Name.same ⟨name⟩ ⟨other⟩ = sameName name other := rfl
  rw [hsame]
  split
  · cases vs.find? ⟨other⟩ <;> rfl
  · rfl

/-- under a name stand the values of its pairs, each unless it stood there already -/
theorem valuesOf_recordAll (vs : Values) (pairs : List (String × String)) (name : String) :
    (recordAll vs pairs).valuesOf name =
      ((pairs.filter fun p => sameName p.1 name).map (·.2)).foldl addName (vs.valuesOf name) := by
  induction pairs generalizing vs with
  | nil => rfl
  | cons p pairs ih =>
    rw [recordAll, List.foldl_cons, ← recordAll, ih, valuesOf_record, List.filter_cons]
    cases sameName p.1 name <;> rfl

/-- no value is recorded a second time -/
theorem apart_recordAll (h : NamesApart (vs.valuesOf name)) (pairs : List (String × String)) :
    NamesApart ((recordAll vs pairs).valuesOf name) := by
  rw [valuesOf_recordAll]
  exact h.foldl_addName _

theorem declare_eq (h : Harvest) (pair : String × String) : h.declare pair.1 pair.2 =
    if counts pair then
      { h with
        declared := record h.declared pair.1 pair.2
        values := record h.values pair.1 pair.2 }
    else h := by
  rw [declare, counts]
  split
  · next hcounts => rw [addValue, if_pos hcounts]
  · rfl

/-- pairs that say nothing change nothing, and the others are recorded in order -/
theorem foldl_declare (h : Harvest) (pairs : List (String × String)) :
    pairs.foldl (fun h p => h.declare p.1 p.2) h =
      { h with
        declared := recordAll h.declared (pairs.filter counts)
        values := recordAll h.values (pairs.filter counts) } := by
  induction pairs generalizing h with
  | nil => rfl
  | cons p pairs ih =>
    rw [List.foldl_cons, ih, declare_eq, List.filter_cons]
    cases counts p <;> rfl

theorem addCondition_eq (h : Harvest) (condition : String) : h.addCondition condition =
    { h with
      declared := recordAll h.declared ((comparisons condition.toList).filter counts)
      values := recordAll h.values ((comparisons condition.toList).filter counts) } :=
  foldl_declare h _

/-- the values that are offered at the places of the comparisons are recorded and nothing else, and
none of them a second time -/
theorem addCondition_written (h : Harvest) (front : Bare) (rest : List (Comparison × Bare)) :
    ∃ pairs, (∀ qs, OffersOf (rest.flatMap fun p => p.1.places) qs ↔ qs = pairs) ∧
      h.addCondition (String.ofList (written front rest)) =
        { h with declared := recordAll h.declared pairs, values := recordAll h.values pairs } ∧
      ∀ name,
        (h.addCondition (String.ofList (written front rest))).declared.valuesOf name =
          ((pairs.filter fun p => sameName p.1 name).map (·.2)).foldl addName
            (h.declared.valuesOf name) ∧
        (h.addCondition (String.ofList (written front rest))).values.valuesOf name =
          ((pairs.filter fun p => sameName p.1 name).map (·.2)).foldl addName
            (h.values.valuesOf name) ∧
        (NamesApart (h.declared.valuesOf name) → NamesApart
          ((h.addCondition (String.ofList (written front rest))).declared.valuesOf name)) ∧
        (NamesApart (h.values.valuesOf name) → NamesApart
          ((h.addCondition (String.ofList (written front rest))).values.valuesOf name)) := by
  have hpairs : (comparisons (written front rest)).filter counts =
      (rest.flatMap fun p => p.1.places).filterMap offer? := by
    rw [comparisons_written, List.filter_flatMap, List.filterMap_flatMap]
    exact List.flatMap_congr fun p _ => filter_pairsOf p.1
  rw [addCondition_eq, String.toList_ofList, hpairs]
  exact ⟨_, fun qs => offersOf_iff, rfl, fun name =>
    ⟨valuesOf_recordAll h.declared _ name, valuesOf_recordAll h.values _ name,
      fun hapart => apart_recordAll hapart _, fun hapart => apart_recordAll hapart _⟩⟩

end Harvest
end ProjectSense
