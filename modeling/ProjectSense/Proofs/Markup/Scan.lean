import ProjectSense.Proofs.Text.Blank
import ProjectSense.Proofs.Text.Break
import ProjectSense.Proofs.Text.Place
import ProjectSense.Markup.Reader

/-!
# What each reading step takes

Every step passes a part of the text, and what it returns is that part.

* `Cursor.passes_name`, `Cursor.nameSpan_eq`: a name is what was passed.
* `Cursor.readAttribute_cases`: the three forms an attribute may take.
* `Cursor.head_name`: no name starts where one was just read.
-/

namespace ProjectSense

theorem continuesName_of_startsName {c : Char} (h : startsName c = true) :
    continuesName c = true := by
  simp only [startsName, Bool.or_eq_true, beq_iff_eq] at h
  simp only [continuesName, Bool.or_eq_true, beq_iff_eq]
  rcases h with (h | rfl) | rfl
  · exact Or.inl (Or.inl (Or.inl (Text.continuesIdent_of_startsIdent h)))
  · exact Or.inl (Or.inl (Or.inl rfl))
  · exact Or.inr rfl

theorem isBlank_of_continuesName {c : Char} (h : continuesName c = true) :
    Text.isBlank c = false :=
  Text.not_blank_of_runs (p := continuesName) (by decide +kernel) h

/-- what may stand around a name in markup is not part of one -/
theorem ne_of_startsName {c : Char} (h : startsName c = true) :
    c ≠ '<' ∧ c ≠ '>' ∧ c ≠ '/' ∧ c ≠ '!' ∧ c ≠ '?' := by
  refine ⟨?_, ?_, ?_, ?_, ?_⟩ <;> rintro rfl <;> exact absurd h (by decide)

namespace Cursor

open Text

variable {c : Cursor}

/-! ### Runs of characters -/

theorem passes_takeWhile (p : Char → Bool) (c : Cursor) :
    c.Passes (c.takeWhile p).1 (c.takeWhile p).2 :=
  ⟨List.takeWhile_append_dropWhile.symm, rfl⟩

theorem head_takeWhile {p : Char → Bool} {c : Cursor} {d : Char}
    (h : (c.takeWhile p).2.rest.head? = some d) : p d = false := by
  have := List.head?_dropWhile_not p c.rest
  rw [show (c.rest.dropWhile p).head? = some d from h] at this
  simpa using this

theorem takeWhile_eq {p : Char → Bool} {read rest : List Char} (h : c.rest = read ++ rest)
    (hread : ∀ d ∈ read, p d = true) (hrest : ∀ d ∈ rest.head?, p d = false) :
    c.takeWhile p = (read, ⟨c.pos + width read, rest⟩) := by
  have h1 : rest.takeWhile p = [] := by
    cases rest with
    | nil => rfl
    | cons d rest => simp [hrest d rfl]
  have h2 : rest.dropWhile p = rest := by
    cases rest with
    | nil => rfl
    | cons d rest => simp [hrest d rfl]
  rw [takeWhile, h, List.takeWhile_append_of_pos hread, List.dropWhile_append_of_pos hread, h1, h2,
    List.append_nil]

theorem takeWhile_none {p : Char → Bool} (h : ∀ d ∈ c.rest.head?, p d = false) :
    c.takeWhile p = ([], c) :=
  takeWhile_eq (List.nil_append _).symm (by simp) h

theorem takeWhile_all {p : Char → Bool} (h : ∀ d ∈ c.rest, p d = true) :
    c.takeWhile p = (c.rest, ⟨c.pos + width c.rest, []⟩) :=
  takeWhile_eq (List.append_nil _).symm h (by simp)

theorem leads_skipBlanks (c : Cursor) : c.Leads c.skipBlanks := (passes_takeWhile isBlank c).leads

theorem passes_drop (n : Nat) (c : Cursor) : c.Passes (c.rest.take n) (c.drop n) :=
  ⟨(List.take_append_drop n c.rest).symm, rfl⟩

theorem leads_drop (n : Nat) (c : Cursor) : c.Leads (c.drop n) := (passes_drop n c).leads

theorem drop_one_lt {first : Char} {rest : List Char} (h : c.rest = first :: rest) :
    c.pos < (c.drop 1).pos :=
  (passes_drop 1 c).lt (by simp [h])

/-- what stands before the pattern is passed, and the pattern with it if it comes -/
theorem passes_past (pattern : List Char) (c : Cursor) :
    ∃ tail, c.Passes ((c.past pattern).1 ++ tail) (c.past pattern).2 := by
  unfold past
  split
  · next before after h =>
    exact ⟨pattern, breakOn_eq h, by simp only [width_append]; omega⟩
  · next before h =>
    have hb := breakOn_none h
    exact ⟨[], by simp [hb], by simp⟩

theorem leads_past (pattern : List Char) (c : Cursor) : c.Leads (c.past pattern).2 := by
  obtain ⟨tail, h⟩ := passes_past pattern c
  exact h.leads

/-! ### Names -/

theorem name_of_starts {first : Char} {rest : List Char} (h : c.rest = first :: rest)
    (hs : startsName first = true) :
    c.name = ((String.ofList (first :: ((c.drop 1).takeWhile continuesName).1),
      ⟨c.pos, ((c.drop 1).takeWhile continuesName).2.pos⟩),
      ((c.drop 1).takeWhile continuesName).2) := by
  unfold name
  split
  · next h' => exact absurd (h.symm.trans h') (by simp)
  · next first' rest' h' =>
    obtain ⟨rfl, rfl⟩ := List.cons.inj (h.symm.trans h')
    rw [if_pos hs]

theorem name_of_not_starts (h : ∀ first ∈ c.rest.head?, startsName first = false) :
    c.name = (("", .empty c.pos), c) := by
  unfold name
  split
  · rfl
  · next first rest h' =>
    have : startsName first = false := h first (by simp [h'])
    rw [if_neg (by simp [this])]

/-- a name is read or none comes next -/
theorem starts_or_not (c : Cursor) :
    (∃ first rest, c.rest = first :: rest ∧ startsName first = true) ∨
      ∀ first ∈ c.rest.head?, startsName first = false := by
  cases hr : c.rest with
  | nil => exact Or.inr (by simp)
  | cons first rest =>
    cases hs : startsName first with
    | true => exact Or.inl ⟨first, rest, rfl, hs⟩
    | false => exact Or.inr (by simpa using hs)

theorem passes_name (c : Cursor) : c.Passes c.name.1.1.toList c.name.2 := by
  rcases starts_or_not c with ⟨first, rest, h, hs⟩ | h
  · rw [name_of_starts h hs]
    have h1 := passes_drop 1 c
    rw [h] at h1
    simpa using h1.trans (passes_takeWhile continuesName (c.drop 1))
  · rw [name_of_not_starts h]
    exact .refl c

theorem nameSpan_eq (c : Cursor) : c.name.1.2 = ⟨c.pos, c.name.2.pos⟩ := by
  rcases starts_or_not c with ⟨first, rest, h, hs⟩ | h
  · rw [name_of_starts h hs]
  · rw [name_of_not_starts h]; rfl

theorem leads_name (c : Cursor) : c.Leads c.name.2 := (passes_name c).leads

/-- no name starts where one has just ended -/
theorem head_name {first : Char} (h : c.name.2.rest.head? = some first) :
    startsName first = false := by
  rcases starts_or_not c with ⟨first', rest, hr, hs⟩ | hn
  · rw [name_of_starts hr hs] at h
    have hc := head_takeWhile h
    refine Bool.eq_false_iff.2 ?_
    intro hf
    rw [continuesName_of_startsName hf] at hc
    cases hc
  · rw [name_of_not_starts hn] at h
    exact hn first h

/-! ### Attributes -/

/-- where the value of an attribute is looked for: after its name and a `=` -/
def valueStart (c : Cursor) : Cursor := (c.name.2.skipBlanks.drop 1).skipBlanks

/-- the text of a value in quotes, which ends before the quote or a `<` -/
def rawValue (quote : Char) (c : Cursor) : List Char × Cursor :=
  (c.valueStart.drop 1).takeWhile fun d => d ≠ quote && d ≠ '<'

/-- the attribute without a value that spans the text up to `d` -/
def bareAttribute (c d : Cursor) : Attribute :=
  ⟨c.name.1.1, c.name.1.2, none, none, ⟨c.pos, d.pos⟩, false⟩

/-- the attribute with a value in quotes that spans the text up to `d` -/
def quotedAttribute (c : Cursor) (quote : Char) (d : Cursor) (closed : Bool) : Attribute :=
  ⟨c.name.1.1, c.name.1.2, some (String.ofList (c.rawValue quote).1),
    some ⟨(c.valueStart.drop 1).pos, (c.rawValue quote).2.pos⟩, ⟨c.pos, d.pos⟩, closed⟩

/-- the forms of an attribute: a name alone, a name with `=` but no quote, a value that is not
closed, and a value in quotes -/
inductive ReadsAttribute (c : Cursor) : Attribute × Cursor → Prop
  | bare (h : c.name.2.skipBlanks.rest.head? ≠ some '=') :
    ReadsAttribute c (c.bareAttribute c.name.2, c.name.2)
  | unquoted {tail : List Char} (h : c.name.2.skipBlanks.rest = '=' :: tail)
    (hq : ∀ quote ∈ c.valueStart.rest.head?, ¬(quote = '"' ∨ quote = '\'')) :
    ReadsAttribute c (c.bareAttribute c.valueStart, c.valueStart)
  | unclosed {tail inner : List Char} {quote : Char} (h : c.name.2.skipBlanks.rest = '=' :: tail)
    (hv : c.valueStart.rest = quote :: inner) (hq : quote = '"' ∨ quote = '\'')
    (hc : (c.rawValue quote).2.rest.head? ≠ some quote) :
    ReadsAttribute c (c.quotedAttribute quote (c.rawValue quote).2 false, (c.rawValue quote).2)
  | closed {tail inner last : List Char} {quote : Char}
    (h : c.name.2.skipBlanks.rest = '=' :: tail)
    (hv : c.valueStart.rest = quote :: inner) (hq : quote = '"' ∨ quote = '\'')
    (hc : (c.rawValue quote).2.rest = quote :: last) :
    ReadsAttribute c (c.quotedAttribute quote ((c.rawValue quote).2.drop 1) true,
      (c.rawValue quote).2.drop 1)

theorem readAttribute_cases (c : Cursor) : c.ReadsAttribute c.readAttribute := by
  simp only [readAttribute]
  split
  · next tail h =>
    split
    · next quote inner hv =>
      by_cases hq : quote = '"' ∨ quote = '\''
      · have hr : ((c.name.2.skipBlanks.drop 1).skipBlanks.drop 1).takeWhile
            (fun d => decide (d ≠ quote) && decide (d ≠ '<')) = c.rawValue quote := rfl
        simp only [if_pos hq, hr]
        by_cases hc : (c.rawValue quote).2.rest.head? = some quote
        · obtain ⟨last, hl⟩ := List.head?_eq_some_iff.1 hc
          simp only [hc, decide_true, if_true]
          exact .closed h hv hq hl
        · simp only [hc, decide_false, if_false]
          exact .unclosed h hv hq hc
      · rw [if_neg hq]
        exact .unquoted h (by rw [show c.valueStart.rest = _ from hv]; simpa using hq)
    · next hv =>
      exact .unquoted h (by rw [show c.valueStart.rest = _ from hv]; simp)
  · next h =>
    have hn : c.name.2.skipBlanks.rest.head? ≠ some '=' := by
      intro h'
      obtain ⟨tail, ht⟩ := List.head?_eq_some_iff.1 h'
      exact h tail ht
    have key := ReadsAttribute.bare hn
    rw [bareAttribute, ← nameSpan_eq] at key
    exact key

theorem leads_valueStart (c : Cursor) : c.name.2.Leads c.valueStart :=
  ((leads_skipBlanks _).trans (leads_drop 1 _)).trans (leads_skipBlanks _)

theorem name_lt_valueStart {tail : List Char} (h : c.name.2.skipBlanks.rest = '=' :: tail) :
    c.name.2.pos < c.valueStart.pos := by
  have h1 := (leads_skipBlanks c.name.2).le
  have h2 := drop_one_lt h
  have h3 := (leads_skipBlanks (c.name.2.skipBlanks.drop 1)).le
  rw [valueStart]; omega

theorem passes_rawValue (quote : Char) (c : Cursor) :
    (c.valueStart.drop 1).Passes (c.rawValue quote).1 (c.rawValue quote).2 :=
  passes_takeWhile _ _

theorem leads_rawValue (quote : Char) (c : Cursor) : c.name.2.Leads (c.rawValue quote).2 :=
  ((leads_valueStart c).trans (leads_drop 1 _)).trans (passes_rawValue quote c).leads

theorem ReadsAttribute.leads {r : Attribute × Cursor} (h : c.ReadsAttribute r) :
    c.name.2.Leads r.2 := by
  cases h with
  | bare => exact .refl _
  | unquoted => exact leads_valueStart c
  | unclosed => exact leads_rawValue _ c
  | closed => exact (leads_rawValue _ c).trans (leads_drop 1 _)

/-! ### Start tags -/

theorem tagBody_end {pos : Nat} (h : c.skipBlanks = ⟨pos, []⟩) :
    c.tagBody = ([.extend pos], ⟨pos, []⟩) := by
  rw [tagBody]
  split <;> simp_all

theorem tagBody_next {pos : Nat} {rest : List Char} (h : c.skipBlanks = ⟨pos, '<' :: rest⟩) :
    c.tagBody = ([.extend pos], ⟨pos, '<' :: rest⟩) := by
  rw [tagBody]
  split <;> simp_all

theorem tagBody_selfClosed {pos : Nat} {rest : List Char}
    (h : c.skipBlanks = ⟨pos, '/' :: '>' :: rest⟩) :
    c.tagBody = ([.endStart (pos + 2) true], ⟨pos + 2, rest⟩) := by
  rw [tagBody]
  split <;> simp_all

theorem tagBody_closed {pos : Nat} {rest : List Char} (h : c.skipBlanks = ⟨pos, '>' :: rest⟩) :
    c.tagBody = ([.endStart (pos + 1) false], ⟨pos + 1, rest⟩) := by
  rw [tagBody]
  split <;> simp_all

theorem tagBody_attribute {first : Char} {rest : List Char} (h : c.skipBlanks.rest = first :: rest)
    (hs : startsName first = true) :
    c.tagBody = (.attr c.skipBlanks.readAttribute.1 :: c.skipBlanks.readAttribute.2.tagBody.1,
      c.skipBlanks.readAttribute.2.tagBody.2) := by
  obtain ⟨h1, h2, h3, -⟩ := ne_of_startsName hs
  rw [tagBody]
  split
  · next pos h' => rw [h'] at h; cases h
  · next pos first' rest' h' =>
    rw [h'] at h
    obtain ⟨rfl, rfl⟩ := List.cons.inj h
    simp [h1, h2, h3, hs, h']

/-- what makes no sense in a start tag is skipped -/
theorem tagBody_other {pos : Nat} {first : Char} {rest : List Char}
    (h : c.skipBlanks = ⟨pos, first :: rest⟩) (h1 : first ≠ '<')
    (h2 : ¬(first = '/' ∧ rest.head? = some '>')) (h3 : first ≠ '>')
    (hs : startsName first = false) :
    c.tagBody = (⟨pos + first.utf8Size, rest⟩ : Cursor).tagBody := by
  rw [tagBody]
  split
  · next pos' h' => rw [h'] at h; cases h
  · next pos' first' rest' h' =>
    rw [h'] at h
    obtain ⟨rfl, hr⟩ := Cursor.mk.inj h
    obtain ⟨rfl, rfl⟩ := List.cons.inj hr
    rw [if_neg h1, if_neg h2, if_neg h3, dif_neg (by simp [hs])]

theorem leads_readAttribute (c : Cursor) : c.Leads c.readAttribute.2 :=
  (leads_name c).trans (readAttribute_cases c).leads

theorem leads_tagBody (c : Cursor) : c.skipBlanks.Leads c.tagBody.2 := by
  fun_induction tagBody c with
  | case1 c pos h => rw [h]; exact .refl _
  | case2 c pos rest h => rw [h]; exact .refl _
  | case3 c pos first rest h hlt h1 h2 =>
    obtain ⟨rfl, h2⟩ := h2
    obtain ⟨tail, rfl⟩ := List.head?_eq_some_iff.1 h2
    rw [h]
    exact ⟨['/', '>'], rfl, rfl⟩
  | case4 c pos rest h => rw [h]; exact ⟨['>'], rfl, rfl⟩
  | case5 c pos first rest h hlt h1 h2 h3 hs a after ha this more ih =>
    have hread := leads_readAttribute ⟨pos, first :: rest⟩
    rw [ha] at hread
    rw [h]
    exact hread.trans ((leads_skipBlanks after).trans ih)
  | case6 c pos first rest h hlt h1 h2 h3 hs ih =>
    rw [h]
    exact Leads.trans ⟨[first], rfl, rfl⟩ ((leads_skipBlanks _).trans ih)

end Cursor

/-! ### Attributes in the text -/

namespace Attribute

/-- the attribute as it was written in the text: its spans are places in it, in order, and its
name and its value stand in theirs -/
structure Sound (text : List Char) (a : Attribute) : Prop where
  span : a.span.Within 0 text
  name : a.nameSpan.Holds 0 text a.name.toList
  start_eq : a.nameSpan.start = a.span.start
  name_le : a.nameSpan.stop ≤ a.span.stop
  isSome_eq : a.value.isSome = a.valueSpan.isSome
  value : ∀ v s, a.value = some v → a.valueSpan = some s →
    s.Holds 0 text v.toList ∧ a.nameSpan.stop < s.start ∧ s.stop ≤ a.span.stop

/-- the last offset that touches the name or the value -/
def reach (a : Attribute) : Nat := (a.valueSpan.getD a.nameSpan).stop

/-- the attribute ends before the other begins, and no offset is on both -/
def Before (a b : Attribute) : Prop := a.span.stop ≤ b.span.start ∧ a.reach < b.span.start

end Attribute

namespace Cursor

variable {c : Cursor} {text : List Char}

theorem sound_bareAttribute {d : Cursor} (hc : c.In 0 text) (hd : c.name.2.Leads d) :
    (c.bareAttribute d).Sound text := by
  constructor
  · exact hc.within ((leads_name c).trans hd)
  · rw [show (c.bareAttribute d).nameSpan = c.name.1.2 from rfl, nameSpan_eq]
    exact hc.holds (passes_name c)
  · rw [show (c.bareAttribute d).nameSpan = c.name.1.2 from rfl, nameSpan_eq]; rfl
  · rw [show (c.bareAttribute d).nameSpan = c.name.1.2 from rfl, nameSpan_eq]
    exact hd.le
  · rfl
  · intro v s hv; cases hv

theorem sound_quotedAttribute {d : Cursor} {quote : Char} {closed : Bool} {tail inner : List Char}
    (hc : c.In 0 text) (h : c.name.2.skipBlanks.rest = '=' :: tail)
    (hv : c.valueStart.rest = quote :: inner) (hd : (c.rawValue quote).2.Leads d) :
    (c.quotedAttribute quote d closed).Sound text := by
  have hn : (c.quotedAttribute quote d closed).nameSpan = ⟨c.pos, c.name.2.pos⟩ := nameSpan_eq c
  have hr := leads_rawValue quote c
  constructor
  · exact hc.within ((leads_name c).trans (hr.trans hd))
  · rw [hn]; exact hc.holds (passes_name c)
  · rw [hn]; rfl
  · rw [hn]; exact (hr.trans hd).le
  · rfl
  · intro v s hv' hs
    obtain rfl := Option.some.inj hv'
    obtain rfl := Option.some.inj hs
    have hin : (c.valueStart.drop 1).In 0 text :=
      hc.leads ((leads_name c).trans ((leads_valueStart c).trans (leads_drop 1 _)))
    refine ⟨by simpa using hin.holds (passes_rawValue quote c), ?_, hd.le⟩
    have h1 := name_lt_valueStart h
    have h2 := drop_one_lt hv
    rw [hn]
    exact Nat.lt_trans h1 h2

theorem ReadsAttribute.span_eq {r : Attribute × Cursor} (h : c.ReadsAttribute r) :
    r.1.span = ⟨c.pos, r.2.pos⟩ := by
  cases h <;> rfl

theorem ReadsAttribute.sound {r : Attribute × Cursor} (h : c.ReadsAttribute r)
    (hc : c.In 0 text) : r.1.Sound text := by
  cases h with
  | bare => exact sound_bareAttribute hc (.refl _)
  | unquoted => exact sound_bareAttribute hc (leads_valueStart c)
  | unclosed h hv => exact sound_quotedAttribute hc h hv (.refl _)
  | closed h hv => exact sound_quotedAttribute hc h hv (leads_drop 1 _)

theorem startsName_lt : startsName '<' = false := by decide

/-- where a name starts right after an attribute, no offset is on both -/
theorem ReadsAttribute.reach_lt {r : Attribute × Cursor} {first : Char} (h : c.ReadsAttribute r)
    (hf : r.2.rest.head? = some first) (hs : startsName first = true) : r.1.reach < r.2.pos := by
  cases h with
  | bare =>
    rw [head_name hf] at hs
    cases hs
  | unquoted h =>
    have hn : (c.bareAttribute c.valueStart).reach = c.name.2.pos :=
      congrArg Span.stop (nameSpan_eq c)
    rw [hn]
    exact name_lt_valueStart h
  | @unclosed _ _ quote h hv hq hc =>
    -- the value stopped at a `<`, and no name starts there
    have hp := head_takeWhile hf
    have hne : first ≠ quote := fun he => hc (he ▸ hf)
    have hlt : first = '<' := by simpa [hne] using hp
    rw [hlt, startsName_lt] at hs
    cases hs
  | closed h hv hq hc => exact drop_one_lt hc

theorem ReadsAttribute.reach_le {r : Attribute × Cursor} (h : c.ReadsAttribute r) :
    r.1.reach ≤ r.2.pos := by
  cases h with
  | bare => exact Nat.le_of_eq (congrArg Span.stop (nameSpan_eq c))
  | unquoted h =>
    have hn : (c.bareAttribute c.valueStart).reach = c.name.2.pos :=
      congrArg Span.stop (nameSpan_eq c)
    rw [hn]
    exact (leads_valueStart c).le
  | unclosed => exact Nat.le_refl _
  | closed h hv hq hc => exact Nat.le_of_lt (drop_one_lt hc)

end Cursor

namespace Attribute

variable {text : List Char} {a b : Attribute} {offset : Nat}

/-- the value stands after the name and inside the attribute -/
theorem Sound.valueSpan_inside {s : Span} (h : a.Sound text) (hs : a.valueSpan = some s) :
    a.nameSpan.stop < s.start ∧ s.start ≤ s.stop ∧ s.stop ≤ a.span.stop := by
  obtain ⟨v, hv⟩ : ∃ v, a.value = some v := by
    rw [← Option.isSome_iff_exists, h.isSome_eq, hs]; rfl
  obtain ⟨hh, hlt, hle⟩ := h.value v s hv hs
  exact ⟨hlt, hh.within.le, hle⟩

/-- an attribute is touched from its beginning up to its reach only -/
theorem Sound.bounds_of_onAttribute (h : a.Sound text) (ho : Tree.onAttribute offset a = true) :
    a.span.start ≤ offset ∧ offset ≤ a.reach := by
  have hs := h.start_eq
  have hn := h.name.within.le
  simp only [Tree.onAttribute, Bool.or_eq_true, Span.touches_iff] at ho
  cases hv : a.valueSpan with
  | none =>
    rw [reach, hv]
    simp only [hv, Option.any_none, Bool.false_eq_true, or_false] at ho
    exact ⟨by omega, ho.2⟩
  | some s =>
    rw [reach, hv]
    obtain ⟨hlt, hle, -⟩ := h.valueSpan_inside hv
    simp only [hv, Option.any_some, Span.touches_iff] at ho
    simp only [Option.getD_some]
    omega

theorem Before.not_both (h : a.Before b) (ha : a.Sound text) (hb : b.Sound text) :
    ¬(Tree.onAttribute offset a = true ∧ Tree.onAttribute offset b = true) := by
  rintro ⟨h1, h2⟩
  have := (ha.bounds_of_onAttribute h1).2
  have := (hb.bounds_of_onAttribute h2).1
  have := h.2
  omega

end Attribute
end ProjectSense
