import ProjectSense.Proofs.Markup.Cut

/-!
# Tags in any spelling

Names, attributes with blanks around their parts and values in either quotes, and the end of a tag:
each is read back, whatever follows.

* `Cursor.name_eq`, `Cursor.readAttribute_spelled`: a name and an attribute.
* `Cursor.startTag_spelled`, `Cursor.closingTag_spelled`: whole tags.
-/

namespace ProjectSense

open Text (isBlank width)

/-! ### Writing -/

/-- begins like a name and goes on like one -/
def IsName : List Char → Prop
  | [] => False
  | first :: more => startsName first = true ∧ ∀ d ∈ more, continuesName d = true

def Blanks (cs : List Char) : Prop := ∀ d ∈ cs, isBlank d = true

/-- an attribute with its blanks: those in front and those around the `=` -/
structure Spelling where
  lead : List Char
  name : String
  before : List Char
  after : List Char
  quote : Char
  value : String
deriving DecidableEq, Repr

def Spelling.render (a : Spelling) : List Char :=
  a.lead ++ (a.name.toList ++ (a.before ++ '=' :: (a.after ++
    a.quote :: (a.value.toList ++ [a.quote]))))

/-- a name behind a blank, and a value in quotes without its quote and `<` -/
def Spelling.WellFormed (a : Spelling) : Prop :=
  a.lead ≠ [] ∧ Blanks a.lead ∧ IsName a.name.toList ∧ Blanks a.before ∧ Blanks a.after ∧
    (a.quote = '"' ∨ a.quote = '\'') ∧ ∀ d ∈ a.value.toList, d ≠ a.quote ∧ d ≠ '<'

/-- the end of a start tag -/
def tagEnd (selfClosing : Bool) : List Char := if selfClosing then ['/', '>'] else ['>']

-- the characters of the list are looked at, never all characters there are
instance : DecidablePred IsName
  | [] => inferInstanceAs (Decidable False)
  | _ :: more =>
    have := List.decidableBAll (fun d => continuesName d = true) more
    inferInstanceAs (Decidable (_ ∧ _))

instance : DecidablePred Blanks := fun cs => List.decidableBAll (fun d => isBlank d = true) cs

instance : DecidablePred Spelling.WellFormed := fun a =>
  have := List.decidableBAll (fun d => d ≠ a.quote ∧ d ≠ '<') a.value.toList
  inferInstanceAs (Decidable (_ ∧ _ ∧ _ ∧ _ ∧ _ ∧ _ ∧ _))

theorem IsName.exists_cons {cs : List Char} (h : IsName cs) :
    ∃ first more, cs = first :: more ∧ startsName first = true ∧
      ∀ d ∈ more, continuesName d = true := by
  cases cs with
  | nil => cases h
  | cons first more => exact ⟨first, more, rfl, h⟩

/-! ### Characters -/

theorem isBlank_of_startsName {c : Char} (h : startsName c = true) : Text.isBlank c = false :=
  isBlank_of_continuesName (continuesName_of_startsName h)

theorem not_continuesName_of_blank {c : Char} (h : isBlank c = true) :
    continuesName c = false := by
  refine Bool.eq_false_iff.2 fun hc => ?_
  rw [isBlank_of_continuesName hc] at h
  cases h

theorem forall_mem_head?_append {P : Char → Prop} {cs rest : List Char} (hcs : ∀ d ∈ cs, P d)
    (hrest : ∀ d ∈ rest.head?, P d) : ∀ d ∈ (cs ++ rest).head?, P d := by
  cases cs with
  | nil => exact hrest
  | cons c cs => exact forall_mem_head?_cons (hcs c List.mem_cons_self)

theorem Blanks.not_continues {cs rest : List Char} (h : Blanks cs)
    (hrest : ∀ d ∈ rest.head?, continuesName d = false) :
    ∀ d ∈ (cs ++ rest).head?, continuesName d = false :=
  forall_mem_head?_append (fun d hd => not_continuesName_of_blank (h d hd)) hrest

theorem not_continues_tagEnd (ended : Bool) (rest : List Char) :
    ∀ d ∈ (tagEnd ended ++ rest).head?, continuesName d = false := by
  cases ended with
  | true => exact forall_mem_head?_cons (by decide)
  | false => exact forall_mem_head?_cons (by decide)

namespace Cursor

variable {c : Cursor} {rest : List Char}

theorem name_eq {cs : List Char} (hn : IsName cs) (h : c.rest = cs ++ rest)
    (hrest : ∀ d ∈ rest.head?, continuesName d = false) :
    c.name.1.1 = String.ofList cs ∧ c.name.2.rest = rest := by
  obtain ⟨first, more, rfl, hs, hmore⟩ := hn.exists_cons
  have hdrop : (c.drop 1).rest = more ++ rest := by simp [drop, h]
  rw [name_of_starts h hs, takeWhile_eq hdrop hmore hrest]
  exact ⟨rfl, rfl⟩

theorem skipBlanks_written {blanks : List Char} (hb : Blanks blanks) (h : c.rest = blanks ++ rest)
    (hrest : ∀ d ∈ rest.head?, isBlank d = false) :
    c.skipBlanks = ⟨c.pos + width blanks, rest⟩ := by
  rw [skipBlanks, takeWhile_eq h hb hrest]

/-! ### Start tags -/

theorem readAttribute_spelled {a : Spelling} (ha : a.WellFormed)
    (h : c.rest = a.name.toList ++ (a.before ++ '=' :: (a.after ++
      a.quote :: (a.value.toList ++ a.quote :: rest)))) :
    c.readAttribute.1.name = a.name ∧ c.readAttribute.1.value = some a.value ∧
      c.readAttribute.1.closed = true ∧ c.readAttribute.2.rest = rest := by
  obtain ⟨-, -, hn, hbefore, hafter, hquote, hvalue⟩ := ha
  obtain ⟨hname, hnext⟩ :=
    name_eq hn h (hbefore.not_continues (forall_mem_head?_cons (by decide)))
  rw [String.ofList_toList] at hname
  have hequals : c.name.2.skipBlanks.rest =
      '=' :: (a.after ++ a.quote :: (a.value.toList ++ a.quote :: rest)) := by
    rw [skipBlanks_written hbefore hnext (forall_mem_head?_cons (by decide))]
  have hblank : isBlank a.quote = false := by
    rcases hquote with hq | hq
    · rw [hq]; decide
    · rw [hq]; decide
  have hstart : c.valueStart.rest = a.quote :: (a.value.toList ++ a.quote :: rest) := by
    have hdrop : (c.name.2.skipBlanks.drop 1).rest =
        a.after ++ a.quote :: (a.value.toList ++ a.quote :: rest) := by simp [drop, hequals]
    rw [valueStart, skipBlanks_written hafter hdrop (forall_mem_head?_cons hblank)]
  have hraw : c.rawValue a.quote = (a.value.toList,
      ⟨(c.valueStart.drop 1).pos + width a.value.toList, a.quote :: rest⟩) := by
    refine takeWhile_eq ?_ ?_ (forall_mem_head?_cons (by simp))
    · simp [drop, hstart]
    · intro d hd
      simp [hvalue d hd]
  have hread := ReadsAttribute.closed hequals hstart hquote (congrArg (·.2.rest) hraw)
  rw [hread.eq]
  refine ⟨hname, ?_, rfl, ?_⟩
  · simp [quotedAttribute, hraw]
  · simp [drop, hraw]

theorem tagBody_end_written {blanks : List Char} {ended : Bool} (hb : Blanks blanks)
    (h : c.rest = blanks ++ (tagEnd ended ++ rest)) :
    ∃ pos, c.tagBody.1 = [.endStart pos ended] ∧ c.tagBody.2.rest = rest := by
  cases ended with
  | true =>
    have hskip := skipBlanks_written hb h (forall_mem_head?_cons (by decide))
    rw [tagBody_selfClosed hskip]
    exact ⟨_, rfl, rfl⟩
  | false =>
    have hskip := skipBlanks_written hb h (forall_mem_head?_cons (by decide))
    rw [tagBody_closed hskip]
    exact ⟨_, rfl, rfl⟩

/-- attributes are read back in order, and then the end of the tag -/
theorem tagBody_spelled {attributes : List Spelling} {blanks : List Char} {ended : Bool}
    (ha : ∀ a ∈ attributes, a.WellFormed) (hb : Blanks blanks)
    (h : c.rest = attributes.flatMap Spelling.render ++ (blanks ++ (tagEnd ended ++ rest))) :
    ∃ (read : List Attribute) (pos : Nat),
      c.tagBody.1 = read.map .attr ++ [.endStart pos ended] ∧
      read.map (fun a => (a.name, a.value, a.closed)) =
        attributes.map (fun a => (a.name, some a.value, true)) ∧ c.tagBody.2.rest = rest := by
  induction attributes generalizing c with
  | nil =>
    obtain ⟨pos, h1, h2⟩ := tagBody_end_written hb h
    exact ⟨[], pos, h1, rfl, h2⟩
  | cons a attributes ih =>
    have ha' := ha a List.mem_cons_self
    obtain ⟨first, more, hn, hs, -⟩ := ha'.2.2.1.exists_cons
    have hrest : c.rest = a.lead ++ (a.name.toList ++ (a.before ++ '=' :: (a.after ++
        a.quote :: (a.value.toList ++ a.quote :: (attributes.flatMap Spelling.render ++
          (blanks ++ (tagEnd ended ++ rest))))))) := by
      rw [h]
      simp [Spelling.render]
    have hskip := skipBlanks_written ha'.2.1 hrest (by
      rw [hn]
      exact forall_mem_head?_cons (isBlank_of_startsName hs))
    have hread : c.skipBlanks.rest = _ := congrArg Cursor.rest hskip
    obtain ⟨h1, h2, h3, h4⟩ := readAttribute_spelled ha' hread
    obtain ⟨read, pos, h5, h6, h7⟩ := ih (fun a h => ha a (List.mem_cons_of_mem _ h)) h4
    rw [hn] at hread
    rw [tagBody_attribute hread hs]
    refine ⟨c.skipBlanks.readAttribute.1 :: read, pos, ?_, ?_, h7⟩
    · rw [h5, List.map_cons, List.cons_append]
    · rw [List.map_cons, List.map_cons, h1, h2, h3, h6]

theorem construct_startTag {first : Char} (h : c.rest = '<' :: first :: rest)
    (hs : startsName first = true) : c.construct = c.startTag := by
  obtain ⟨-, -, h1, h2, h3⟩ := ne_of_startsName hs
  simp [construct, sees, h, h1, h2, h3, Ne.symm]

/-- a tag is read back, whatever follows it -/
theorem startTag_spelled {name : String} {attributes : List Spelling} {blanks : List Char}
    {ended : Bool} (hn : IsName name.toList) (ha : ∀ a ∈ attributes, a.WellFormed)
    (hb : Blanks blanks)
    (h : c.rest = '<' :: (name.toList ++ (attributes.flatMap Spelling.render ++
      (blanks ++ (tagEnd ended ++ rest))))) :
    c.construct = c.startTag ∧ c.startTag.2.rest = rest ∧
      ∃ (nameSpan : Span) (read : List Attribute) (pos : Nat),
        c.startTag.1 =
          .start name nameSpan c.pos :: (read.map .attr ++ [.endStart pos ended]) ∧
        read.map (fun a => (a.name, a.value, a.closed)) =
          attributes.map fun a => (a.name, some a.value, true) := by
  have hnext : ∀ d ∈ (attributes.flatMap Spelling.render ++
      (blanks ++ (tagEnd ended ++ rest))).head?, continuesName d = false := by
    cases attributes with
    | nil => exact hb.not_continues (not_continues_tagEnd ended rest)
    | cons a attributes =>
      obtain ⟨hne, hlead, -⟩ := ha a List.mem_cons_self
      obtain ⟨d, lead, hd⟩ := List.exists_cons_of_ne_nil hne
      simp only [List.flatMap_cons, Spelling.render, hd, List.cons_append]
      exact forall_mem_head?_cons (not_continuesName_of_blank (hlead d (hd ▸ List.mem_cons_self)))
  have hdrop : (c.drop 1).rest = name.toList ++ (attributes.flatMap Spelling.render ++
      (blanks ++ (tagEnd ended ++ rest))) := by simp [drop, h]
  obtain ⟨hname, hrest⟩ := name_eq hn hdrop hnext
  obtain ⟨read, pos, hbody, hread, hend⟩ := tagBody_spelled ha hb hrest
  obtain ⟨first, more, hfm, hs, -⟩ := hn.exists_cons
  rw [hfm, List.cons_append] at h
  rw [String.ofList_toList] at hname
  refine ⟨construct_startTag h hs, hend, (c.drop 1).name.1.2, read, pos, ?_, hread⟩
  rw [startTag, hbody, hname]

/-! ### Closing tags -/

theorem construct_closingTag (h : c.rest = '<' :: '/' :: rest) : c.construct = c.closingTag := by
  simp [construct, sees, h]

theorem closingTag_spelled {name : String} {blanks : List Char} (hn : IsName name.toList)
    (hb : Blanks blanks) (h : c.rest = '<' :: '/' :: (name.toList ++ (blanks ++ '>' :: rest))) :
    c.construct = c.closingTag ∧
      c.closingTag.1 = [.close name ⟨c.pos, c.closingTag.2.pos⟩] ∧ c.closingTag.2.rest = rest := by
  have hdrop : (c.drop 2).rest = name.toList ++ (blanks ++ '>' :: rest) := by simp [drop, h]
  obtain ⟨hname, hrest⟩ :=
    name_eq hn hdrop (hb.not_continues (forall_mem_head?_cons (by decide)))
  rw [String.ofList_toList] at hname
  have hskip : (c.drop 2).name.2.skipBlanks.rest = '>' :: rest := by
    rw [skipBlanks_written hb hrest (forall_mem_head?_cons (by decide))]
  have hlast : c.closingTag.2 = (c.drop 2).name.2.skipBlanks.drop 1 := by
    simp [closingTag, hskip]
  refine ⟨construct_closingTag h, ?_, ?_⟩
  · rw [← hname]
    rfl
  · rw [hlast]
    change (c.drop 2).name.2.skipBlanks.rest.drop 1 = rest
    rw [hskip]
    rfl

end Cursor
end ProjectSense
