import ProjectSense.Proofs.Markup.Part

/-!
# Reading a text that is cut off

A reading step on the front of a text does what it does on the whole text, or the step on the
whole text goes beyond the cut and the one on the front reaches it.

* `Cursor.readAttribute_extend`, `Cursor.tagBody_extend`: the steps inside a start tag.
* `Cursor.construct_extend`: what begins with a `<`.
-/

namespace ProjectSense

namespace Cursor

open Text (isBlank width)

/-- the cursor in the text that goes on with `post` -/
def extend (c : Cursor) (post : List Char) : Cursor := ⟨c.pos, c.rest ++ post⟩

/-- the end of the text -/
def stop (c : Cursor) : Nat := c.pos + width c.rest

variable {c d : Cursor} {post : List Char}

theorem Leads.stop_eq (h : c.Leads d) : d.stop = c.stop := h.total.symm

theorem pos_le_stop (c : Cursor) : c.pos ≤ c.stop := Nat.le_add_right _ _

theorem stop_of_rest (h : c.rest = []) : c.pos = c.stop := by simp [stop, h]

theorem head?_extend {first : Char} (h : c.rest.head? = some first) :
    (c.extend post).rest.head? = some first := by
  obtain ⟨tail, ht⟩ := List.head?_eq_some_iff.1 h
  simp [extend, ht]

theorem eq_nil_of_head? (post : List Char)
    (h : (c.extend post).rest.head? ≠ c.rest.head?) : c.rest = [] := by
  cases hr : c.rest with
  | nil => rfl
  | cons first tail => exact absurd (by simp [extend, hr]) h

theorem drop_extend (post : List Char) {n : Nat} (h : n ≤ c.rest.length) :
    (c.extend post).drop n = (c.drop n).extend post := by
  simp [drop, extend, List.take_append_of_le_length h, List.drop_append_of_le_length h]

theorem drop_one_extend (post : List Char) (h : c.rest ≠ []) :
    (c.extend post).drop 1 = (c.drop 1).extend post :=
  drop_extend post (List.length_pos_iff.2 h)

/-! ### Runs, names and patterns -/

theorem takeWhile_extend (p : Char → Bool) (c : Cursor) (post : List Char) :
    (c.extend post).takeWhile p = ((c.takeWhile p).1, (c.takeWhile p).2.extend post) ∨
      (c.takeWhile p).2.rest = [] ∧ c.stop < ((c.extend post).takeWhile p).2.pos := by
  have hpass := passes_takeWhile p c
  have hall : ∀ d ∈ (c.takeWhile p).1, p d = true := fun d hd =>
    List.all_eq_true.1 List.all_takeWhile d hd
  have hsame : (∀ d ∈ ((c.takeWhile p).2.rest ++ post).head?, p d = false) →
      (c.extend post).takeWhile p = ((c.takeWhile p).1, (c.takeWhile p).2.extend post) := by
    intro hrest
    refine takeWhile_eq ?_ hall hrest
    rw [← List.append_assoc, ← hpass.rest]
    rfl
  cases hr : (c.takeWhile p).2.rest with
  | cons first tail =>
    refine Or.inl (hsame ?_)
    rw [hr]
    exact forall_mem_head?_cons (head_takeWhile (by rw [hr]; rfl))
  | nil =>
    have hread : (c.takeWhile p).1 = c.rest := by
      have := hpass.rest
      rw [hr, List.append_nil] at this
      exact this.symm
    cases post with
    | nil => exact Or.inl (hsame (by simp [hr]))
    | cons first post =>
      cases hf : p first with
      | false => exact Or.inl (hsame (by rw [hr]; exact forall_mem_head?_cons hf))
      | true =>
        refine Or.inr ⟨rfl, ?_⟩
        rw [hread] at hall
        have htake : (c.rest ++ first :: post).takeWhile p =
            c.rest ++ first :: post.takeWhile p := by
          rw [List.takeWhile_append_of_pos hall]
          simp [hf]
        change c.pos + width c.rest < c.pos + width ((c.rest ++ first :: post).takeWhile p)
        rw [htake, Text.width_append, Text.width_cons]
        have := Char.utf8Size_pos first
        omega

theorem skipBlanks_extend (c : Cursor) (post : List Char) :
    (c.extend post).skipBlanks = c.skipBlanks.extend post ∨
      c.skipBlanks.rest = [] ∧ c.stop < (c.extend post).skipBlanks.pos := by
  rcases takeWhile_extend isBlank c post with h | h
  · exact Or.inl (congrArg Prod.snd h)
  · exact Or.inr h

theorem name_extend (c : Cursor) (post : List Char) :
    (c.extend post).name = (c.name.1, c.name.2.extend post) ∨
      c.name.2.rest = [] ∧ c.stop < (c.extend post).name.2.pos := by
  rcases starts_or_not (c.extend post) with ⟨first, rest, hr, hs⟩ | hn
  · have hname := name_of_starts hr hs
    by_cases hc : c.rest = []
    · -- the name stands after the cut
      have hnone : c.name = (("", .empty c.pos), c) := name_of_not_starts (by simp [hc])
      refine Or.inr ⟨by rw [hnone]; exact hc, ?_⟩
      have h1 := drop_one_lt hr
      have h2 := (passes_takeWhile continuesName ((c.extend post).drop 1)).leads.le
      rw [hname, ← stop_of_rest hc]
      exact Nat.lt_of_lt_of_le h1 h2
    · obtain ⟨first', rest', hc'⟩ := List.exists_cons_of_ne_nil hc
      obtain rfl : first' = first := by
        rw [extend, hc'] at hr
        exact (List.cons.inj hr).1
      rw [name_of_starts hc' hs, hname, drop_one_extend post hc]
      have hdrop := (leads_drop 1 c).stop_eq
      rcases takeWhile_extend continuesName (c.drop 1) post with h | ⟨h1, h2⟩
      · exact Or.inl (by rw [h]; rfl)
      · rw [hdrop] at h2
        exact Or.inr ⟨h1, h2⟩
  · have hc : ∀ first ∈ c.rest.head?, startsName first = false := by
      intro first hf
      exact hn first (head?_extend hf)
    rw [name_of_not_starts hn, name_of_not_starts hc]
    exact Or.inl rfl

theorem past_extend (pattern : List Char) (hp : pattern ≠ []) (c : Cursor) (post : List Char) :
    (c.extend post).past pattern = ((c.past pattern).1, (c.past pattern).2.extend post) ∨
      (c.past pattern).2.rest = [] ∧ c.stop ≤ ((c.extend post).past pattern).2.pos := by
  unfold past
  split
  · next before' after' h' =>
    split
    · next before after h =>
      rw [extend, Text.breakOn_append h post] at h'
      obtain ⟨rfl, h2⟩ := Prod.mk.inj h'
      obtain rfl := Option.some.inj h2
      exact Or.inl rfl
    · next before h =>
      refine Or.inr ⟨rfl, ?_⟩
      obtain ⟨back, hb⟩ := Text.breakOn_append_none hp h h'
      have hw := congrArg width hb
      rw [Text.width_append, Text.width_append] at hw
      change c.pos + width c.rest ≤ c.pos + width before' + width pattern
      omega
  · next before' h' =>
    split
    · next before after h =>
      rw [extend, Text.breakOn_append h post] at h'
      cases (Prod.mk.inj h').2
    · next before h =>
      refine Or.inr ⟨rfl, ?_⟩
      rw [Text.breakOn_none h']
      change c.pos + width c.rest ≤ c.pos + width (c.rest ++ post)
      rw [Text.width_append]
      omega

/-! ### Attributes -/

theorem ReadsAttribute.eq {r : Attribute × Cursor} (h : c.ReadsAttribute r) :
    c.readAttribute = r := by
  have h' := readAttribute_cases c
  generalize c.readAttribute = r' at h'
  cases h with
  | bare h => cases h' <;> simp_all
  | unquoted h hq => cases h' <;> simp_all
  | unclosed h hv hq hc => cases h' <;> simp_all
  | closed h hv hq hc => cases h' <;> simp_all

theorem blank_of_skipBlanks (h : c.skipBlanks.rest = []) : ∀ d ∈ c.rest, isBlank d = true := by
  have hrest : c.rest = (c.takeWhile isBlank).1 ++ c.skipBlanks.rest :=
    (passes_takeWhile isBlank c).rest
  rw [h, List.append_nil] at hrest
  rw [hrest]
  exact fun d hd => List.all_eq_true.1 List.all_takeWhile d hd

theorem skipBlanks_lt_valueStart {tail : List Char} (h : c.name.2.skipBlanks.rest = '=' :: tail) :
    c.name.2.skipBlanks.pos < c.valueStart.pos :=
  Nat.lt_of_lt_of_le (drop_one_lt h) (leads_skipBlanks _).le

theorem leads_value {tail : List Char} (h : c.name.2.skipBlanks.rest = '=' :: tail) :
    c.valueStart.Leads c.readAttribute.2 := by
  have hcases := readAttribute_cases c
  generalize c.readAttribute = r at hcases
  cases hcases with
  | bare h' => exact absurd (by rw [h]; rfl) h'
  | unquoted => exact .refl _
  | unclosed => exact (leads_drop 1 _).trans (passes_rawValue _ c).leads
  | closed =>
    exact ((leads_drop 1 _).trans (passes_rawValue _ c).leads).trans (leads_drop 1 _)

theorem leads_value_of_quote {tail inner : List Char} {quote : Char}
    (h : c.name.2.skipBlanks.rest = '=' :: tail) (hv : c.valueStart.rest = quote :: inner)
    (hq : quote = '"' ∨ quote = '\'') : (c.rawValue quote).2.Leads c.readAttribute.2 := by
  by_cases hc : (c.rawValue quote).2.rest.head? = some quote
  · obtain ⟨last, hl⟩ := List.head?_eq_some_iff.1 hc
    rw [(ReadsAttribute.closed h hv hq hl).eq]
    exact leads_drop 1 _
  · rw [(ReadsAttribute.unclosed h hv hq hc).eq]
    exact .refl _

/-- what `readAttribute` does on the whole text, against what it does on its front -/
def SameAttribute (c : Cursor) (post : List Char) : Prop :=
  (c.extend post).readAttribute = (c.readAttribute.1, c.readAttribute.2.extend post) ∨
    (∀ d ∈ c.readAttribute.2.rest, isBlank d = true) ∧
      c.stop < (c.extend post).readAttribute.2.pos

theorem rawValue_extend (quote : Char)
    (hdrop : (c.extend post).valueStart.drop 1 = (c.valueStart.drop 1).extend post) :
    (c.extend post).rawValue quote = ((c.rawValue quote).1, (c.rawValue quote).2.extend post) ∨
      (c.rawValue quote).2.rest = [] ∧ c.stop < ((c.extend post).rawValue quote).2.pos := by
  have hstop := (((leads_name c).trans (leads_valueStart c)).trans (leads_drop 1 _)).stop_eq
  rw [rawValue, hdrop, ← hstop]
  exact takeWhile_extend _ _ post

section SameName

variable (hname : (c.extend post).name = (c.name.1, c.name.2.extend post))
include hname

theorem bareAttribute_extend {d d' : Cursor} (hd : d'.pos = d.pos) :
    (c.extend post).bareAttribute d' = c.bareAttribute d := by
  rw [bareAttribute, bareAttribute, hname, hd]
  rfl

theorem sameAttribute_bare (h : c.name.2.skipBlanks.rest.head? ≠ some '=') :
    c.SameAttribute post := by
  have hread := (ReadsAttribute.bare h).eq
  by_cases hd : (c.extend post).name.2.skipBlanks.rest.head? = some '='
  · -- the sign was cut off, with what stands before it at most blanks
    obtain ⟨tail, ht⟩ := List.head?_eq_some_iff.1 hd
    have hlt := Nat.lt_of_lt_of_le (skipBlanks_lt_valueStart ht) (leads_value ht).le
    have hstop := (leads_name c).stop_eq
    have hstop' := (leads_skipBlanks c.name.2).stop_eq
    have hskip : (c.extend post).name.2.skipBlanks = (c.name.2.extend post).skipBlanks := by
      rw [hname]
    rw [hskip] at hd hlt
    right
    rw [hread]
    rcases skipBlanks_extend c.name.2 post with hs | ⟨hs, hlt'⟩
    · rw [hs] at hd hlt
      have hnil := eq_nil_of_head? post fun heq => h (heq.symm.trans hd)
      refine ⟨blank_of_skipBlanks hnil, ?_⟩
      have := stop_of_rest hnil
      change c.name.2.skipBlanks.pos < _ at hlt
      omega
    · refine ⟨blank_of_skipBlanks hs, ?_⟩
      omega
  · left
    rw [hread, (ReadsAttribute.bare hd).eq, bareAttribute_extend hname (d := c.name.2) (by
      rw [hname]; rfl), hname]

theorem valueStart_extend {tail : List Char} (h : c.name.2.skipBlanks.rest = '=' :: tail) :
    (∃ tail', (c.extend post).name.2.skipBlanks.rest = '=' :: tail') ∧
      ((c.extend post).valueStart = c.valueStart.extend post ∨
        c.valueStart.rest = [] ∧ c.stop < (c.extend post).valueStart.pos) := by
  have hskip : (c.extend post).name.2.skipBlanks = c.name.2.skipBlanks.extend post := by
    rw [hname]
    rcases skipBlanks_extend c.name.2 post with hs | ⟨hs, -⟩
    · exact hs
    · rw [h] at hs; cases hs
  refine ⟨⟨tail ++ post, by rw [hskip, extend, h]; rfl⟩, ?_⟩
  have hdrop := drop_one_extend post (show c.name.2.skipBlanks.rest ≠ [] by simp [h])
  have hstop := (((leads_name c).trans (leads_skipBlanks _)).trans (leads_drop 1 _)).stop_eq
  rw [valueStart, hskip, hdrop, ← hstop]
  exact skipBlanks_extend _ post

theorem sameAttribute_unquoted {tail : List Char} (h : c.name.2.skipBlanks.rest = '=' :: tail)
    (hq : ∀ quote ∈ c.valueStart.rest.head?, ¬(quote = '"' ∨ quote = '\'')) :
    c.SameAttribute post := by
  have hread := (ReadsAttribute.unquoted h hq).eq
  obtain ⟨⟨tail', ht⟩, hv⟩ := valueStart_extend hname h
  have hstop := ((leads_name c).trans (leads_valueStart c)).stop_eq
  by_cases hd : ∀ quote ∈ (c.extend post).valueStart.rest.head?, ¬(quote = '"' ∨ quote = '\'')
  · have hread' := (ReadsAttribute.unquoted ht hd).eq
    rcases hv with hv | ⟨hv, hlt⟩
    · left
      rw [hread, hread', bareAttribute_extend hname (d := c.valueStart) (by rw [hv]; rfl), hv]
    · right
      rw [hread, hread']
      exact ⟨by simp [hv], hlt⟩
  · -- the quote was cut off
    simp only [Classical.not_forall, Classical.not_not] at hd
    obtain ⟨quote, hmem, hquote⟩ := hd
    obtain ⟨inner, hi⟩ := List.head?_eq_some_iff.1 hmem
    have h1 := drop_one_lt hi
    have h2 := (passes_rawValue quote (c.extend post)).leads.le
    have h3 := (leads_value_of_quote ht hi hquote).le
    right
    rw [hread]
    rcases hv with hv | ⟨hv, hlt⟩
    · have hnil : c.valueStart.rest = [] := by
        refine eq_nil_of_head? post ?_
        intro heq
        rw [← hv, hmem] at heq
        exact hq quote heq.symm hquote
      refine ⟨by simp [hnil], ?_⟩
      have hpos : (c.extend post).valueStart.pos = c.valueStart.pos := by rw [hv]; rfl
      have := stop_of_rest hnil
      omega
    · exact ⟨by simp [hv], by omega⟩

/-- the opening quote is before the cut -/
theorem valueStart_extend_cons {tail inner : List Char} {quote : Char}
    (h : c.name.2.skipBlanks.rest = '=' :: tail) (hi : c.valueStart.rest = quote :: inner) :
    (c.extend post).valueStart = c.valueStart.extend post ∧
      (c.extend post).valueStart.drop 1 = (c.valueStart.drop 1).extend post := by
  obtain ⟨-, hv | ⟨hv, -⟩⟩ := valueStart_extend hname h
  · exact ⟨hv, by rw [hv, drop_one_extend post (by simp [hi])]⟩
  · rw [hi] at hv; cases hv

theorem quotedAttribute_extend {quote : Char} {closed : Bool} {d d' : Cursor}
    (hdrop : (c.extend post).valueStart.drop 1 = (c.valueStart.drop 1).extend post)
    (hraw : (c.extend post).rawValue quote =
      ((c.rawValue quote).1, (c.rawValue quote).2.extend post)) (hd : d'.pos = d.pos) :
    (c.extend post).quotedAttribute quote d' closed = c.quotedAttribute quote d closed := by
  rw [quotedAttribute, quotedAttribute, hraw, hdrop, hname, hd]
  rfl

theorem sameAttribute_quoted {tail inner : List Char} {quote : Char}
    (h : c.name.2.skipBlanks.rest = '=' :: tail) (hi : c.valueStart.rest = quote :: inner)
    (hq : quote = '"' ∨ quote = '\'') : c.SameAttribute post := by
  obtain ⟨⟨tail', ht⟩, -⟩ := valueStart_extend hname h
  obtain ⟨hv, hdrop⟩ := valueStart_extend_cons hname h hi
  have hi' : (c.extend post).valueStart.rest = quote :: (inner ++ post) := by
    rw [hv, extend, hi]; rfl
  have hraw := rawValue_extend quote hdrop
  have hend := (leads_value_of_quote ht hi' hq).le
  have hrstop := (leads_rawValue quote c).stop_eq
  have hnstop := (leads_name c).stop_eq
  by_cases hc : (c.rawValue quote).2.rest.head? = some quote
  · obtain ⟨last, hl⟩ := List.head?_eq_some_iff.1 hc
    have hread := (ReadsAttribute.closed h hi hq hl).eq
    rcases hraw with hraw | ⟨hraw, -⟩
    · have hl' : ((c.extend post).rawValue quote).2.rest = quote :: (last ++ post) := by
        rw [hraw]
        simp [extend, hl]
      have hlast : ((c.extend post).rawValue quote).2.drop 1 =
          ((c.rawValue quote).2.drop 1).extend post := by
        rw [hraw]
        exact drop_one_extend post (by simp [hl])
      left
      rw [hread, (ReadsAttribute.closed ht hi' hq hl').eq,
        quotedAttribute_extend hname hdrop hraw (congrArg Cursor.pos hlast), hlast]
      rfl
    · rw [hraw] at hl; cases hl
  · have hread := (ReadsAttribute.unclosed h hi hq hc).eq
    rcases hraw with hraw | ⟨hraw, hlt⟩
    · by_cases hd : ((c.extend post).rawValue quote).2.rest.head? = some quote
      · -- the closing quote was cut off
        obtain ⟨last, hl⟩ := List.head?_eq_some_iff.1 hd
        have hlt := drop_one_lt hl
        have hnil : (c.rawValue quote).2.rest = [] := by
          refine eq_nil_of_head? post ?_
          intro heq
          rw [hraw] at hd
          exact hc (heq.symm.trans hd)
        have hpos : ((c.extend post).rawValue quote).2.pos = (c.rawValue quote).2.pos := by
          rw [hraw]; rfl
        have := stop_of_rest hnil
        right
        rw [hread, (ReadsAttribute.closed ht hi' hq hl).eq]
        refine ⟨by simp [hnil], ?_⟩
        change c.stop < (((c.extend post).rawValue quote).2.drop 1).pos
        omega
      · left
        rw [hread, (ReadsAttribute.unclosed ht hi' hq hd).eq,
          quotedAttribute_extend hname hdrop hraw (congrArg (·.2.pos) hraw), hraw]
        rfl
    · right
      rw [hread]
      exact ⟨by simp [hraw], by omega⟩

end SameName

/-- an attribute is read as on the whole text, or up to blanks at the cut -/
theorem readAttribute_extend (c : Cursor) (post : List Char) : c.SameAttribute post := by
  have hcases := readAttribute_cases c
  rcases name_extend c post with hname | ⟨hnil, hlt⟩
  · generalize c.readAttribute = r at hcases
    cases hcases with
    | bare h => exact sameAttribute_bare hname h
    | unquoted h hq => exact sameAttribute_unquoted hname h hq
    | unclosed h hv hq hc => exact sameAttribute_quoted hname h hv hq
    | closed h hv hq hc => exact sameAttribute_quoted hname h hv hq
  · have hbare : c.name.2.skipBlanks.rest.head? ≠ some '=' := by
      simp [skipBlanks, takeWhile, hnil]
    right
    rw [(ReadsAttribute.bare hbare).eq]
    refine ⟨by simp [hnil], ?_⟩
    have := (readAttribute_cases (c.extend post)).leads.le
    omega

/-! ### Start tags -/

theorem tagBody_blank (h : ∀ d ∈ c.rest, isBlank d = true) :
    c.tagBody = ([.extend c.stop], ⟨c.stop, []⟩) := by
  refine tagBody_end ?_
  rw [skipBlanks, takeWhile_all h]
  rfl

theorem lt_tagBody {pos : Nat} {first : Char} {rest : List Char}
    (h : c.skipBlanks = ⟨pos, first :: rest⟩) (hne : first ≠ '<') : pos < c.tagBody.2.pos := by
  by_cases h2 : first = '/' ∧ rest.head? = some '>'
  · obtain ⟨rfl, h2⟩ := h2
    obtain ⟨tail, rfl⟩ := List.head?_eq_some_iff.1 h2
    rw [tagBody_selfClosed h]
    exact Nat.lt_add_of_pos_right (by decide)
  by_cases h3 : first = '>'
  · subst h3
    rw [tagBody_closed h]
    exact Nat.lt_add_of_pos_right (by decide)
  cases hs : startsName first with
  | true =>
    have hr : c.skipBlanks.rest = first :: rest := by rw [h]
    rw [tagBody_attribute hr hs]
    have h4 := drop_one_lt hr
    have h5 := (passes_takeWhile continuesName (c.skipBlanks.drop 1)).leads.le
    have h6 := (readAttribute_cases c.skipBlanks).leads.le
    have h7 := ((leads_skipBlanks _).trans (leads_tagBody c.skipBlanks.readAttribute.2)).le
    rw [name_of_starts hr hs] at h6
    rw [h] at h4 h5 h6 h7 ⊢
    exact Nat.lt_of_lt_of_le h4 (Nat.le_trans h5 (Nat.le_trans h6 h7))
  | false =>
    rw [tagBody_other h hne h2 h3 hs]
    have h4 := ((leads_skipBlanks _).trans
      (leads_tagBody (⟨pos + first.utf8Size, rest⟩ : Cursor))).le
    have h5 := Char.utf8Size_pos first
    change pos + first.utf8Size ≤ _ at h4
    omega

theorem skipBlanks_extend_cons {pos : Nat} {first : Char} {rest : List Char} (post : List Char)
    (h : c.skipBlanks = ⟨pos, first :: rest⟩) :
    (c.extend post).skipBlanks = ⟨pos, first :: (rest ++ post)⟩ := by
  rcases skipBlanks_extend c post with hs | ⟨hs, -⟩
  · rw [hs, h]; rfl
  · rw [h] at hs; cases hs

theorem stop_of_skipBlanks {s : Cursor} (h : c.skipBlanks = s) : s.stop = c.stop := by
  rw [← h]
  exact (leads_skipBlanks c).stop_eq

/-- what follows the name in a start tag is read as on the whole text; or it is attributes only up
to the cut, without an end -/
def SameTagBody (c : Cursor) (post : List Char) : Prop :=
  (c.extend post).tagBody = (c.tagBody.1, c.tagBody.2.extend post) ∨
    (∃ attributes : List Attribute,
      c.tagBody = (attributes.map .attr ++ [.extend c.stop], ⟨c.stop, []⟩)) ∧
      c.stop < (c.extend post).tagBody.2.pos

/-- the front ends in blanks -/
theorem sameTagBody_end {pos : Nat} (h : c.skipBlanks = ⟨pos, []⟩) (post : List Char) :
    c.SameTagBody post := by
  have hpos : pos = c.stop := stop_of_skipBlanks h
  have hbody : c.tagBody = ([.extend c.stop], ⟨c.stop, []⟩) := by
    rw [tagBody_end h, hpos]
  rcases skipBlanks_extend c post with hs | ⟨-, hlt⟩
  · rw [h] at hs
    cases post with
    | nil =>
      left
      rw [tagBody_end hs, tagBody_end h]
      rfl
    | cons first post =>
      by_cases hf : first = '<'
      · subst hf
        left
        rw [tagBody_next hs, tagBody_end h]
        rfl
      · exact Or.inr ⟨⟨[], hbody⟩, hpos ▸ lt_tagBody hs hf⟩
  · exact Or.inr ⟨⟨[], hbody⟩, Nat.lt_of_lt_of_le hlt (leads_tagBody _).le⟩

/-- an attribute, and what follows it -/
theorem sameTagBody_attribute {pos : Nat} {first : Char} {rest : List Char} {a : Attribute}
    {after : Cursor} {post : List Char} (h : c.skipBlanks = ⟨pos, first :: rest⟩)
    (hs : startsName first = true)
    (ha : (⟨pos, first :: rest⟩ : Cursor).readAttribute = (a, after))
    (ih : after.SameTagBody post) : c.SameTagBody post := by
  have hsk : (c.extend post).skipBlanks = (⟨pos, first :: rest⟩ : Cursor).extend post :=
    skipBlanks_extend_cons post h
  have hbody := tagBody_attribute (by rw [h]) hs
  have hext : (c.extend post).tagBody = (.attr (c.extend post).skipBlanks.readAttribute.1 ::
      (c.extend post).skipBlanks.readAttribute.2.tagBody.1,
      (c.extend post).skipBlanks.readAttribute.2.tagBody.2) :=
    tagBody_attribute (by rw [hsk]; rfl) hs
  have hstop := stop_of_skipBlanks h
  have hastop := (leads_readAttribute ⟨pos, first :: rest⟩).stop_eq
  have hread := readAttribute_extend ⟨pos, first :: rest⟩ post
  rw [SameAttribute, ha, hstop] at hread
  rw [ha, hstop] at hastop
  rw [h, ha] at hbody
  rw [SameTagBody, hext, hsk, hbody]
  rcases hread with hread | ⟨hblank, hbeyond⟩
  · rw [hread]
    rcases ih with hmore | ⟨⟨attributes, he⟩, hbeyond⟩
    · left
      rw [hmore]
    · refine Or.inr ⟨⟨a :: attributes, ?_⟩, ?_⟩
      · rw [he, hastop]; rfl
      · rw [← hastop]; exact hbeyond
  · -- the rest of the front is blank, and so is the end of the tag
    refine Or.inr ⟨⟨[a], ?_⟩, ?_⟩
    · rw [tagBody_blank hblank, hastop]; rfl
    · exact Nat.lt_of_lt_of_le hbeyond ((leads_skipBlanks _).trans (leads_tagBody _)).le

/-- a character that begins nothing, and what follows it -/
theorem sameTagBody_other {pos : Nat} {first : Char} {rest post : List Char}
    (h : c.skipBlanks = ⟨pos, first :: rest⟩) (h1 : first ≠ '<')
    (h2 : ¬(first = '/' ∧ rest.head? = some '>')) (h3 : first ≠ '>')
    (hs : startsName first = false)
    (ih : (⟨pos + first.utf8Size, rest⟩ : Cursor).SameTagBody post) : c.SameTagBody post := by
  have hsk := skipBlanks_extend_cons post h
  have hbody := tagBody_other h h1 h2 h3 hs
  have hstop : (⟨pos + first.utf8Size, rest⟩ : Cursor).stop = c.stop := by
    have := stop_of_skipBlanks h
    change pos + (first.utf8Size + width rest) = c.stop at this
    change pos + first.utf8Size + width rest = c.stop
    omega
  by_cases h4 : first = '/' ∧ (rest ++ post).head? = some '>'
  · -- the end of the tag was cut off after the slash
    obtain ⟨rfl, h4⟩ := h4
    obtain ⟨tail, ht⟩ := List.head?_eq_some_iff.1 h4
    have hnil : rest = [] := by
      cases rest with
      | nil => rfl
      | cons d rest =>
        obtain ⟨rfl, -⟩ := List.cons.inj ht
        exact absurd ⟨rfl, rfl⟩ h2
    rw [ht] at hsk
    subst hnil
    have hblank := tagBody_blank (c := ⟨pos + '/'.utf8Size, []⟩) (by simp)
    rw [hstop] at hblank
    refine Or.inr ⟨⟨[], hbody.trans hblank⟩, ?_⟩
    rw [tagBody_selfClosed hsk, ← hstop]
    exact Nat.lt_succ_self _
  · rw [SameTagBody, tagBody_other hsk h1 h4 h3 hs, hbody, ← hstop]
    exact ih

/-- a start tag is read as on the whole text, or without an end up to the cut -/
theorem tagBody_extend (c : Cursor) (post : List Char) : c.SameTagBody post := by
  fun_induction tagBody c with
  | case1 c pos h => exact sameTagBody_end h post
  | case2 c pos rest h =>
    left
    rw [tagBody_next (skipBlanks_extend_cons post h), tagBody_next h]
    rfl
  | case3 c pos first rest h hlt h1 h2 =>
    obtain ⟨rfl, h2⟩ := h2
    obtain ⟨tail, rfl⟩ := List.head?_eq_some_iff.1 h2
    left
    rw [tagBody_selfClosed (skipBlanks_extend_cons post h), tagBody_selfClosed h]
    rfl
  | case4 c pos rest h =>
    left
    rw [tagBody_closed (skipBlanks_extend_cons post h), tagBody_closed h]
    rfl
  | case5 c pos first rest h hlt h1 h2 h3 hs a after ha this more ih =>
    exact sameTagBody_attribute h hs ha ih
  | case6 c pos first rest h hlt h1 h2 h3 hs ih =>
    exact sameTagBody_other h h1 h2 h3 (by simpa using hs) ih

theorem startTag_extend {tail : List Char} (h : c.rest = '<' :: tail) (post : List Char) :
    (c.extend post).startTag = (c.startTag.1, c.startTag.2.extend post) ∨
      (∃ attributes : List Attribute, c.startTag.1 = .start (c.drop 1).name.1.1
          (c.drop 1).name.1.2 c.pos :: (attributes.map .attr ++ [.extend c.stop]) ∧
        c.startTag.2 = ⟨c.stop, []⟩) ∧
        c.stop < (c.extend post).startTag.2.pos := by
  have hdrop := drop_one_extend post (show c.rest ≠ [] by simp [h])
  have hdstop := (leads_drop 1 c).stop_eq
  have hnstop := ((leads_drop 1 c).trans (leads_name _)).stop_eq
  rcases name_extend (c.drop 1) post with hname | ⟨hnil, hlt⟩
  · rcases tagBody_extend (c.drop 1).name.2 post with hbody | ⟨⟨attributes, he⟩, hbeyond⟩
    · left
      simp only [startTag]
      rw [hdrop, hname, hbody]
      rfl
    · right
      simp only [startTag]
      rw [hdrop, hname, he, ← hnstop]
      exact ⟨⟨attributes, rfl, rfl⟩, hbeyond⟩
  · right
    simp only [startTag]
    rw [hdrop, tagBody_blank (c := (c.drop 1).name.2) (by simp [hnil]), hnstop]
    refine ⟨⟨[], rfl, rfl⟩, ?_⟩
    have := ((leads_skipBlanks _).trans (leads_tagBody ((c.drop 1).extend post).name.2)).le
    rw [hdstop] at hlt
    exact Nat.lt_of_lt_of_le hlt this

/-! ### Constructs -/

theorem sees_extend {pattern : String} (h : c.sees pattern = true) :
    (c.extend post).sees pattern = true :=
  sees_iff.2 ((sees_iff.1 h).trans (List.prefix_append c.rest post))

/-- a pattern on the whole text stands on the front, or the front ends in it -/
theorem sees_or_prefix {pattern : String} (h : (c.extend post).sees pattern = true) :
    c.sees pattern = true ∨ c.rest <+: pattern.toList := by
  rw [sees_iff] at h ⊢
  exact List.prefix_or_prefix_of_prefix h (List.prefix_append c.rest post)

theorem sees_of_length {pattern : String} (h : (c.extend post).sees pattern = true)
    (hl : pattern.toList.length ≤ c.rest.length) : c.sees pattern = true := by
  rw [sees_iff] at h ⊢
  exact List.prefix_of_prefix_length_le h (List.prefix_append c.rest post) hl

theorem not_sees {pattern : String} (other : String) (h : c.sees pattern = true)
    (hne : ¬(pattern.toList <+: other.toList ∨ other.toList <+: pattern.toList)) :
    c.sees other = false := by
  refine Bool.eq_false_iff.2 fun ho => hne ?_
  exact List.prefix_or_prefix_of_prefix (sees_iff.1 h) (sees_iff.1 ho)

theorem past_rest_of_not_mem {pattern : List Char} {d : Char} (hd : d ∈ pattern)
    (h : d ∉ c.rest) : (c.past pattern).2.rest = [] := by
  unfold past
  split
  · next before after hb =>
    refine absurd ?_ h
    rw [Text.breakOn_eq hb]
    simp [hd]
  · rfl

theorem le_past_extend {pattern : List Char} (hp : pattern ≠ []) (h : (c.past pattern).2.rest = [])
    (post : List Char) : c.stop ≤ ((c.extend post).past pattern).2.pos := by
  rcases past_extend pattern hp c post with he | ⟨-, hle⟩
  · rw [he, ← (leads_past pattern c).stop_eq, ← stop_of_rest h]
    exact Nat.le_refl _
  · exact hle

theorem closingTag_extend (h : 2 ≤ c.rest.length) (post : List Char) :
    (c.extend post).closingTag = (c.closingTag.1, c.closingTag.2.extend post) ∨
      c.stop < (c.extend post).closingTag.2.pos := by
  have hdrop := drop_extend post h
  have hdstop := (leads_drop 2 c).stop_eq
  have hnstop := ((leads_drop 2 c).trans (leads_name _)).stop_eq
  have hsstop := (((leads_drop 2 c).trans (leads_name _)).trans (leads_skipBlanks _)).stop_eq
  -- what is read after a cursor beyond the cut is beyond it too
  have hlater : ((c.extend post).drop 2).name.2.skipBlanks.pos ≤
      (c.extend post).closingTag.2.pos := by
    simp only [closingTag]
    split
    · exact (leads_drop 1 _).le
    · exact Nat.le_refl _
  rcases name_extend (c.drop 2) post with hname | ⟨-, hlt⟩
  · rw [← hdrop] at hname
    rcases skipBlanks_extend (c.drop 2).name.2 post with hs | ⟨-, hlt⟩
    · have hskip : ((c.extend post).drop 2).name.2.skipBlanks =
          (c.drop 2).name.2.skipBlanks.extend post := by rw [hname, hs]
      by_cases hc : (c.drop 2).name.2.skipBlanks.rest.head? = some '>'
      · left
        have hne : (c.drop 2).name.2.skipBlanks.rest ≠ [] := by
          intro hnil
          rw [hnil] at hc
          cases hc
        simp only [closingTag, hname, hs, hc, head?_extend hc, if_true, drop_one_extend post hne]
        rfl
      · by_cases hd : ((c.drop 2).name.2.skipBlanks.extend post).rest.head? = some '>'
        · right
          have hnil := eq_nil_of_head? post fun heq => hc (heq.symm.trans hd)
          have hlast : (c.extend post).closingTag.2 =
              ((c.drop 2).name.2.skipBlanks.extend post).drop 1 := by
            simp only [closingTag, hskip, hd, if_true]
          obtain ⟨tail, ht⟩ := List.head?_eq_some_iff.1 hd
          rw [hlast, ← hsstop, ← stop_of_rest hnil]
          exact drop_one_lt ht
        · left
          simp only [closingTag, hname, hs, hc, hd, if_false]
          rfl
    · right
      rw [hname] at hlater
      exact Nat.lt_of_lt_of_le (hnstop ▸ hlt) hlater
  · right
    rw [hdstop, ← hdrop] at hlt
    exact Nat.lt_of_lt_of_le hlt (Nat.le_trans (leads_skipBlanks _).le hlater)

theorem literal_extend (h : 9 ≤ c.rest.length) (post : List Char) :
    (c.extend post).literal = (c.literal.1, c.literal.2.extend post) ∨
      c.literal.2.rest = [] ∧ c.stop ≤ (c.extend post).literal.2.pos := by
  have hdrop := drop_extend post h
  have hstop := (leads_drop 9 c).stop_eq
  simp only [literal]
  rw [hdrop, ← hstop]
  rcases past_extend "]]>".toList (by decide) (c.drop 9) post with hp | hp
  · rw [hp]
    exact Or.inl rfl
  · exact Or.inr hp

end Cursor

/-- texts and nothing else -/
def Event.Quiet (es : List Event) : Prop := ∀ e ∈ es, ∃ raw span, e = .text raw span

theorem Event.quiet_nil : Event.Quiet [] := fun _ he => by cases he

namespace Cursor

open Text (width)

variable {c : Cursor} {post tail : List Char}

/-- a construct on the front of a text does what it does on the whole text; or it is cut off, and
neither a closing tag nor a start tag; or it is a start tag that is cut off -/
inductive CutConstruct (c : Cursor) (post : List Char) : Prop
  | same (h : (c.extend post).construct = (c.construct.1, c.construct.2.extend post))
  | quiet (h : c.construct.2.rest = []) (hq : Event.Quiet c.construct.1)
    (hq' : Event.Quiet (c.extend post).construct.1)
    (hle : c.stop ≤ (c.extend post).construct.2.pos)
  | tag (h : c.construct = c.startTag) (h' : (c.extend post).construct = (c.extend post).startTag)
    (attributes : List Attribute)
    (he : c.startTag.1 = .start (c.drop 1).name.1.1 (c.drop 1).name.1.2 c.pos ::
      (attributes.map .attr ++ [.extend c.stop]))
    (hs : c.startTag.2 = ⟨c.stop, []⟩) (hlt : c.stop < (c.extend post).startTag.2.pos)

theorem cutConstruct_past (pattern : List Char) (hp : pattern ≠ [])
    (h : c.construct = ([], (c.past pattern).2))
    (h' : (c.extend post).construct = ([], ((c.extend post).past pattern).2)) :
    c.CutConstruct post := by
  rcases past_extend pattern hp c post with he | ⟨hnil, hle⟩
  · exact .same (by rw [h, h', he])
  · exact .quiet (by rw [h]; exact hnil) (by rw [h]; exact Event.quiet_nil)
      (by rw [h']; exact Event.quiet_nil) (by rw [h']; exact hle)

/-- where the front ends inside `<!--` or `<![CDATA[` it looks like a declaration -/
theorem construct_front {pattern : String} (hl : 2 ≤ c.rest.length)
    (hp : c.rest <+: pattern.toList) (hmark : "<!".toList <+: pattern.toList)
    (hgt : '>' ∉ pattern.toList) (h1 : c.sees "<!--" = false) (h2 : c.sees "<![CDATA[" = false) :
    c.construct.1 = [] ∧ c.construct.2.rest = [] := by
  have hsees : c.sees "<!" = true :=
    sees_iff.2 (List.prefix_of_prefix_length_le hmark hp hl)
  have hcon : c.construct = ([], (c.past ">".toList).2) := by
    simp [construct, h1, h2, hsees]
  rw [hcon]
  exact ⟨rfl, past_rest_of_not_mem (d := '>') (by simp) fun hm => hgt (hp.subset hm)⟩

theorem not_sees_front {pattern : String} (h : (c.extend post).sees pattern = false) :
    c.sees pattern = false := by
  refine Bool.eq_false_iff.2 ?_
  intro hs
  rw [sees_extend hs] at h
  cases h

theorem prefix_of_not_sees {pattern : String} (h : (c.extend post).sees pattern = true)
    (h' : c.sees pattern = false) : c.rest <+: pattern.toList := by
  rcases sees_or_prefix h with hs | hs
  · rw [h'] at hs; cases hs
  · exact hs

theorem cutConstruct_comment (hl : 2 ≤ c.rest.length)
    (h1 : (c.extend post).sees "<!--" = true) : c.CutConstruct post := by
  have hcon' : (c.extend post).construct = ([], ((c.extend post).past "-->".toList).2) := by
    rw [construct, if_pos h1]
  cases h1' : c.sees "<!--" with
  | true => exact cutConstruct_past "-->".toList (by decide) (by rw [construct, if_pos h1']) hcon'
  | false =>
    have hpre := prefix_of_not_sees h1 h1'
    have h2' := not_sees_front (not_sees "<![CDATA[" h1 (by decide))
    obtain ⟨he, hr⟩ := construct_front hl hpre (by decide) (by decide) h1' h2'
    refine .quiet hr (by rw [he]; exact Event.quiet_nil) (by rw [hcon']; exact Event.quiet_nil) ?_
    rw [hcon']
    refine le_past_extend (by decide) (past_rest_of_not_mem (d := '>') (by decide) ?_) post
    intro hm
    exact absurd (hpre.subset hm) (by decide)

theorem quiet_literal (c : Cursor) : Event.Quiet c.literal.1 := by
  intro e he
  obtain rfl := List.mem_singleton.1 he
  exact ⟨_, _, rfl⟩

theorem cutConstruct_literal (hl : 2 ≤ c.rest.length)
    (h1 : (c.extend post).sees "<!--" = false) (h2 : (c.extend post).sees "<![CDATA[" = true) :
    c.CutConstruct post := by
  have h1' := not_sees_front h1
  have hcon' : (c.extend post).construct = (c.extend post).literal := by simp [construct, h1, h2]
  cases h2' : c.sees "<![CDATA[" with
  | true =>
    have hcon : c.construct = c.literal := by simp [construct, h1', h2']
    rcases literal_extend (c := c) (List.IsPrefix.length_le (sees_iff.1 h2')) post with
      he | ⟨hr, hle⟩
    · exact .same (by rw [hcon, hcon', he])
    · exact .quiet (by rw [hcon]; exact hr) (by rw [hcon]; exact quiet_literal c)
        (by rw [hcon']; exact quiet_literal _) (by rw [hcon']; exact hle)
  | false =>
    have hpre := prefix_of_not_sees h2 h2'
    obtain ⟨he, hr⟩ := construct_front hl hpre (by decide) (by decide) h1' h2'
    refine .quiet hr (by rw [he]; exact Event.quiet_nil) (by rw [hcon']; exact quiet_literal _) ?_
    -- the whole opening of the literal is passed, and the front ends in it
    obtain ⟨back, hb⟩ := hpre
    have htake : (c.extend post).rest.take 9 = "<![CDATA[".toList := by
      obtain ⟨more, hm⟩ := sees_iff.1 h2
      rw [← hm]
      exact @List.take_left _ "<![CDATA[".toList more
    have hpos : ((c.extend post).drop 9).pos = c.pos + width (c.rest ++ back) := by
      rw [drop, htake, hb]
      rfl
    have hle := (leads_past "]]>".toList ((c.extend post).drop 9)).le
    rw [hcon']
    change c.pos + width c.rest ≤ (((c.extend post).drop 9).past "]]>".toList).2.pos
    rw [Text.width_append] at hpos
    omega

theorem cutConstruct_declaration (hl : 2 ≤ c.rest.length)
    (h1 : (c.extend post).sees "<!--" = false) (h2 : (c.extend post).sees "<![CDATA[" = false)
    (h3 : (c.extend post).sees "<?" = true ∨ (c.extend post).sees "<!" = true) :
    c.CutConstruct post := by
  have h1' := not_sees_front h1
  have h2' := not_sees_front h2
  have h3' : c.sees "<?" = true ∨ c.sees "<!" = true := by
    rcases h3 with h3 | h3
    · exact Or.inl (sees_of_length h3 hl)
    · exact Or.inr (sees_of_length h3 hl)
  refine cutConstruct_past ">".toList (by decide) ?_ ?_
  · simp [construct, h1', h2', h3']
  · simp [construct, h1, h2, h3]

/-- where the cut is not in a closing tag, nor right after a `<` that begins no start tag, what
begins with the `<` is read the same way up to the cut -/
theorem construct_extend (h : c.rest = '<' :: tail)
    (hclose : (c.extend post).sees "</" = true → (c.extend post).construct.2.pos ≤ c.stop)
    (hmark : (c.extend post).sees "</" = true ∨ (c.extend post).sees "<!" = true ∨
      (c.extend post).sees "<?" = true → c.stop ≠ c.pos + 1) : c.CutConstruct post := by
  have hlen : (c.extend post).sees "</" = true ∨ (c.extend post).sees "<!" = true ∨
      (c.extend post).sees "<?" = true → 2 ≤ c.rest.length := by
    intro hs
    have hne := hmark hs
    cases tail with
    | nil => exact absurd (by rw [stop, h]; rfl) hne
    | cons d tail => rw [h]; simp
  have hbang : ∀ {pattern : String}, "<!".toList <+: pattern.toList →
      (c.extend post).sees pattern = true → 2 ≤ c.rest.length := fun hp hs =>
    hlen (Or.inr (Or.inl (sees_iff.2 (hp.trans (sees_iff.1 hs)))))
  by_cases h1 : (c.extend post).sees "<!--" = true
  · exact cutConstruct_comment (hbang (by decide) h1) h1
  have h1 := Bool.eq_false_iff.2 h1
  by_cases h2 : (c.extend post).sees "<![CDATA[" = true
  · exact cutConstruct_literal (hbang (by decide) h2) h1 h2
  have h2 := Bool.eq_false_iff.2 h2
  by_cases h3 : (c.extend post).sees "<?" = true ∨ (c.extend post).sees "<!" = true
  · have hl := hlen (by
      rcases h3 with h3 | h3
      · exact Or.inr (Or.inr h3)
      · exact Or.inr (Or.inl h3))
    exact cutConstruct_declaration hl h1 h2 h3
  have h1' := not_sees_front h1
  have h2' := not_sees_front h2
  have h3' : ¬(c.sees "<?" = true ∨ c.sees "<!" = true) := by
    rintro (hs | hs)
    · exact h3 (Or.inl (sees_extend hs))
    · exact h3 (Or.inr (sees_extend hs))
  cases h4 : (c.extend post).sees "</" with
  | true =>
    have hl := hlen (Or.inl h4)
    have h4' := sees_of_length h4 hl
    have hcon : c.construct = c.closingTag := by simp [construct, h1', h2', h3', h4']
    have hcon' : (c.extend post).construct = (c.extend post).closingTag := by
      simp [construct, h1, h2, h3, h4]
    rcases closingTag_extend hl post with he | hlt
    · exact .same (by rw [hcon, hcon', he])
    · have := hclose h4
      rw [hcon'] at this
      omega
  | false =>
    have h4' := not_sees_front h4
    have hcon : c.construct = c.startTag := by simp [construct, h1', h2', h3', h4']
    have hcon' : (c.extend post).construct = (c.extend post).startTag := by
      simp [construct, h1, h2, h3, h4]
    rcases startTag_extend h post with he | ⟨⟨attributes, he, hs⟩, hlt⟩
    · exact .same (by rw [hcon, hcon', he])
    · exact .tag hcon hcon' attributes he hs hlt

end Cursor
end ProjectSense
