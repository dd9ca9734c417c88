import ProjectSense.Proofs.Markup.Around

/-!
# Inside a start tag

Names and values in a start tag stand after its `<` and, once the tag has an end, before it.  All
that comes later in the document comes after the tag, so that nothing else begins inside.

* `Builder.TagsApart.put`: every part keeps the start tags in order and apart.
* `Tree.innermostAt_startTag`: inside a start tag its own element is the innermost.
-/

namespace ProjectSense

/-- name and attributes in order after the `<`, and before the end of the start tag if it has one -/
structure Element.Parted (e : Element) : Prop where
  start_lt : e.startTag.start < e.nameSpan.start
  name_lt : ∀ a ∈ e.attributes.toList, e.nameSpan.stop < a.span.start
  ended : e.startTagClosed = true → e.nameSpan.stop < e.startTag.stop ∧
    ∀ a ∈ e.attributes.toList, a.span.stop < e.startTag.stop
  selfClosing : e.selfClosing = true → e.startTagClosed = true
  closingTag : ∀ tag, e.closingTag = some tag → tag.start < tag.stop

theorem Tag.Sound.parted {text : List Char} {t : Tag} (h : t.Sound text) : t.element.Parted := by
  refine ⟨h.start_lt, h.name_lt, ?_, ?_, ?_⟩
  · intro hc
    exact h.ended (of_decide_eq_true hc)
  · intro hc
    have hend : t.ending = .selfClosed := of_decide_eq_true hc
    simp [Tag.element, hend]
  · intro tag htag; cases htag

namespace Builder

variable {text : List Char} {b : Builder} {nodes nodes' : Array Node} {n n' : Node} {p : Nat}

/-! ### Start tags that stay -/

/-- the node begins where it did, and if it is an element it was one with the same start tag -/
structure SameTag (n n' : Node) : Prop where
  start_eq : n'.span.start = n.span.start
  element : ∀ e', n'.content = .element e' →
    ∃ e, n.content = .element e ∧ e'.startTag = e.startTag ∧ (e.Parted → e'.Parted)

theorem SameTag.refl (n : Node) : SameTag n n := ⟨rfl, fun e he => ⟨e, he, rfl, id⟩⟩

theorem Adopts.sameTag (h : Adopts n n') : SameTag n n' := by
  cases h with
  | same => exact .refl n
  | child c =>
    refine ⟨congrArg Span.start (span_adoptNode c n), fun e' he' => ?_⟩
    obtain ⟨parent, span, content⟩ := n
    cases content with
    | text raw => cases he'
    | element e =>
      obtain rfl := Content.element.inj he'
      exact ⟨e, rfl, rfl, fun h => ⟨h.start_lt, h.name_lt, h.ended, h.selfClosing, h.closingTag⟩⟩

theorem sameTag_reach {pos : Nat} (hle : n.span.start ≤ pos) : SameTag n (reach pos n) :=
  ⟨Nat.min_eq_left hle, fun e he => ⟨e, he, rfl, id⟩⟩

theorem sameTag_closeNode {tag : Span} (hle : n.span.start ≤ tag.start)
    (hlt : tag.start < tag.stop) : SameTag n (closeNode tag n) := by
  refine ⟨Nat.min_eq_left hle, fun e' he' => ?_⟩
  obtain ⟨parent, span, content⟩ := n
  cases content with
  | text raw => cases he'
  | element e =>
    obtain rfl := Content.element.inj he'
    refine ⟨e, rfl, rfl, fun h => ⟨h.start_lt, h.name_lt, h.ended, h.selfClosing, ?_⟩⟩
    intro tag' htag
    obtain rfl := Option.some.inj htag
    exact hlt

theorem Closes.sameTag {b' : Builder} {tag : Span} {i : Nat} (h : Closes b b' tag i n n')
    (hle : n.span.start ≤ tag.start) (hlt : tag.start < tag.stop) : SameTag n n' := by
  cases h with
  | closed => exact sameTag_closeNode hle hlt
  | ended => exact sameTag_reach hle
  | kept => exact .refl n

/-! ### Start tags apart -/

/-- every start tag is in order, and later nodes begin after it -/
structure TagsApart (nodes : Array Node) : Prop where
  parted : ∀ {i : Nat} {n : Node} {e : Element}, nodes[i]? = some n → n.content = .element e →
    e.Parted
  later : ∀ {i j : Nat} {m n : Node} {e : Element}, i < j → nodes[i]? = some m →
    m.content = .element e → nodes[j]? = some n → e.startTag.stop ≤ n.span.start

theorem TagsApart.congr (h : TagsApart nodes)
    (hs : ∀ {i : Nat} {n' : Node}, nodes'[i]? = some n' → ∃ n, nodes[i]? = some n ∧ SameTag n n') :
    TagsApart nodes' := by
  constructor
  · intro i n' e' hn' he'
    obtain ⟨n, hn, hsame⟩ := hs hn'
    obtain ⟨e, he, -, hparted⟩ := hsame.element e' he'
    exact hparted (h.parted hn he)
  · intro i j m' n' e' hij hm' he' hn'
    obtain ⟨m, hm, hms⟩ := hs hm'
    obtain ⟨n, hn, hns⟩ := hs hn'
    obtain ⟨e, he, htag, -⟩ := hms.element e' he'
    rw [htag, hns.start_eq]
    exact h.later hij hm he hn

theorem Spaced.startTag_le (h : b.Spaced text p) {i : Nat} {e : Element}
    (hn : b.nodes[i]? = some n) (he : n.content = .element e) : e.startTag.stop ≤ p :=
  Nat.le_trans (((h.node hn).1.element e he).startTag_inside.2) (h.node hn).2

theorem TagsApart.add {span : Span} {content : Content} {opens : Bool} (h : TagsApart b.nodes)
    (hsp : b.Spaced text p) (hp : p ≤ span.start) (he : ∀ e, content = .element e → e.Parted) :
    TagsApart (b.add span content opens).nodes := by
  constructor
  · intro i n' e' hn' he'
    rcases add_cases hn' with ⟨-, rfl⟩ | ⟨-, n, hn, ha⟩
    · exact he e' he'
    · obtain ⟨e, hne, -, hparted⟩ := ha.sameTag.element e' he'
      exact hparted (h.parted hn hne)
  · intro i j m' n' e' hij hm' he' hn'
    rcases add_cases hm' with ⟨rfl, -⟩ | ⟨-, m, hm, ha⟩
    · rcases add_cases hn' with ⟨rfl, -⟩ | ⟨hj, -⟩ <;> omega
    · obtain ⟨e, hme, htag, -⟩ := ha.sameTag.element e' he'
      rw [htag]
      rcases add_cases hn' with ⟨-, rfl⟩ | ⟨-, n, hn, ha'⟩
      · exact Nat.le_trans (hsp.startTag_le hm hme) hp
      · rw [ha'.sameTag.start_eq]
        exact h.later hij hm hme hn

theorem TagsApart.put {part : Part} (h : TagsApart b.nodes) (hsp : b.Spaced text p)
    (hs : part.Sound text) (hp : p ≤ part.span.start) : TagsApart (b.put part).nodes := by
  cases part with
  | text raw s => exact h.add hsp hp fun e he => by cases he
  | tag t =>
    refine h.add hsp hp fun e he => ?_
    obtain rfl := Content.element.inj he
    exact Tag.Sound.parted hs
  | close name s =>
    refine h.congr fun hn' => ?_
    obtain ⟨n, hn, hcase⟩ := close_node_cases hsp.linked hn'
    exact ⟨n, hn, hcase.sameTag (Nat.le_trans (hsp.start_le hn) hp) hs.2⟩

theorem tagsApart_empty : TagsApart empty.nodes := by
  constructor
  · intro i n e hn; cases hn
  · intro i j m n e _ hm; cases hm

theorem TagsApart.finish (h : TagsApart b.nodes) (hsp : b.Spaced text p) :
    TagsApart (b.finish p).nodes := by
  refine h.congr fun {i n'} hn' => ?_
  rw [show (b.finish p).nodes[i]? = _ from getElem?_abandon p b.opened b.nodes i] at hn'
  split at hn'
  · obtain ⟨n, hn, rfl⟩ := Option.map_eq_some_iff.1 hn'
    exact ⟨n, hn, sameTag_reach (hsp.start_le hn)⟩
  · exact ⟨n', hn', .refl n'⟩

theorem Spaced.sound_finish (h : b.Spaced text p) (hb : Text.Boundary 0 text p) {i : Nat}
    (hn : (b.finish p).nodes[i]? = some n) : n.Sound text :=
  ((h.leave (List.append_nil _).symm (Nat.le_refl p) hb).node hn).1

/-- what was read of a text stands in its places, with the start tags apart -/
theorem tagsApart_ofText (text : List Char) :
    let b := (Event.ofText text).foldl apply empty
    b.Spaced text (Text.width text) ∧ TagsApart b.nodes :=
  Cursor.events_keep (fun p b => b.Spaced text p ∧ TagsApart b.nodes)
    (fun _ _ _ hpq h => ⟨h.1.mono hpq, h.2⟩)
    (fun _ _ _ hs hp h => ⟨h.1.put hs hp, h.2.put h.1 hs hp⟩) (.refl _)
    ⟨spaced_empty _, tagsApart_empty⟩

end Builder

namespace Tree

variable {text : String} {t : Tree} {id offset : Nat} {n : Node} {e : Element}

theorem tagsApart_parse (text : String) : Builder.TagsApart (Tree.parse text).nodes := by
  obtain ⟨hspaced, hapart⟩ := Builder.tagsApart_ofText text.toList
  exact hapart.finish hspaced

theorem sound_parse (hn : (parse text).node? id = some n) : n.Sound text.toList :=
  (Builder.tagsApart_ofText text.toList).1.sound_finish
    ⟨text.toList, List.prefix_refl _, (Nat.zero_add _).symm⟩ hn

theorem node?_of_element? (h : t.element? id = some e) :
    ∃ n, t.node? id = some n ∧ n.content = .element e := by
  obtain ⟨⟨parent, span, content⟩, hn, hne⟩ := Option.bind_eq_some_iff.1 h
  cases content with
  | text raw => cases hne
  | element e' =>
    obtain rfl := Option.some.inj hne
    exact ⟨_, hn, rfl⟩

/-- the offset is after the `<` of the start tag, and before its end or at it if it has none -/
theorem covers_startTag (hn : (parse text).node? id = some n) (he : n.content = .element e)
    (hlt : e.startTag.start < offset)
    (hin : offset < e.startTag.stop ∨ e.startTagClosed = false ∧ offset = e.startTag.stop) :
    n.Covers offset := by
  have hs := (sound_parse hn).element e he
  have hp := (tagsApart_parse text).parted hn he
  obtain ⟨hstart, hstop⟩ := hs.startTag_inside
  refine ⟨e, he, Node.covers_iff.2 ⟨by omega, ?_⟩⟩
  rcases hin with hin | ⟨hopen, rfl⟩
  · exact Or.inl (Nat.lt_of_lt_of_le hin hstop)
  · -- an element that goes no further than its start tag has no closing tag
    rcases Nat.lt_or_eq_of_le hstop with hlt' | heq
    · exact Or.inl hlt'
    · refine Or.inr ⟨heq, ?_⟩
      have hself : e.selfClosing = false := by
        cases hsc : e.selfClosing with
        | false => rfl
        | true => exact absurd (hp.selfClosing hsc) (by simp [hopen])
      cases hct : e.closingTag with
      | none => simp [Element.isClosed, hself, hct]
      | some tag =>
        obtain ⟨-, h1, h2⟩ := hs.closingTag tag hct
        have h3 := hp.closingTag tag hct
        omega

/-- inside a start tag its own element is the innermost -/
theorem innermostAt_startTag (he : (parse text).element? id = some e)
    (hlt : e.startTag.start < offset)
    (hin : offset < e.startTag.stop ∨ e.startTagClosed = false ∧ offset = e.startTag.stop) :
    (parse text).innermostAt offset = some id := by
  obtain ⟨n, hn, he⟩ := node?_of_element? he
  refine innermostAt_of_last (sorted_parse text) hn (covers_startTag hn he hlt hin) ?_
  intro j m hj hm hc
  have := (tagsApart_parse text).later hj hn he hm
  have := hc.start_lt
  omega

end Tree
end ProjectSense
