import ProjectSense.Proofs.Markup.Pieces
import ProjectSense.Proofs.Markup.Context

/-!
# Comments and instructions

Comments and instructions are no part of the tree.  A document with them has the elements, the
attributes and the nesting that it has without them, and no text of the tree reaches into one.

* `Cursor.events_pieces`: the events of written pieces.
* `Tree.outline_asides`: the tree of a document with comments and instructions.
-/

namespace ProjectSense

open Text (width)

namespace Piece

def isAside : Piece → Bool
  | aside _ => true
  | _ => false

end Piece

/-- the text of a document that is written as the pieces -/
def renderPieces (doc : List Piece) : List Char := doc.flatMap Piece.render

/-- the document without its comments and instructions -/
def withoutAsides (doc : List Piece) : List Piece := doc.filter (!·.isAside)

/-- where the comments and instructions stand if the pieces begin at `pos` -/
def asideSpans (pos : Nat) : List Piece → List Span
  | [] => []
  | p :: doc =>
    if p.isAside then ⟨pos, pos + width p.render⟩ :: asideSpans (pos + width p.render) doc
    else asideSpans (pos + width p.render) doc

/-- the one span ends before the other begins -/
def Span.Apart (s t : Span) : Prop := s.stop ≤ t.start ∨ t.stop ≤ s.start

theorem start_le_of_asideSpans {pos : Nat} {doc : List Piece} {s : Span}
    (h : s ∈ asideSpans pos doc) : pos ≤ s.start := by
  induction doc generalizing pos with
  | nil => cases h
  | cons p doc ih =>
    rw [asideSpans] at h
    have hlater : s ∈ asideSpans (pos + width p.render) doc → pos ≤ s.start :=
      fun hmem => Nat.le_trans (Nat.le_add_right _ _) (ih hmem)
    split at h
    · rcases List.mem_cons.1 h with rfl | h
      · exact Nat.le_refl _
      · exact hlater h
    · exact hlater h

theorem marks_withoutAsides (doc : List Piece) :
    (withoutAsides doc).flatMap Piece.marks = doc.flatMap Piece.marks := by
  induction doc with
  | nil => rfl
  | cons p doc ih =>
    cases p with
    | aside a => exact ih
    | text | literal | tag | close => exact congrArg (_ ++ ·) ih

/-! ### Reading -/

namespace Cursor

variable {c d : Cursor} {text raw : List Char} {doc : List Piece} {s : Span}

/-- the texts among the events begin at the offset or later, apart from the spans -/
def TextsFrom (pos : Nat) (spans : List Span) (events : List Event) : Prop :=
  ∀ raw s, .text raw s ∈ events → pos ≤ s.start ∧ ∀ t ∈ spans, s.Apart t

theorem marks_textEvent (pos : Nat) (raw : List Char) :
    (textEvent pos raw).filterMap Event.mark? = [] := by
  unfold textEvent
  split <;> rfl

theorem eq_of_mem_textEvent {pos : Nat} {raw : List Char} {found : String}
    (h : .text found s ∈ textEvent pos raw) : s = ⟨pos, pos + width raw⟩ := by
  unfold textEvent at h
  split at h
  · cases h
  · exact (Event.text.inj (List.mem_singleton.1 h)).2

/-- a text of a construct stands where the construct stands -/
theorem within_of_construct {tail : List Char} {found : String} (hc : c.In 0 text)
    (h : c.rest = '<' :: tail) (hs : .text found s ∈ c.construct.1) :
    c.pos ≤ s.start ∧ s.stop ≤ c.construct.2.pos := by
  obtain ⟨part, he, hy⟩ := construct_yields hc h
  rw [he] at hs
  obtain ⟨p, hp, hmem⟩ := List.mem_flatMap.1 hs
  obtain ⟨-, h1, h2⟩ := hy.sound p (Option.mem_toList.1 hp)
  cases p with
  | text raw s' =>
    obtain ⟨-, rfl⟩ := Event.text.inj (List.mem_singleton.1 hmem)
    exact ⟨h1, h2⟩
  | tag t =>
    -- no event of a tag is a text
    simp only [Part.events, Tag.events, List.mem_cons, List.mem_append, List.mem_map,
      List.not_mem_nil, or_false] at hmem
    rcases hmem with h | ⟨a, -, h⟩ | h
    · cases h
    · cases h
    · cases he : t.ending <;> rw [he] at h <;> cases h
  | close name s' => cases List.mem_singleton.1 hmem

/-- reading from `c` to `d` passes the piece and gives the events -/
structure ReadsPiece (c : Cursor) (p : Piece) (d : Cursor) (events : List Event) : Prop where
  events_eq : c.events = events ++ d.events
  passes : c.Passes p.render d
  marks : events.filterMap Event.mark? = p.marks
  texts : ∀ raw s, .text raw s ∈ events →
    c.pos ≤ s.start ∧ s.stop ≤ d.pos ∧ p.isAside = false

theorem readsPiece {p : Piece} {rest : List Char} (hc : c.In 0 text) (hp : p.WellFormed)
    (ht : ∀ raw, p ≠ .text raw) (ha : ∀ a, p = .aside a → a.Plain)
    (h : c.rest = p.render ++ rest) :
    ∃ d, d.rest = rest ∧ c.ReadsPiece p d c.construct.1 := by
  obtain ⟨hmarks, hrest⟩ := construct_piece hp ht ha h
  obtain ⟨tail, htail⟩ := Piece.render_eq_cons ht
  have hlt : c.rest = '<' :: (tail ++ rest) := by rw [h, htail]; rfl
  obtain ⟨part, -, hy⟩ := construct_yields hc hlt
  obtain ⟨read, hread⟩ := hy.leads
  obtain rfl : read = p.render := by
    have := hread.rest
    rw [hrest, h] at this
    exact (List.append_cancel_right this).symm
  refine ⟨c.construct.2, hrest, events_construct hlt, hread, hmarks, fun found s hs => ?_⟩
  obtain ⟨h1, h2⟩ := within_of_construct hc hlt hs
  refine ⟨h1, h2, ?_⟩
  cases p with
  | aside a =>
    rw [(aside_passed_iff hp h).1] at hs
    cases hs
  | text | literal | tag | close => rfl

/-- the texts of a piece, and then those of the pieces after it -/
theorem ReadsPiece.textsFrom {p : Piece} {events : List Event} (h : c.ReadsPiece p d events)
    (hd : TextsFrom d.pos (asideSpans d.pos doc) d.events) :
    TextsFrom c.pos (asideSpans c.pos (p :: doc)) c.events := by
  have hpos := h.passes.pos
  have hle := h.passes.leads.le
  intro found s hs
  rw [h.events_eq] at hs
  rw [asideSpans, ← hpos]
  rcases List.mem_append.1 hs with hs | hs
  · obtain ⟨h1, h2, h3⟩ := h.texts found s hs
    rw [h3, if_neg Bool.false_ne_true]
    exact ⟨h1, fun t ht => .inl (Nat.le_trans h2 (start_le_of_asideSpans ht))⟩
  · obtain ⟨h1, h2⟩ := hd found s hs
    refine ⟨Nat.le_trans hle h1, ?_⟩
    split
    · exact List.forall_mem_cons.2 ⟨.inr h1, h2⟩
    · exact h2

/-- the events of written pieces tell what was written, and their texts stand apart from the
comments and instructions; `raw` is the front of a text that goes on with the pieces -/
theorem events_pieces (hc : c.In 0 text) (hdoc : ∀ p ∈ doc, p.WellFormed)
    (hplain : ∀ a, .aside a ∈ doc → a.Plain) (hraw : ∀ d ∈ raw, d ≠ '<')
    (h : c.rest = raw ++ renderPieces doc) :
    c.events.filterMap Event.mark? = doc.flatMap Piece.marks ∧
      TextsFrom c.pos (asideSpans (c.pos + width raw) doc) c.events := by
  -- the recursion is on the pieces; a text among them joins the text in front of it
  induction doc generalizing c raw with
  | nil =>
    have hread : c.takeWhile (· ≠ '<') = (raw, ⟨c.pos + width raw, []⟩) :=
      takeWhile_eq h (by simpa using hraw) (by simp)
    rw [events_of_nil hread rfl]
    refine ⟨marks_textEvent c.pos raw, fun found s hs => ?_⟩
    obtain rfl := eq_of_mem_textEvent hs
    exact ⟨Nat.le_refl _, fun t ht => by cases ht⟩
  | cons p doc ih =>
    obtain ⟨hp, hdoc'⟩ := List.forall_mem_cons.1 hdoc
    have hplain' : ∀ a, .aside a ∈ doc → a.Plain :=
      fun a ha => hplain a (List.mem_cons_of_mem p ha)
    by_cases ht : ∃ more, p = .text more
    · obtain ⟨more, rfl⟩ := ht
      have hrest : c.rest = (raw ++ more) ++ renderPieces doc := by
        rw [h, List.append_assoc]
        rfl
      obtain ⟨h1, h2⟩ := ih hc hdoc' hplain'
        (fun d hd => (List.mem_append.1 hd).elim (hraw d) (hp d)) hrest
      rw [Text.width_append, ← Nat.add_assoc] at h2
      exact ⟨h1, h2⟩
    · have ht : ∀ more, p ≠ .text more := fun more heq => ht ⟨more, heq⟩
      have hrest : c.rest = raw ++ (p.render ++ renderPieces doc) := h
      have hleads : c.Leads ⟨c.pos + width raw, p.render ++ renderPieces doc⟩ := ⟨raw, hrest, rfl⟩
      obtain ⟨d, hd, hr⟩ := readsPiece (hc.leads hleads) hp ht
        (fun a ha => hplain a (ha ▸ List.mem_cons_self)) rfl
      have hnil : d.rest = [] ++ renderPieces doc := hd
      obtain ⟨h1, h2⟩ := ih (hc.leads (hleads.trans hr.passes.leads)) hdoc' hplain'
        (fun d hd => by cases hd) hnil
      have hlater := hr.textsFrom h2
      obtain ⟨tail, htail⟩ := Piece.render_eq_cons ht
      have hev := events_text hrest hraw (by rw [htail]; exact forall_mem_head?_cons rfl)
      rw [hev]
      constructor
      · rw [List.filterMap_append, marks_textEvent, hr.events_eq, List.filterMap_append, hr.marks,
          h1]
        rfl
      · intro found s hs
        rcases List.mem_append.1 hs with hs | hs
        · obtain rfl := eq_of_mem_textEvent hs
          exact ⟨Nat.le_refl _, fun t ht => .inl (start_le_of_asideSpans ht)⟩
        · obtain ⟨h3, h4⟩ := hlater found s hs
          exact ⟨Nat.le_trans (Nat.le_add_right _ _) h3, h4⟩

end Cursor

/-! ### Texts of the tree -/

namespace Builder

variable {P : Span → Prop} {nodes : Array Node} {b : Builder}

/-- all texts among the nodes have the property -/
def AllTexts (P : Span → Prop) (nodes : Array Node) : Prop :=
  ∀ (i : Nat) (n : Node) (raw : String), nodes[i]? = some n → n.text? = some raw → P n.span

/-- where no text changes and none is new, all have the property still -/
theorem AllTexts.congr {nodes' : Array Node} (h : AllTexts P nodes)
    (hn : ∀ (i : Nat) (n' : Node) (raw : String), nodes'[i]? = some n' → n'.text? = some raw →
      nodes[i]? = some n') : AllTexts P nodes' :=
  fun i n' raw hn' ht => h i n' raw (hn i n' raw hn' ht) ht

theorem Linked.text?_of_open (h : b.Linked) {i : Nat} {n : Node} (hi : i ∈ b.opened)
    (hn : b.nodes[i]? = some n) : n.text? = none := by
  obtain ⟨e, he, -⟩ := h.element_of_open hi hn
  simp [Node.text?, he]

/-- an open element that changes is no text before or after -/
theorem AllTexts.modify {change : Node → Node} (h : AllTexts P b.nodes) (hl : b.Linked)
    (hc : ∀ n, (change n).text? = n.text?) {id : Nat} (hid : id ∈ b.opened) :
    AllTexts P (b.nodes.modify id change) := by
  refine h.congr fun i n' raw hn' ht => ?_
  rw [Array.getElem?_modify] at hn'
  split at hn'
  · next heq =>
    obtain ⟨n, hn, rfl⟩ := Option.map_eq_some_iff.1 hn'
    rw [hc, hl.text?_of_open (heq ▸ hid) hn] at ht
    cases ht
  · exact hn'

theorem AllTexts.leave {inner outer : List Nat} (h : AllTexts P b.nodes) (hl : b.Linked)
    (ho : ∀ i ∈ inner, i ∈ b.opened) (pos : Nat) : AllTexts P (b.leave pos inner outer).nodes := by
  refine h.congr fun i n' raw hn' ht => ?_
  rw [getElem?_leave] at hn'
  split at hn'
  · next hi =>
    obtain ⟨n, hn, rfl⟩ := Option.map_eq_some_iff.1 hn'
    rw [show (reach pos n).text? = n.text? from rfl, hl.text?_of_open (ho i hi) hn] at ht
    cases ht
  · exact hn'

theorem AllTexts.add {span : Span} {content : Content} {opens : Bool} (h : AllTexts P b.nodes)
    (hc : ∀ raw, content = .text raw → P span) : AllTexts P (b.add span content opens).nodes := by
  intro i n' raw hn' ht
  rw [getElem?_add] at hn'
  split at hn'
  · obtain rfl := Option.some.inj hn'
    cases content with
    | element e => cases ht
    | text found => exact hc found rfl
  split at hn'
  · obtain ⟨⟨parent, span', content'⟩, hn, rfl⟩ := Option.map_eq_some_iff.1 hn'
    cases content' with
    | element e => cases ht
    | text found => exact h i _ raw hn ht
  · exact h i n' raw hn' ht

theorem text?_changeElement (change : Element → Element) (n : Node) :
    (changeElement change n).text? = n.text? := by
  obtain ⟨parent, span, content⟩ := n
  cases content <;> rfl

theorem AllTexts.changeInnermost (h : AllTexts P b.nodes) (hl : b.Linked) (pos : Nat)
    (change : Element → Element) : AllTexts P (b.changeInnermost pos change).nodes := by
  unfold Builder.changeInnermost
  split
  · exact h
  · next id outer ho =>
    have hchange : ∀ n, (changeNode pos change n).text? = n.text? :=
      fun n => text?_changeElement _ n
    exact h.modify hl hchange (ho ▸ List.mem_cons_self)

theorem AllTexts.close (h : AllTexts P b.nodes) (hl : b.Linked) (name : String) (tag : Span) :
    AllTexts P (b.close name tag).nodes := by
  rcases close_cases b name tag with heq | ⟨inner, id, outer, ho, -, -, heq⟩
  · rw [heq]
    exact h
  · have hinner : ∀ i ∈ inner, i ∈ b.opened :=
      fun i hi => ho ▸ List.mem_append_left (id :: outer) hi
    have hleave : AllTexts P (b.leave tag.start inner (id :: outer)).nodes :=
      h.leave hl hinner tag.start
    have hchange : ∀ n, (closeNode tag n).text? = n.text? := fun n => text?_changeElement _ n
    rw [heq]
    exact hleave.modify (hl.leave ho tag.start) hchange List.mem_cons_self

/-- an event adds no text but its own -/
theorem AllTexts.apply {event : Event} (h : AllTexts P b.nodes) (hl : b.Linked)
    (he : ∀ raw s, event = .text raw s → P s) : AllTexts P (b.apply event).nodes := by
  cases event with
  | start name nameSpan pos =>
    rw [Builder.apply, start_eq_add]
    exact h.add fun raw hr => by cases hr
  | attr a => exact h.changeInnermost hl a.span.stop _
  | endStart pos selfClosing =>
    have hended := h.changeInnermost hl pos fun e =>
      { e with startTagClosed := true, selfClosing := selfClosing }
    cases selfClosing <;> exact hended
  | extend pos => exact h.changeInnermost hl pos id
  | text raw span =>
    rw [Builder.apply, push_eq_add]
    exact h.add fun _ _ => he raw span rfl
  | close name span => exact h.close hl name span

theorem AllTexts.foldl {events : List Event} (h : AllTexts P b.nodes) (hl : b.Linked)
    (he : ∀ raw s, .text raw s ∈ events → P s) :
    AllTexts P (events.foldl Builder.apply b).nodes ∧ (events.foldl Builder.apply b).Linked := by
  induction events generalizing b with
  | nil => exact ⟨h, hl⟩
  | cons event events ih =>
    refine ih (h.apply hl fun raw s heq => he raw s (heq ▸ List.mem_cons_self)) (hl.apply event) ?_
    exact fun raw s hs => he raw s (List.mem_cons_of_mem event hs)

end Builder

/-- the texts of a tree stand where the texts of its events do -/
theorem Tree.text_ofEvents {P : Span → Prop} {events : List Event} {width id : Nat} {n : Node}
    {raw : String} (he : ∀ raw s, .text raw s ∈ events → P s)
    (hn : (Tree.ofEvents events width).node? id = some n) (ht : n.text? = some raw) :
    P n.span := by
  have hnone : Builder.AllTexts P Builder.empty.nodes := fun i n raw hn => by cases hn
  obtain ⟨hall, hl⟩ := hnone.foldl Builder.linked_empty he
  have hfinish : Builder.AllTexts P (Tree.ofEvents events width).nodes :=
    @Builder.AllTexts.leave P _ _ [] hall hl (fun _ hi => hi) width
  exact hfinish id n raw hn ht

/-! ### Documents -/

/-- the events of a document tell what was written, and its texts stand apart from its comments and
instructions -/
theorem Event.ofText_pieces {doc : List Piece} (hdoc : ∀ p ∈ doc, p.WellFormed)
    (hplain : ∀ a, .aside a ∈ doc → a.Plain) :
    (Event.ofText (renderPieces doc)).filterMap Event.mark? = doc.flatMap Piece.marks ∧
      Cursor.TextsFrom 0 (asideSpans 0 doc) (Event.ofText (renderPieces doc)) :=
  @Cursor.events_pieces ⟨0, renderPieces doc⟩ (renderPieces doc) [] doc (.refl _) hdoc hplain
    (fun d hd => by cases hd) rfl

namespace Tree

variable {doc : List Piece}

theorem outline_pieces (hdoc : ∀ p ∈ doc, p.WellFormed) (hplain : ∀ a, .aside a ∈ doc → a.Plain) :
    (parse (String.ofList (renderPieces doc))).outline =
      ((doc.flatMap Piece.marks).foldl Draft.apply .empty).headings := by
  rw [parse, outline_ofEvents, String.toList_ofList, (Event.ofText_pieces hdoc hplain).1]

theorem outline_withoutAsides (hdoc : ∀ p ∈ doc, p.WellFormed)
    (hplain : ∀ a, .aside a ∈ doc → a.Plain) :
    (parse (String.ofList (renderPieces (withoutAsides doc)))).outline =
      ((doc.flatMap Piece.marks).foldl Draft.apply .empty).headings := by
  rw [← marks_withoutAsides]
  exact outline_pieces (fun p hp => hdoc p (List.mem_filter.1 hp).1)
    fun a ha => hplain a (List.mem_filter.1 ha).1

/-- a written forest is read the same with comments and instructions between its tags and texts -/
theorem outline_forest {f : Forest} (hf : f.WellFormed) (hdoc : withoutAsides doc = f.pieces)
    (hasides : ∀ a, .aside a ∈ doc → a.WellFormed ∧ a.Plain) :
    (parse (String.ofList (renderPieces doc))).outline =
      (parse (String.ofList f.render)).outline := by
  have hpieces : ∀ p ∈ doc, p.WellFormed := by
    intro p hp
    cases hside : p.isAside with
    | true =>
      cases p with
      | aside a => exact (hasides a hp).1
      | text | literal | tag | close => cases hside
    | false =>
      refine hf.pieces p ?_
      rw [← hdoc]
      exact List.mem_filter.2 ⟨hp, by rw [hside]; rfl⟩
  have hplain : ∀ a, .aside a ∈ doc → a.Plain := fun a ha => (hasides a ha).2
  rw [outline_pieces hpieces hplain, ← f.render_pieces, ← hdoc]
  exact (outline_withoutAsides hpieces hplain).symm

/-- a document has the elements, attributes and nesting that it has without its comments and
instructions, and no text of its tree reaches into one, if nothing in them is taken for their
end -/
theorem outline_asides (doc : List Piece) (hdoc : ∀ p ∈ doc, p.WellFormed)
    (hplain : ∀ a, .aside a ∈ doc → a.Plain) :
    (parse (String.ofList (renderPieces doc))).outline =
        (parse (String.ofList (renderPieces (withoutAsides doc)))).outline ∧
      ∀ id n raw, (parse (String.ofList (renderPieces doc))).node? id = some n →
        n.text? = some raw → ∀ s ∈ asideSpans 0 doc, n.span.Apart s := by
  constructor
  · rw [outline_pieces hdoc hplain, outline_withoutAsides hdoc hplain]
  · intro id n raw hn ht
    have htexts := (Event.ofText_pieces hdoc hplain).2
    rw [parse, String.toList_ofList] at hn
    exact text_ofEvents (fun raw s hs => (htexts raw s hs).2) hn ht

/-- a declaration in front, and a comment with a tag in the middle of a text -/
theorem outline_asides_inside :
    let doc : List Piece := [.aside (.instruction "xml version='1.0'".toList),
      .tag "a" [⟨[' '], "b", [' '], [], '\'', "1"⟩] [] false, .text ['t'],
      .aside (.comment " <c> -> ".toList), .text ['u'], .tag "c" [] [' '] true, .close "a" [' ']]
    (∀ p ∈ doc, p.WellFormed) ∧ (∀ a, .aside a ∈ doc → a.Plain) ∧
      (parse (String.ofList (renderPieces doc))).outline =
        (parse (String.ofList (renderPieces (withoutAsides doc)))).outline ∧
      ∀ id n raw, (parse (String.ofList (renderPieces doc))).node? id = some n →
        n.text? = some raw → ∀ s ∈ asideSpans 0 doc, n.span.Apart s := by
  intro doc
  have hdoc : ∀ p ∈ doc, p.WellFormed := by decide +kernel
  have hplain : ∀ a, .aside a ∈ doc → a.Plain := by
    intro a ha
    simp only [doc, List.mem_cons, Piece.aside.injEq, reduceCtorEq, List.not_mem_nil, false_or,
      or_false] at ha
    rcases ha with rfl | rfl
    · decide
    · decide
  exact ⟨hdoc, hplain, outline_asides doc hdoc hplain⟩

/-- a comment that begins with `>` ends there, and an instruction ends at its first `>`: the tag in
each becomes an element, and what is left of each a text -/
theorem outline_aside_cut :
    let inside (a : Aside) : List Piece := [.tag "a" [] [] false, .aside a, .close "a" []]
    let comment := inside (.comment ['>', '<', 'b', '/', '>'])
    let instruction := inside (.instruction ['p', ' ', 'a', '>', '<', 'b', '/', '>'])
    ((∀ p ∈ comment, p.WellFormed) ∧ (∀ p ∈ instruction, p.WellFormed)) ∧
      (parse (String.ofList (renderPieces comment))).outline ≠
        (parse (String.ofList (renderPieces (withoutAsides comment)))).outline ∧
      (parse (String.ofList (renderPieces instruction))).outline ≠
        (parse (String.ofList (renderPieces (withoutAsides instruction)))).outline := by
  refine ⟨⟨by decide +kernel, by decide +kernel⟩, by decide +kernel, by decide +kernel⟩

end Tree
end ProjectSense
