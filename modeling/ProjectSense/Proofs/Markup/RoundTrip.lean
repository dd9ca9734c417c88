import ProjectSense.Proofs.Markup.Links
import ProjectSense.Proofs.Markup.Spelling

/-!
# Reading what was written

A forest of elements and text is written as markup and read back as it was: the same nesting and
order, names, attributes and texts, with every tag and every value closed.

* `Tree.Shows`: the nodes of a tree are a forest.
* `Builder.reads_forest`: reading a forest puts it at the place that was reached.
* `Tree.parse_render`: the tree of a written forest shows it.
-/

namespace ProjectSense

/-- elements and text that follow one another -/
inductive Forest where
  | nil
  | text (raw : String) (rest : Forest)
  /-- an element written as `<N/>` -/
  | leaf (name : String) (attributes : List (String × String)) (rest : Forest)
  /-- an element written as `<N></N>` -/
  | element (name : String) (attributes : List (String × String)) (children rest : Forest)
deriving DecidableEq, Repr

/-! ### Writing -/

/-- the attribute with a blank in front -/
def renderAttribute (a : String × String) : List Char :=
  ' ' :: (a.1.toList ++ '=' :: '"' :: (a.2.toList ++ ['"']))

def renderAttributes (attributes : List (String × String)) : List Char :=
  attributes.flatMap renderAttribute

namespace Forest

def render : Forest → List Char
  | nil => []
  | text raw rest => raw.toList ++ rest.render
  | leaf name attributes rest =>
    '<' :: (name.toList ++ (renderAttributes attributes ++ '/' :: '>' :: rest.render))
  | element name attributes children rest =>
    '<' :: (name.toList ++ (renderAttributes attributes ++ '>' :: (children.render ++
      '<' :: '/' :: (name.toList ++ '>' :: rest.render))))

/-- a text comes first -/
def startsText : Forest → Bool
  | text _ _ => true
  | _ => false

end Forest

/-- a name, and a value without `<` and `"` -/
def IsAttribute (a : String × String) : Prop :=
  IsName a.1.toList ∧ ∀ d ∈ a.2.toList, d ≠ '<' ∧ d ≠ '"'

/-- no `<`, and more than blanks -/
def IsText (cs : List Char) : Prop :=
  (∀ d ∈ cs, d ≠ '<') ∧ ∃ d ∈ cs, Text.isBlank d = false

/-- names, values and texts can be written as they are, and no text follows another -/
def Forest.WellFormed : Forest → Prop
  | nil => True
  | text raw rest => IsText raw.toList ∧ rest.startsText = false ∧ rest.WellFormed
  | leaf name attributes rest =>
    IsName name.toList ∧ (∀ a ∈ attributes, IsAttribute a) ∧ rest.WellFormed
  | element name attributes children rest =>
    IsName name.toList ∧ (∀ a ∈ attributes, IsAttribute a) ∧ children.WellFormed ∧
      rest.WellFormed

-- the characters of the list are looked at, never all characters there are
instance : DecidablePred IsAttribute := fun a =>
  have := List.decidableBAll (fun d => d ≠ '<' ∧ d ≠ '"') a.2.toList
  inferInstanceAs (Decidable (_ ∧ _))

instance : DecidablePred IsText := fun cs =>
  have := List.decidableBAll (fun d => d ≠ '<') cs
  have := List.decidableBEx (fun d => Text.isBlank d = false) cs
  inferInstanceAs (Decidable (_ ∧ _))

instance Forest.decidableWellFormed : (f : Forest) → Decidable f.WellFormed
  | nil => inferInstanceAs (Decidable True)
  | text _ rest =>
    have := rest.decidableWellFormed
    inferInstanceAs (Decidable (_ ∧ _ ∧ _))
  | leaf _ _ rest =>
    have := rest.decidableWellFormed
    inferInstanceAs (Decidable (_ ∧ _ ∧ _))
  | element _ _ children rest =>
    have := children.decidableWellFormed
    have := rest.decidableWellFormed
    inferInstanceAs (Decidable (_ ∧ _ ∧ _ ∧ _))

/-! ### Spelling -/

/-- the attribute as `renderAttribute` writes it -/
def Spelling.ofPair (a : String × String) : Spelling := ⟨[' '], a.1, [], [], '"', a.2⟩

theorem flatMap_ofPair (attributes : List (String × String)) :
    (attributes.map Spelling.ofPair).flatMap Spelling.render = renderAttributes attributes := by
  have hsame : ∀ a, (Spelling.ofPair a).render = renderAttribute a := fun a => by
    simp [Spelling.ofPair, Spelling.render, renderAttribute]
  simp only [List.flatMap_map, hsame, renderAttributes]

theorem IsAttribute.spelling {a : String × String} (h : IsAttribute a) :
    (Spelling.ofPair a).WellFormed := by
  have hblank : Blanks [' '] := List.forall_mem_singleton.2 (by decide)
  refine ⟨by simp [Spelling.ofPair], hblank, h.1, by simp [Spelling.ofPair, Blanks],
    by simp [Spelling.ofPair, Blanks], .inl rfl, fun d hd => ?_⟩
  exact ⟨(h.2 d hd).2, (h.2 d hd).1⟩

theorem wellFormed_ofPair {attributes : List (String × String)}
    (h : ∀ a ∈ attributes, IsAttribute a) : ∀ a ∈ attributes.map Spelling.ofPair, a.WellFormed := by
  intro a ha
  obtain ⟨a', ha', rfl⟩ := List.mem_map.1 ha
  exact (h a' ha').spelling

theorem blanks_nil : Blanks [] := fun d hd => by cases hd

/-! ### What a tree shows -/

/-- the name and the attributes in order, each value and the start tag closed -/
structure Element.Written (e : Element) (name : String) (attributes : List (String × String)) :
    Prop where
  name_eq : e.name = name
  attributes_eq : e.attributes.toList.map (fun a => (a.name, a.value, a.closed)) =
    attributes.map fun a => (a.1, some a.2, true)
  startTagClosed : e.startTagClosed = true

/-- the nodes and what is in them are the forest, every element closed the way it was written -/
inductive Tree.Shows (t : Tree) : List Nat → Forest → Prop
  | nil : Shows t [] .nil
  | text {id : Nat} {ids : List Nat} {raw : String} {rest : Forest}
    (h : t.text? id = some raw) (hr : Shows t ids rest) : Shows t (id :: ids) (.text raw rest)
  | leaf {id : Nat} {ids : List Nat} {e : Element} {name : String}
    {attributes : List (String × String)} {rest : Forest}
    (h : t.element? id = some e) (hw : e.Written name attributes) (hs : e.selfClosing = true)
    (hc : t.children id = []) (hr : Shows t ids rest) :
    Shows t (id :: ids) (.leaf name attributes rest)
  | element {id : Nat} {ids : List Nat} {e : Element} {name : String}
    {attributes : List (String × String)} {children rest : Forest}
    (h : t.element? id = some e) (hw : e.Written name attributes) (hs : e.selfClosing = false)
    (hcl : e.closingTag.isSome = true) (hc : Shows t (t.children id) children)
    (hr : Shows t ids rest) : Shows t (id :: ids) (.element name attributes children rest)

/-! ### Forests at a place of the tree -/

namespace Forest

def append : Forest → Forest → Forest
  | nil, g => g
  | text raw rest, g => text raw (rest.append g)
  | leaf name attributes rest, g => leaf name attributes (rest.append g)
  | element name attributes children rest, g =>
    element name attributes children (rest.append g)

end Forest

namespace Tree

variable {t t' : Tree} {ids ids' : List Nat} {f g : Forest}

theorem Shows.append (h : t.Shows ids f) (h' : t.Shows ids' g) :
    t.Shows (ids ++ ids') (f.append g) := by
  induction h with
  | nil => exact h'
  | text h hr ih => exact .text h ih
  | leaf h hw hs hc hr ih => exact .leaf h hw hs hc ih
  | element h hw hs hcl hc hr _ ih => exact .element h hw hs hcl hc ih

/-- a forest is shown by the nodes from `low` on alone -/
theorem Shows.congr (ht : t.Linked) (low : Nat)
    (hn : ∀ i, low ≤ i → i < t.nodes.size → t'.node? i = t.node? i)
    (hids : ∀ id ∈ ids, low ≤ id ∧ id < t.nodes.size) (h : t.Shows ids f) : t'.Shows ids f := by
  have hchild : ∀ {id : Nat}, low ≤ id → id < t.nodes.size → t'.children id = t.children id := by
    intro id h1 h2
    rw [children, element?, hn id h1 h2]
    rfl
  have helement : ∀ {id : Nat}, low ≤ id → id < t.nodes.size → t'.element? id = t.element? id := by
    intro id h1 h2
    rw [element?, hn id h1 h2]
    rfl
  induction h with
  | nil => exact .nil
  | text h hr ih =>
    obtain ⟨h1, h2⟩ := hids _ List.mem_cons_self
    refine .text ?_ (ih fun id hid => hids id (List.mem_cons_of_mem _ hid))
    rw [← h, text?, hn _ h1 h2]
    rfl
  | leaf h hw hs hc hr ih =>
    obtain ⟨h1, h2⟩ := hids _ List.mem_cons_self
    exact .leaf ((helement h1 h2).trans h) hw hs ((hchild h1 h2).trans hc)
      (ih fun id hid => hids id (List.mem_cons_of_mem _ hid))
  | element h hw hs hcl hc hr ihc ih =>
    obtain ⟨h1, h2⟩ := hids _ List.mem_cons_self
    refine .element ((helement h1 h2).trans h) hw hs hcl ?_
      (ih fun id hid => hids id (List.mem_cons_of_mem _ hid))
    rw [hchild h1 h2]
    refine ihc ?_
    intro c hmem
    have hpar := ht.mem_children.1 hmem
    have := ht.parent_lt hpar
    exact ⟨by omega, lt_size_of_parent? hpar⟩

end Tree

namespace Builder

variable {b b' b'' : Builder} {ids ids' : List Nat} {f g : Forest} {text : List Char}
  {c c' d e : Cursor}

/-- the node with more children, if it is an element -/
def adoptAll (ids : List Nat) (n : Node) : Node := ids.foldl (fun n id => adoptNode id n) n

theorem adoptAll_element {parent : Option Nat} {span : Span} {e : Element} (ids : List Nat) :
    adoptAll ids ⟨parent, span, .element e⟩ =
      ⟨parent, span, .element { e with children := e.children ++ ids }⟩ := by
  induction ids generalizing e with
  | nil => simp [adoptAll]
  | cons id ids ih =>
    have hcons : adoptAll (id :: ids) ⟨parent, span, .element e⟩ =
        adoptAll ids ⟨parent, span, .element { e with children := e.children.push id }⟩ := rfl
    rw [hcons, ih]
    simp

/-- new nodes under the innermost open element, the `ids` directly; everything else stays -/
structure Grows (b b' : Builder) (ids : List Nat) : Prop where
  opened : b'.opened = b.opened
  size_le : b.nodes.size ≤ b'.nodes.size
  new : ∀ id ∈ ids, b.nodes.size ≤ id ∧ id < b'.nodes.size
  node : ∀ i < b.nodes.size, b'.nodes[i]? =
    if b.opened.head? = some i then (b.nodes[i]?).map (adoptAll ids) else b.nodes[i]?
  roots : b'.roots.toList = if b.opened = [] then b.roots.toList ++ ids else b.roots.toList

theorem Grows.refl (b : Builder) : Grows b b [] := by
  refine ⟨rfl, Nat.le_refl _, by simp, ?_, by simp⟩
  intro i _
  have hid : adoptAll [] = id := rfl
  simp [hid]

theorem Grows.trans (h : Grows b b' ids) (h' : Grows b' b'' ids') :
    Grows b b'' (ids ++ ids') := by
  have h1 := h.size_le
  have h2 := h'.size_le
  refine ⟨h'.opened.trans h.opened, Nat.le_trans h1 h2, ?_, ?_, ?_⟩
  · intro id hid
    rcases List.mem_append.1 hid with hid | hid
    · have := h.new id hid
      omega
    · have := h'.new id hid
      omega
  · intro i hi
    have hcomp : adoptAll (ids ++ ids') = adoptAll ids' ∘ adoptAll ids := by
      funext n
      simp [adoptAll]
    rw [h'.node i (by omega), h.opened, h.node i hi, hcomp]
    split
    · rw [Option.map_map]
    · rfl
  · rw [h'.roots, h.opened, h.roots]
    split
    · rw [List.append_assoc]
    · rfl

theorem grows_add (b : Builder) (span : Span) (content : Content) :
    Grows b (b.add span content false) [b.nodes.size] := by
  refine ⟨rfl, by simp [size_add], by simp [size_add], ?_, ?_⟩
  · intro i hi
    rw [getElem?_add, if_neg (by omega)]
    rfl
  · change b.adoptRoots.toList = _
    unfold adoptRoots
    split
    · next ho => simp [ho]
    · next ho => simp [ho]

/-- what was shown before is shown after -/
theorem Grows.shows (hl : b.Linked) (h : Grows b b' ids) (hl' : b'.Linked)
    (h' : Grows b' b'' ids') (hs : b'.tree.Shows ids f) : b''.tree.Shows ids f := by
  refine hs.congr hl'.tree _ ?_ h.new
  intro i h1 h2
  refine (h'.node i h2).trans (if_neg fun hi => ?_)
  rw [h.opened] at hi
  have := head?_lt_size hl hi
  omega

/-- reading on from `c` to `d` turns `b` into `b'`, with the forest as nodes `ids` -/
structure Reads (c : Cursor) (b : Builder) (d : Cursor) (b' : Builder) (ids : List Nat)
    (f : Forest) : Prop where
  events : c.events.foldl apply b = d.events.foldl apply b'
  leads : c.Leads d
  linked : b'.Linked
  grows : Grows b b' ids
  shows : b'.tree.Shows ids f

theorem Reads.trans (hl : b.Linked) (h : Reads c b d b' ids f) (h' : Reads d b' e b'' ids' g) :
    Reads c b e b'' (ids ++ ids') (f.append g) where
  events := h.events.trans h'.events
  leads := h.leads.trans h'.leads
  linked := h'.linked
  grows := h.grows.trans h'.grows
  shows := (Grows.shows hl h.grows h.linked h'.grows h.shows).append h'.shows

theorem reads_nil (hl : b.Linked) : Reads c b c b [] .nil :=
  ⟨rfl, .refl c, hl, .refl b, .nil⟩

theorem reads_text {raw : String} {rest : List Char} (hl : b.Linked) (hraw : IsText raw.toList)
    (h : c.rest = raw.toList ++ rest) (hrest : ∀ d ∈ rest.head?, d = '<') :
    ∃ d b', d.rest = rest ∧ Reads c b d b' [b.nodes.size] (.text raw .nil) := by
  obtain ⟨hlt, d, hd, hblank⟩ := hraw
  have hev : Cursor.textEvent c.pos raw.toList =
      [.text raw ⟨c.pos, c.pos + Text.width raw.toList⟩] := by
    have hall : raw.toList.all Text.isBlank = false := by
      refine Bool.eq_false_iff.2 ?_
      intro hall
      rw [List.all_eq_true.1 hall d hd] at hblank
      cases hblank
    rw [Cursor.textEvent, hall]
    simp
  refine ⟨⟨c.pos + Text.width raw.toList, rest⟩,
    b.put (.text raw ⟨c.pos, c.pos + Text.width raw.toList⟩), rfl, ?_, ⟨raw.toList, h, rfl⟩,
    hl.put _, grows_add b _ _, .text ?_ .nil⟩
  · rw [Cursor.events_text h hlt hrest, hev]
    simp only [List.cons_append, List.nil_append, List.foldl_cons, apply, push_eq_add]
    rfl
  · exact Tree.text?_of_node? (node?_add_size b _ (.text raw) false)

/-! ### Elements -/

/-- the events of a start tag tell the tag -/
theorem tag_of_events {t : Tag} {name : String} {nameSpan : Span} {start stop : Nat}
    {attributes : List Attribute} {ended : Bool}
    (h : Event.start name nameSpan start :: (attributes.map .attr ++ [.endStart stop ended]) =
      t.events) :
    t.name = name ∧ t.attributes = attributes ∧
      t.ending = if ended then .selfClosed else .closed := by
  obtain ⟨h1, h2⟩ := List.cons.inj h
  obtain ⟨h3, h4⟩ := List.append_inj' h2 rfl
  injection h1 with hname
  refine ⟨hname.symm, ?_, ?_⟩
  · exact ((List.map_inj_right fun _ _ he => Event.attr.inj he).1 h3).symm
  · have h5 := (List.cons.inj h4).1
    cases he : t.ending with
    | closed =>
      rw [he] at h5
      rw [(Event.endStart.inj h5).2]
      rfl
    | selfClosed =>
      rw [he] at h5
      rw [(Event.endStart.inj h5).2]
      rfl
    | unfinished =>
      rw [he] at h5
      cases h5

/-- a written start tag is read as the tag that was written -/
theorem reads_startTag {name : String} {attributes : List (String × String)} {rest : List Char}
    (b : Builder) (ended : Bool) (hc : c.In 0 text) (hn : IsName name.toList)
    (ha : ∀ a ∈ attributes, IsAttribute a)
    (h : c.rest = '<' :: (name.toList ++ (renderAttributes attributes ++ (tagEnd ended ++ rest)))) :
    ∃ (d : Cursor) (t : Tag), t.Sound text ∧ t.element.Written name attributes ∧
      t.ending = (if ended then .selfClosed else .closed) ∧ c.Leads d ∧ d.rest = rest ∧
      c.events.foldl apply b = d.events.foldl apply (b.put (.tag t)) := by
  have hspelled : c.rest = '<' :: (name.toList ++
      ((attributes.map Spelling.ofPair).flatMap Spelling.render ++
        ([] ++ (tagEnd ended ++ rest)))) := by
    rw [h, flatMap_ofPair, List.nil_append]
  obtain ⟨hconstruct, hd, nameSpan, read, pos, hev, hread⟩ :=
    Cursor.startTag_spelled hn (wellFormed_ofPair ha) blanks_nil hspelled
  obtain ⟨t, he, ht, hl, -⟩ := Cursor.startTag_sound hc h
  obtain ⟨h1, h2, h3⟩ := tag_of_events (hev.symm.trans he)
  rw [List.map_map] at hread
  refine ⟨c.startTag.2, t, ht, ⟨h1, ?_, ?_⟩, h3, hl, hd, ?_⟩
  · rw [← h2] at hread
    simpa [Tag.element, Function.comp_def, Spelling.ofPair] using hread
  · rw [Tag.element, h3]
    cases ended <;> rfl
  · rw [Cursor.events_construct h, hconstruct, he, List.foldl_append, foldl_tag ht]

theorem reads_leaf {name : String} {attributes : List (String × String)} {rest : List Char}
    (hc : c.In 0 text) (hl : b.Linked) (hn : IsName name.toList)
    (ha : ∀ a ∈ attributes, IsAttribute a)
    (h : c.rest = '<' :: (name.toList ++ (renderAttributes attributes ++ '/' :: '>' :: rest))) :
    ∃ d b', d.rest = rest ∧ Reads c b d b' [b.nodes.size] (.leaf name attributes .nil) := by
  obtain ⟨d, t, ht, hw, hend, hcd, hd, hev⟩ := reads_startTag b true hc hn ha h
  have hput : b.put (.tag t) = b.add t.span (.element t.element) false := by
    simp [put, hend]
  have hnode : (b.put (.tag t)).tree.node? b.nodes.size =
      some ⟨b.opened.head?, t.span, .element t.element⟩ := by
    rw [hput]; exact node?_add_size b _ _ false
  refine ⟨d, _, hd, hev, hcd, hl.put _, hput ▸ grows_add b _ _,
    .leaf (e := t.element) (Tree.element?_of_node? hnode) hw (by simp [Tag.element, hend])
      (Tree.children_of_node? hnode) .nil⟩

/-- a closing tag that names the innermost open element closes it -/
theorem close_innermost {id : Nat} {outer : List Nat} {name : String} (ho : b.opened = id :: outer)
    (hn : b.isNamed name id = true) (tag : Span) : b.close name tag = b.closeTop id outer tag := by
  simp [close, ho, hn, closeTop, abandon]
  rfl

theorem reads_closingTag {name : String} {rest : List Char} (hn : IsName name.toList)
    (h : c.rest = '<' :: '/' :: (name.toList ++ '>' :: rest)) :
    ∃ (d : Cursor) (tag : Span), d.rest = rest ∧ c.Leads d ∧
      c.events.foldl apply b = d.events.foldl apply (b.close name tag) := by
  obtain ⟨hconstruct, hev, hrest⟩ := Cursor.closingTag_spelled hn blanks_nil h
  refine ⟨c.closingTag.2, ⟨c.pos, c.closingTag.2.pos⟩, hrest,
    (Cursor.leads_drop 2 c).trans (Cursor.leads_closingTag c), ?_⟩
  rw [Cursor.events_construct h, hconstruct, hev]
  rfl

/-- the element of the tag with what was put into it, before its closing tag and after -/
def filled (t : Tag) (children : List Nat) (closingTag : Option Span) : Element :=
  { t.element with children := children.toArray, closingTag := closingTag }

/-- an element that was opened, filled and closed stands at the place that was reached -/
theorem reads_element {t : Tag} {tag : Span} {name : String} {attributes : List (String × String)}
    (hend : t.ending = .closed) (hw : t.element.Written name attributes)
    (hev : c'.events.foldl apply b = c.events.foldl apply (b.put (.tag t))) (hlc : c'.Leads c)
    (h : Reads c (b.put (.tag t)) d b' ids f)
    (hclose : d.events.foldl apply b' = e.events.foldl apply (b'.close name tag))
    (hle : d.Leads e) :
    Reads c' b e (b'.close name tag) [b.nodes.size] (.element name attributes f .nil) := by
  have hput : b.put (.tag t) = b.add t.span (.element t.element) true := by simp [put, hend]
  rw [hput] at h hev
  have hg := h.grows
  have hsize := size_add b t.span (.element t.element) true
  have hhead : (b.add t.span (.element t.element) true).opened.head? = some b.nodes.size := rfl
  have hnode : b'.nodes[b.nodes.size]? =
      some ⟨b.opened.head?, t.span, .element (filled t ids none)⟩ := by
    have hadopt : adoptAll ids ⟨b.opened.head?, t.span, .element t.element⟩ =
        ⟨b.opened.head?, t.span, .element (filled t ids none)⟩ := by
      rw [adoptAll_element]
      simp [filled, Tag.element]
    rw [hg.node _ (by omega), ← hadopt, if_pos hhead]
    exact congrArg (Option.map (adoptAll ids)) (node?_add_size b _ _ true)
  have hnamed : b'.isNamed name b.nodes.size = true := by
    rw [isNamed, hnode]
    simpa [Node.element?, filled] using hw.name_eq
  have hcl : b'.close name tag = b'.closeTop b.nodes.size b.opened tag :=
    close_innermost hg.opened hnamed tag
  have hlinked := h.linked.close name tag
  rw [hcl] at hlinked hclose ⊢
  have hold : ∀ {i : Nat}, b.nodes.size ≠ i →
      (b'.closeTop b.nodes.size b.opened tag).nodes[i]? = b'.nodes[i]? := by
    intro i hi
    rw [getElem?_closeTop, if_neg hi]
  have hnew : (b'.closeTop b.nodes.size b.opened tag).tree.node? b.nodes.size =
      some ⟨b.opened.head?, t.span.cover tag, .element (filled t ids (some tag))⟩ := by
    refine (getElem?_closeTop b' b.nodes.size b.opened tag b.nodes.size).trans ?_
    rw [if_pos rfl, hnode]
    rfl
  have hsame := (sameLinks_closeTop b' b.nodes.size b.opened tag).size_eq
  have hle' := hg.size_le
  refine ⟨hev.trans (h.events.trans hclose), hlc.trans (h.leads.trans hle), hlinked, ?_, ?_⟩
  · have hadd := grows_add b t.span (.element t.element)
    refine ⟨rfl, by omega, by simp; omega, ?_, ?_⟩
    · intro i hi
      rw [hold (by omega), hg.node i (by omega), hhead,
        if_neg fun heq => absurd (Option.some.inj heq) (by omega)]
      exact hadd.node i hi
    · refine hg.roots.trans ((if_neg ?_).trans hadd.roots)
      intro hnil
      cases hnil
  · refine .element (Tree.element?_of_node? hnew)
      ⟨hw.name_eq, hw.attributes_eq, hw.startTagClosed⟩ (by simp [filled, Tag.element, hend]) rfl
      ?_ .nil
    rw [Tree.children_of_node? hnew]
    refine h.shows.congr h.linked.tree (b.nodes.size + 1) ?_ ?_
    · intro i h1 h2
      exact hold (by omega)
    · intro id hid
      have := hg.new id hid
      rw [hsize] at this
      exact this

/-! ### Whole forests -/

/-- where no text comes first, a tag does or the end -/
theorem head?_render {f : Forest} {rest : List Char} (h : f.startsText = false)
    (hrest : ∀ d ∈ rest.head?, d = '<') : ∀ d ∈ (f.render ++ rest).head?, d = '<' := by
  cases f with
  | nil => exact hrest
  | text raw g => cases h
  | leaf name attributes g => exact forall_mem_head?_cons rfl
  | element name attributes children g => exact forall_mem_head?_cons rfl

theorem reads_forest {rest : List Char} (hf : f.WellFormed) (hc : c.In 0 text) (hl : b.Linked)
    (h : c.rest = f.render ++ rest) (hrest : ∀ d ∈ rest.head?, d = '<') :
    ∃ d b' ids, d.rest = rest ∧ Reads c b d b' ids f := by
  induction f generalizing c b rest with
  | nil => exact ⟨c, b, [], h, reads_nil hl⟩
  | text raw g ih =>
    obtain ⟨hraw, hstart, hg⟩ := hf
    rw [Forest.render, List.append_assoc] at h
    obtain ⟨d, b1, hd, hr⟩ := reads_text hl hraw h (head?_render hstart hrest)
    obtain ⟨e, b2, ids, he, hr'⟩ := ih hg (hc.leads hr.leads) hr.linked hd hrest
    exact ⟨e, b2, _, he, hr.trans hl hr'⟩
  | leaf name attributes g ih =>
    obtain ⟨hn, ha, hg⟩ := hf
    have hr : c.rest = '<' :: (name.toList ++
        (renderAttributes attributes ++ '/' :: '>' :: (g.render ++ rest))) := by
      rw [h]; simp [Forest.render]
    obtain ⟨d, b1, hd, hr⟩ := reads_leaf hc hl hn ha hr
    obtain ⟨e, b2, ids, he, hr'⟩ := ih hg (hc.leads hr.leads) hr.linked hd hrest
    exact ⟨e, b2, _, he, hr.trans hl hr'⟩
  | element name attributes children g ihc ih =>
    obtain ⟨hn, ha, hch, hg⟩ := hf
    have hr : c.rest = '<' :: (name.toList ++ (renderAttributes attributes ++ '>' ::
        (children.render ++ '<' :: '/' :: (name.toList ++ '>' :: (g.render ++ rest))))) := by
      rw [h]; simp [Forest.render]
    obtain ⟨d1, t, -, hw, hend, hcd, hd1, hev⟩ := reads_startTag b false hc hn ha hr
    obtain ⟨d2, b2, ids, hd2, hr2⟩ := ihc hch (hc.leads hcd) (hl.put (.tag t)) hd1
      (forall_mem_head?_cons rfl)
    obtain ⟨d3, tag, hd3, hld, hclose⟩ := reads_closingTag (b := b2) hn hd2
    have hr3 := reads_element hend hw hev hcd hr2 hclose hld
    obtain ⟨e, b4, ids', he, hr'⟩ := ih hg (hc.leads hr3.leads) hr3.linked hd3 hrest
    exact ⟨e, b4, _, he, hr3.trans hl hr'⟩

end Builder

/-- the tree of a written forest shows it, and nothing else: every node stands under its parent -/
theorem Tree.parse_render (f : Forest) (hf : f.WellFormed) :
    (Tree.parse (String.ofList f.render)).Linked ∧
      (Tree.parse (String.ofList f.render)).Shows
        (Tree.parse (String.ofList f.render)).roots.toList f := by
  refine ⟨Tree.linked_parse _, ?_⟩
  have hstart : (⟨0, f.render⟩ : Cursor).rest = f.render ++ [] := (List.append_nil _).symm
  obtain ⟨d, b, ids, hd, hr⟩ := Builder.reads_forest hf (.refl _) Builder.linked_empty hstart
    (by simp)
  have hev : d.events = [] := by
    obtain ⟨pos, rest⟩ := d
    obtain rfl : rest = [] := hd
    rw [Cursor.events]
    rfl
  have hparse : (Event.ofText (String.ofList f.render).toList).foldl Builder.apply .empty = b := by
    have := hr.events
    rw [hev] at this
    rw [String.toList_ofList]
    exact this
  have hopened : b.opened = [] := hr.grows.opened
  have hroots : b.roots.toList = ids := hr.grows.roots
  rw [Tree.parse, Tree.ofEvents, hparse, Builder.finish, hopened]
  exact hroots ▸ hr.shows.congr hr.linked.tree _ (fun _ _ _ => rfl) hr.grows.new

/-- two elements of one name, one in the other, with a text and an attribute -/
theorem Tree.parse_render_nested :
    let f : Forest := .element "a" [("b", "1 'x'")] (.text "t " (.element "a" [] .nil
      (.leaf "c:d" [("e", "")] .nil))) .nil
    f.WellFormed ∧ (Tree.parse (String.ofList f.render)).Linked ∧
      (Tree.parse (String.ofList f.render)).Shows
        (Tree.parse (String.ofList f.render)).roots.toList f := by
  intro f
  have hf : f.WellFormed := by decide +kernel
  exact ⟨hf, Tree.parse_render f hf⟩

end ProjectSense
