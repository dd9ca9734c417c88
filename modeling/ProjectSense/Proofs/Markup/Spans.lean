import ProjectSense.Proofs.Markup.Links

/-!
# Spans of a tree

Every span of a tree is what it says: names, values and texts stand in theirs, tags and children
lie inside their element, and what follows in the document begins where the last one has ended.

* `Builder.Spaced.put`: every part keeps the nodes in their places.
* `Tree.faithful_parse`: the spans of every document are faithful and nested.
-/

namespace ProjectSense

open Text (Boundary)

/-- the second begins after the first, and no offset is on a name or value of both -/
def Attribute.Apart (a b : Attribute) : Prop :=
  a.span.stop ≤ b.span.start ∧
    ∀ offset, ¬(Tree.onAttribute offset a = true ∧ Tree.onAttribute offset b = true)

/-- an element that spans `span` as it stands in the text -/
structure Element.Sound (text : List Char) (span : Span) (e : Element) : Prop where
  name : e.nameSpan.Holds 0 text e.name.toList
  startTag : e.startTag.Within 0 text
  name_inside : e.startTag.start ≤ e.nameSpan.start ∧ e.nameSpan.stop ≤ e.startTag.stop
  attributes : ∀ a ∈ e.attributes.toList,
    a.Sound text ∧ e.nameSpan.stop ≤ a.span.start ∧ a.span.stop ≤ e.startTag.stop
  apart : e.attributes.toList.Pairwise Attribute.Apart
  startTag_inside : span.start = e.startTag.start ∧ e.startTag.stop ≤ span.stop
  closingTag : ∀ tag, e.closingTag = some tag →
    tag.Within 0 text ∧ e.startTag.stop ≤ tag.start ∧ tag.stop ≤ span.stop

namespace Node

/-- a node as it stands in the text -/
structure Sound (text : List Char) (n : Node) : Prop where
  within : n.span.Within 0 text
  element : ∀ e, n.content = .element e → e.Sound text n.span
  text : ∀ raw, n.content = .text raw → n.span.Holds 0 text raw.toList

/-- the other node stands after the start tag of the node and before its closing tag -/
def Between (n m : Node) : Prop :=
  ∀ e, n.content = .element e →
    e.startTag.stop ≤ m.span.start ∧ ∀ tag, e.closingTag = some tag → m.span.stop ≤ tag.start

end Node

namespace Tree

/-- the one node ends before the other begins -/
def Precedes (t : Tree) (c d : Nat) : Prop :=
  ∃ m n, t.node? c = some m ∧ t.node? d = some n ∧ m.span.stop ≤ n.span.start

/-- every node stands in the text, children lie between the tags of their element, and siblings
follow one another -/
structure Faithful (text : List Char) (t : Tree) : Prop where
  node : ∀ id n, t.node? id = some n → n.Sound text
  child : ∀ id child, child ∈ t.children id → ∃ n m, t.node? id = some n ∧
    t.node? child = some m ∧ n.Between m ∧ n.span.start ≤ m.span.start ∧ m.span.stop ≤ n.span.stop
  children : ∀ id, (t.children id).Pairwise t.Precedes
  roots : t.roots.toList.Pairwise t.Precedes

end Tree

/-! ### Nodes that change -/

theorem Attribute.Before.apart {text : List Char} {a b : Attribute} (h : a.Before b)
    (ha : a.Sound text) (hb : b.Sound text) : a.Apart b :=
  ⟨h.1, fun _ => h.not_both ha hb⟩

theorem Tag.Sound.element {text : List Char} {t : Tag} (h : t.Sound text) :
    t.element.Sound text t.span := by
  constructor
  · exact h.name
  · exact h.span
  · exact ⟨Nat.le_of_lt h.start_lt, h.name_le⟩
  · exact h.attributes
  · refine h.ordered.imp_of_mem ?_
    intro a b ha hb hab
    exact hab.apart (h.attributes a ha).1 (h.attributes b hb).1
  · exact ⟨rfl, Nat.le_refl _⟩
  · intro tag htag; cases htag

theorem Element.closingTag_of_isClosed {e : Element} (h : e.isClosed = false) :
    e.closingTag = none := by
  simp only [isClosed, Bool.or_eq_false_iff, Option.isSome_eq_false_iff,
    Option.isNone_iff_eq_none] at h
  exact h.2

/-- an element keeps standing in the text when its span grows to the right -/
theorem Element.Sound.grow {text : List Char} {span span' : Span} {e : Element}
    (h : e.Sound text span) (hs : span'.start = span.start) (hle : span.stop ≤ span'.stop) :
    e.Sound text span' := by
  obtain ⟨h1, h2⟩ := h.startTag_inside
  refine ⟨h.name, h.startTag, h.name_inside, h.attributes, h.apart, ⟨hs.trans h1, by omega⟩, ?_⟩
  intro tag htag
  obtain ⟨hw, h3, h4⟩ := h.closingTag tag htag
  exact ⟨hw, h3, by omega⟩

namespace Node

variable {text : List Char} {n m : Node} {e : Element}

theorem sound_element {parent : Option Nat} {span : Span} (hw : span.Within 0 text)
    (h : e.Sound text span) : (⟨parent, span, .element e⟩ : Node).Sound text := by
  refine ⟨hw, ?_, ?_⟩
  · intro e' he
    obtain rfl := Content.element.inj he
    exact h
  · intro raw hraw; cases hraw

theorem sound_text {parent : Option Nat} {span : Span} {raw : String}
    (h : span.Holds 0 text raw.toList) : (⟨parent, span, .text raw⟩ : Node).Sound text := by
  refine ⟨h.within, ?_, ?_⟩
  · intro e he; cases he
  · intro raw' hraw
    obtain rfl := Content.text.inj hraw
    exact h

/-- an open element has no closing tag to stand before -/
theorem between_of_open (he : n.content = .element e) (ho : e.isClosed = false)
    (hle : e.startTag.stop ≤ m.span.start) : n.Between m := by
  intro e' he'
  obtain rfl := Content.element.inj (he.symm.trans he')
  refine ⟨hle, ?_⟩
  intro tag htag
  rw [Element.closingTag_of_isClosed ho] at htag
  cases htag

theorem Sound.reach {pos : Nat} (h : n.Sound text) (he : n.content = .element e)
    (hle : n.span.stop ≤ pos) (hb : Boundary 0 text pos) : (Builder.reach pos n).Sound text := by
  obtain ⟨parent, span, content⟩ := n
  subst he
  have hle' : span.start ≤ span.stop := h.within.le
  have hspan : span.coverOffset pos = ⟨span.start, pos⟩ := by
    simp only [Span.coverOffset, Span.mk.injEq]
    change span.stop ≤ pos at hle
    omega
  rw [Builder.reach, hspan]
  exact sound_element ⟨Nat.le_trans hle' hle, h.within.start, hb⟩ ((h.element e rfl).grow rfl hle)

theorem Sound.closeNode {tag : Span} (h : n.Sound text) (he : n.content = .element e)
    (hle : n.span.stop ≤ tag.start) (hw : tag.Within 0 text) :
    (Builder.closeNode tag n).Sound text := by
  obtain ⟨parent, span, content⟩ := n
  subst he
  have hle' : span.start ≤ span.stop := h.within.le
  have hle'' := hw.le
  change span.stop ≤ tag.start at hle
  have hspan : span.cover tag = ⟨span.start, tag.stop⟩ := by
    simp only [Span.cover, Span.mk.injEq]
    omega
  have hs := h.element e rfl
  have hstop : span.stop ≤ tag.stop := Nat.le_trans hle hle''
  have hg : e.Sound text ⟨span.start, tag.stop⟩ := hs.grow rfl hstop
  rw [Builder.closeNode, hspan]
  refine sound_element ⟨Nat.le_trans hle' hstop, h.within.start, hw.stop⟩
    ⟨hg.name, hg.startTag, hg.name_inside, hg.attributes, hg.apart, hg.startTag_inside, ?_⟩
  intro tag' htag
  obtain rfl := Option.some.inj htag
  exact ⟨hw, Nat.le_trans hs.startTag_inside.2 hle, Nat.le_refl _⟩

theorem Sound.adoptNode (h : n.Sound text) (child : Nat) :
    (Builder.adoptNode child n).Sound text := by
  obtain ⟨parent, span, content⟩ := n
  cases content with
  | text raw => exact h
  | element e =>
    obtain ⟨h1, h2, h3, h4, h5, h6, h7⟩ := h.element e rfl
    exact sound_element h.within ⟨h1, h2, h3, h4, h5, h6, h7⟩

theorem Between.adoptNode (h : n.Between m) (child : Nat) :
    (Builder.adoptNode child n).Between m := by
  obtain ⟨parent, span, content⟩ := n
  cases content with
  | text raw => exact h
  | element e =>
    intro e' he
    obtain rfl := Content.element.inj he
    exact h e rfl

end Node

namespace Builder

variable {text : List Char} {b : Builder} {p : Nat}

/-! ### Builders that have read up to `p` -/

/-- all nodes end at `p` at the latest and stand in their places; that a child ends before its
element does is known once the element is no longer open -/
structure Spaced (text : List Char) (p : Nat) (b : Builder) : Prop where
  linked : b.Linked
  node : ∀ {i : Nat} {n : Node}, b.nodes[i]? = some n → n.Sound text ∧ n.span.stop ≤ p
  between : ∀ {i c : Nat} {n m : Node}, b.nodes[i]? = some n → b.nodes[c]? = some m →
    m.parent = some i → n.Between m ∧ (i ∉ b.opened → m.span.stop ≤ n.span.stop)
  siblings : ∀ {c d : Nat} {m n : Node}, c < d → b.nodes[c]? = some m → b.nodes[d]? = some n →
    m.parent = n.parent → m.span.stop ≤ n.span.start

theorem Spaced.mono {q : Nat} (h : b.Spaced text p) (hpq : p ≤ q) : b.Spaced text q :=
  ⟨h.linked, fun hn => ⟨(h.node hn).1, Nat.le_trans (h.node hn).2 hpq⟩, h.between, h.siblings⟩

theorem Linked.parent_lt (h : b.Linked) {c i : Nat} {m : Node} (hm : b.nodes[c]? = some m)
    (hp : m.parent = some i) : i < c := by
  have hpar : b.tree.parent? c = some i := by
    rw [Tree.parent?_of_node? (t := b.tree) hm, hp]
  exact h.tree.parent_lt hpar

theorem Linked.last_of_open (h : b.Linked) {i d : Nat} {n m : Node} (hi : i ∈ b.opened)
    (hn : b.nodes[i]? = some n) (hm : b.nodes[d]? = some m) (hp : n.parent = m.parent) :
    d ≤ i := by
  refine Nat.le_of_not_lt ?_
  intro hlt
  refine h.last i hi d hlt (Array.getElem?_eq_some_iff.1 hm).1 ?_
  rw [Tree.parent?_of_node? (t := b.tree) hm, Tree.parent?_of_node? (t := b.tree) hn, hp]

/-! ### New nodes -/

/-- the node a new one stands under has one more child, if it is the same otherwise -/
inductive Adopts (n : Node) : Node → Prop
  | same : Adopts n n
  | child (c : Nat) : Adopts n (adoptNode c n)

theorem Adopts.parent_eq {n n' : Node} (h : Adopts n n') : n'.parent = n.parent := by
  cases h with
  | same => rfl
  | child c => exact parent_adoptNode c n

theorem Adopts.span_eq {n n' : Node} (h : Adopts n n') : n'.span = n.span := by
  cases h with
  | same => rfl
  | child c => exact span_adoptNode c n

theorem Adopts.sound {n n' : Node} (h : Adopts n n') (hs : n.Sound text) : n'.Sound text := by
  cases h with
  | same => exact hs
  | child c => exact hs.adoptNode c

theorem Adopts.between {n n' m m' : Node} (h : Adopts n n') (hm : m'.span = m.span)
    (hb : n.Between m) : n'.Between m' := by
  have hb' : n.Between m' := by
    rw [Node.Between, hm]; exact hb
  cases h with
  | same => exact hb'
  | child c => exact hb'.adoptNode c

theorem add_cases {span : Span} {content : Content} {opens : Bool} {i : Nat} {n' : Node}
    (h : (b.add span content opens).nodes[i]? = some n') :
    (i = b.nodes.size ∧ n' = ⟨b.opened.head?, span, content⟩) ∨
      i < b.nodes.size ∧ ∃ n, b.nodes[i]? = some n ∧ Adopts n n' := by
  rw [getElem?_add] at h
  split at h
  · next hi => exact Or.inl ⟨hi, (Option.some.inj h).symm⟩
  split at h
  · obtain ⟨n, hn, rfl⟩ := Option.map_eq_some_iff.1 h
    exact Or.inr ⟨(Array.getElem?_eq_some_iff.1 hn).1, n, hn, .child _⟩
  · exact Or.inr ⟨(Array.getElem?_eq_some_iff.1 h).1, n', h, .same⟩

theorem mem_opened_add {span : Span} {content : Content} {opens : Bool} {i : Nat}
    (h : i ∈ b.opened) : i ∈ (b.add span content opens).opened := by
  change i ∈ if opens then b.nodes.size :: b.opened else b.opened
  split
  · exact List.mem_cons_of_mem _ h
  · exact h

theorem Spaced.between_add {span : Span} {content : Content} {opens : Bool} {i c : Nat}
    {n' m' : Node} (h : b.Spaced text p) (hp : p ≤ span.start)
    (hl : (b.add span content opens).Linked)
    (hn' : (b.add span content opens).nodes[i]? = some n')
    (hm' : (b.add span content opens).nodes[c]? = some m') (hpar : m'.parent = some i) :
    n'.Between m' ∧ (i ∉ (b.add span content opens).opened → m'.span.stop ≤ n'.span.stop) := by
  have hlt := hl.parent_lt hm' hpar
  rcases add_cases hm' with ⟨rfl, rfl⟩ | ⟨hc, m, hm, ha⟩
  · -- the new node comes after everything in the innermost open element
    have hi : i ∈ b.opened := List.mem_of_head? hpar
    rcases add_cases hn' with ⟨rfl, -⟩ | ⟨-, n, hn, ha⟩
    · omega
    · obtain ⟨e, he, hopen⟩ := h.linked.element_of_open hi hn
      obtain ⟨h1, h2⟩ := h.node hn
      have h3 := (h1.element e he).startTag_inside.2
      have hle : e.startTag.stop ≤ span.start := by omega
      have hbet : n.Between ⟨b.opened.head?, span, content⟩ := Node.between_of_open he hopen hle
      exact ⟨ha.between rfl hbet, fun hni => absurd (mem_opened_add hi) hni⟩
  · rcases add_cases hn' with ⟨rfl, -⟩ | ⟨-, n, hn, ha'⟩
    · omega
    · obtain ⟨h1, h2⟩ := h.between hn hm (ha.parent_eq ▸ hpar)
      refine ⟨ha'.between ha.span_eq h1, ?_⟩
      intro hni
      rw [ha.span_eq, ha'.span_eq]
      exact h2 fun hi => hni (mem_opened_add hi)

theorem Spaced.add {span : Span} {content : Content} {opens : Bool} (h : b.Spaced text p)
    (hp : p ≤ span.start) (hs : (⟨b.opened.head?, span, content⟩ : Node).Sound text)
    (hl : (b.add span content opens).Linked) :
    (b.add span content opens).Spaced text span.stop := by
  have hspan : span.start ≤ span.stop := hs.within.le
  refine ⟨hl, ?_, ?_, ?_⟩
  · intro i n' hn'
    rcases add_cases hn' with ⟨-, rfl⟩ | ⟨-, n, hn, ha⟩
    · exact ⟨hs, Nat.le_refl _⟩
    · obtain ⟨h1, h2⟩ := h.node hn
      refine ⟨ha.sound h1, ?_⟩
      rw [ha.span_eq]; omega
  · exact h.between_add hp hl
  · intro c d m' n' hcd hm' hn' hpar
    rcases add_cases hm' with ⟨rfl, -⟩ | ⟨hc, m, hm, ha⟩
    · rcases add_cases hn' with ⟨rfl, -⟩ | ⟨hd, -⟩ <;> omega
    · rw [ha.span_eq]
      rcases add_cases hn' with ⟨-, rfl⟩ | ⟨hd, n, hn, ha'⟩
      · exact Nat.le_trans (h.node hm).2 hp
      · rw [ha'.span_eq]
        refine h.siblings hcd hm hn ?_
        rw [← ha.parent_eq, hpar, ha'.parent_eq]

/-! ### Elements that end -/

/-- the node goes on from `p` to `q` at the latest; what it holds stays between its tags -/
structure Extends (text : List Char) (p q : Nat) (n n' : Node) : Prop where
  parent_eq : n'.parent = n.parent
  start_eq : n'.span.start = n.span.start
  sound : n'.Sound text
  le : p ≤ n'.span.stop
  le' : n'.span.stop ≤ q
  between : ∀ m : Node, m.span.stop ≤ p → n.Between m → n'.Between m

/-- a node after the innermost open element `id` has ended -/
def Ended (text : List Char) (b : Builder) (id p q i : Nat) (n n' : Node) : Prop :=
  b.nodes[i]? = some n ∧ (i = id ∧ Extends text p q n n' ∨ i ≠ id ∧ n' = n)

section Ended

variable {id q : Nat} {outer : List Nat} {n n' m m' : Node}

theorem Ended.parent_eq {i : Nat} (h : Ended text b id p q i n n') : n'.parent = n.parent := by
  obtain ⟨-, ⟨-, hx⟩ | ⟨-, rfl⟩⟩ := h
  · exact hx.parent_eq
  · rfl

theorem Ended.start_eq {i : Nat} (h : Ended text b id p q i n n') :
    n'.span.start = n.span.start := by
  obtain ⟨-, ⟨-, hx⟩ | ⟨-, rfl⟩⟩ := h
  · exact hx.start_eq
  · rfl

/-- the element that has ended keeps what it holds, and it is held by its parent -/
theorem Spaced.between_ended {i c : Nat} (h : b.Spaced text p) (ho : b.opened = id :: outer)
    (hlt : i < c) (hn : Ended text b id p q i n n') (hm : Ended text b id p q c m m')
    (hpar : m'.parent = some i) :
    n'.Between m' ∧ (i ∉ outer → m'.span.stop ≤ n'.span.stop) := by
  rw [hm.parent_eq] at hpar
  obtain ⟨hin, hn⟩ := hn
  obtain ⟨hic, hm⟩ := hm
  have hbet := h.between hin hic hpar
  rcases hm with ⟨rfl, hx⟩ | ⟨-, rfl⟩
  · -- the element around it is still open, and has no closing tag yet
    have hparent := h.linked.parent?_of_open ho
    rw [Tree.parent?_of_node? (t := b.tree) hic, hpar] at hparent
    have hiout : i ∈ outer := List.mem_of_head? hparent.symm
    rcases hn with ⟨rfl, -⟩ | ⟨-, rfl⟩
    · omega
    · have hopen : i ∈ b.opened := by
        rw [ho]
        exact List.mem_cons_of_mem _ hiout
      obtain ⟨e, he, hcl⟩ := h.linked.element_of_open hopen hin
      have hle : e.startTag.stop ≤ m'.span.start := by
        rw [hx.start_eq]
        exact (hbet.1 e he).1
      exact ⟨Node.between_of_open he hcl hle, fun hni => absurd hiout hni⟩
  · have hstop := (h.node hic).2
    rcases hn with ⟨rfl, hx⟩ | ⟨hne, rfl⟩
    · exact ⟨hx.between _ hstop hbet.1, fun _ => Nat.le_trans hstop hx.le⟩
    · refine ⟨hbet.1, fun hni => hbet.2 ?_⟩
      rw [ho]
      exact List.not_mem_cons_of_ne_of_not_mem hne hni

theorem Spaced.siblings_ended {c d : Nat} (h : b.Spaced text p) (ho : b.opened = id :: outer)
    (hcd : c < d) (hm : Ended text b id p q c m m') (hn : Ended text b id p q d n n')
    (hpar : m'.parent = n'.parent) : m'.span.stop ≤ n'.span.start := by
  rw [hm.parent_eq, hn.parent_eq] at hpar
  rw [hn.start_eq]
  obtain ⟨hmc, ⟨rfl, -⟩ | ⟨-, rfl⟩⟩ := hm
  · -- nothing follows an open element at its place
    have hopen : c ∈ b.opened := by
      rw [ho]
      exact List.mem_cons_self
    have := h.linked.last_of_open hopen hmc hn.1 hpar
    omega
  · exact h.siblings hcd hmc hn.1 hpar

/-- the innermost open element ends -/
theorem Spaced.endTop {change : Node → Node} (h : b.Spaced text p) (ho : b.opened = id :: outer)
    (hpq : p ≤ q) (hl : (⟨b.nodes.modify id change, b.roots, outer⟩ : Builder).Linked)
    (hc : ∀ n, b.nodes[id]? = some n → Extends text p q n (change n)) :
    (⟨b.nodes.modify id change, b.roots, outer⟩ : Builder).Spaced text q := by
  have hended : ∀ {i : Nat} {n' : Node}, (b.nodes.modify id change)[i]? = some n' →
      ∃ n, Ended text b id p q i n n' := by
    intro i n' hn'
    rw [Array.getElem?_modify] at hn'
    split at hn'
    · next hi =>
      subst hi
      obtain ⟨n, hn, rfl⟩ := Option.map_eq_some_iff.1 hn'
      exact ⟨n, hn, Or.inl ⟨rfl, hc n hn⟩⟩
    · next hi => exact ⟨n', hn', Or.inr ⟨Ne.symm hi, rfl⟩⟩
  refine ⟨hl, ?_, ?_, ?_⟩
  · intro i n' hn'
    obtain ⟨n, hn, ⟨-, hx⟩ | ⟨-, rfl⟩⟩ := hended hn'
    · exact ⟨hx.sound, hx.le'⟩
    · exact ⟨(h.node hn).1, Nat.le_trans (h.node hn).2 hpq⟩
  · intro i c n' m' hn' hm' hpar
    obtain ⟨n, hn⟩ := hended hn'
    obtain ⟨m, hm⟩ := hended hm'
    exact h.between_ended ho (hl.parent_lt hm' hpar) hn hm hpar
  · intro c d m' n' hcd hm' hn' hpar
    obtain ⟨m, hm⟩ := hended hm'
    obtain ⟨n, hn⟩ := hended hn'
    exact h.siblings_ended ho hcd hm hn hpar

end Ended

theorem Spaced.reach {i pos : Nat} {n : Node} (h : b.Spaced text p) (hi : i ∈ b.opened)
    (hn : b.nodes[i]? = some n) (hp : p ≤ pos) (hb : Boundary 0 text pos) :
    Extends text p pos n (reach pos n) := by
  obtain ⟨e, he, -⟩ := h.linked.element_of_open hi hn
  obtain ⟨h1, h2⟩ := h.node hn
  have hle := h1.within.le
  refine ⟨rfl, ?_, h1.reach he (Nat.le_trans h2 hp) hb, ?_, ?_, fun _ _ hm => hm⟩
  · change min n.span.start pos = n.span.start
    omega
  · change p ≤ max n.span.stop pos
    omega
  · change max n.span.stop pos ≤ pos
    omega

theorem Spaced.leave {inner outer : List Nat} {pos : Nat} (h : b.Spaced text p)
    (ho : b.opened = inner ++ outer) (hp : p ≤ pos) (hb : Boundary 0 text pos) :
    (b.leave pos inner outer).Spaced text pos := by
  induction inner generalizing b p with
  | nil =>
    obtain ⟨nodes, roots, opened⟩ := b
    obtain rfl : opened = outer := ho
    exact h.mono hp
  | cons id inner ih =>
    have ho' : b.opened = [id] ++ (inner ++ outer) := ho
    have hl := h.linked.leave ho' pos
    have key := h.endTop ho hp hl fun n hn =>
      h.reach (by rw [ho]; exact List.mem_cons_self) hn hp hb
    exact ih key rfl (Nat.le_refl pos)

theorem Spaced.closeTop {id : Nat} {outer : List Nat} {tag : Span} (h : b.Spaced text p)
    (ho : b.opened = id :: outer) (hp : p ≤ tag.start) (hw : tag.Within 0 text) :
    (b.closeTop id outer tag).Spaced text tag.stop := by
  have hle := hw.le
  refine h.endTop ho (Nat.le_trans hp hle) (h.linked.closeTop ho tag) ?_
  intro n hn
  obtain ⟨e, he, -⟩ := h.linked.element_of_open (by rw [ho]; exact List.mem_cons_self) hn
  obtain ⟨h1, h2⟩ := h.node hn
  have hle' := h1.within.le
  obtain ⟨parent, span, content⟩ := n
  obtain rfl : content = .element e := he
  change span.stop ≤ p at h2
  change span.start ≤ span.stop at hle'
  refine ⟨rfl, ?_, h1.closeNode rfl (Nat.le_trans h2 hp) hw, ?_, ?_, fun m hm hbet => ?_⟩
  · change min span.start tag.start = span.start
    omega
  · change p ≤ max span.stop tag.stop
    omega
  · change max span.stop tag.stop ≤ tag.stop
    omega
  · intro e' he'
    obtain rfl := Content.element.inj he'
    refine ⟨(hbet e rfl).1, ?_⟩
    intro tag' htag
    obtain rfl := Option.some.inj htag
    exact Nat.le_trans hm hp

/-! ### Whole documents -/

theorem Spaced.put {part : Part} (h : b.Spaced text p) (hs : part.Sound text)
    (hp : p ≤ part.span.start) : (b.put part).Spaced text part.span.stop := by
  have hl := h.linked.put part
  cases part with
  | text raw s => exact h.add hp (Node.sound_text hs) hl
  | tag t => exact h.add hp (Node.sound_element (Tag.Sound.span hs) (Tag.Sound.element hs)) hl
  | close name s =>
    obtain ⟨hw, -⟩ := hs
    change p ≤ s.start at hp
    change (b.close name s).Spaced text s.stop
    rcases close_cases b name s with heq | ⟨inner, id, outer, ho, -, -, heq⟩
    · rw [heq]
      exact h.mono (Nat.le_trans hp hw.le)
    · rw [heq]
      exact (h.leave ho hp hw.start).closeTop rfl (Nat.le_refl _) hw

theorem spaced_empty (text : List Char) : empty.Spaced text 0 := by
  refine ⟨linked_empty, ?_, ?_, ?_⟩
  · intro i n hn; cases hn
  · intro i c n m hn; cases hn
  · intro c d m n _ hm; cases hm

theorem Spaced.faithful (h : b.Spaced text p) (ho : b.opened = []) (width : Nat) :
    (⟨b.nodes, b.roots, width⟩ : Tree).Faithful text := by
  have ht : (⟨b.nodes, b.roots, width⟩ : Tree).Linked :=
    SameLinks.linked (w := 0) (fun _ => rfl) h.linked.tree
  have hprec : ∀ {c d : Nat}, c < d → c < b.nodes.size → d < b.nodes.size →
      b.tree.parent? c = b.tree.parent? d → (⟨b.nodes, b.roots, width⟩ : Tree).Precedes c d := by
    intro c d hcd hc hd hpar
    obtain ⟨m, hm⟩ := Tree.node?_of_lt (t := b.tree) hc
    obtain ⟨n, hn⟩ := Tree.node?_of_lt (t := b.tree) hd
    rw [Tree.parent?_of_node? hm, Tree.parent?_of_node? hn] at hpar
    exact ⟨m, n, hm, hn, h.siblings hcd hm hn hpar⟩
  refine ⟨fun id n hn => (h.node hn).1, ?_, ?_, ?_⟩
  · intro id child hmem
    have hpar := ht.mem_children.1 hmem
    obtain ⟨m, hm, hmp⟩ := Tree.node?_of_parent? hpar
    have hlt := h.linked.parent_lt hm hmp
    obtain ⟨n, hn⟩ := Tree.node?_of_lt (t := b.tree)
      (Nat.lt_trans hlt (Array.getElem?_eq_some_iff.1 hm).1)
    obtain ⟨h1, h2⟩ := h.between hn hm hmp
    have hel : ∃ e, n.content = .element e := by
      cases he : n.content with
      | element e => exact ⟨e, rfl⟩
      | text raw =>
        rw [Tree.children_of_node? (t := ⟨b.nodes, b.roots, width⟩) hn, Node.children,
          Node.element?, he] at hmem
        cases hmem
    obtain ⟨e, he⟩ := hel
    obtain ⟨h3, h4⟩ := ((h.node hn).1.element e he).startTag_inside
    have h5 := ((h.node hn).1.element e he).startTag.le
    have h6 := (h1 e he).1
    exact ⟨n, m, hn, hm, h1, by omega, h2 (by rw [ho]; exact List.not_mem_nil)⟩
  · intro id
    refine (ht.children_ordered id).imp_of_mem ?_
    intro c d hc hd hcd
    have hc' := ht.mem_children.1 hc
    have hd' := ht.mem_children.1 hd
    exact hprec hcd (Tree.lt_size_of_parent? hc') (Tree.lt_size_of_parent? hd')
      (hc'.trans hd'.symm)
  · refine ht.roots_ordered.imp_of_mem ?_
    intro c d hc hd hcd
    obtain ⟨hc1, hc2⟩ := ht.mem_roots.1 hc
    obtain ⟨hd1, hd2⟩ := ht.mem_roots.1 hd
    exact hprec hcd hc1 hd1 (hc2.trans hd2.symm)

end Builder

/-- every span of a document is faithful and nested -/
theorem Tree.faithful_parse (text : String) : (Tree.parse text).Faithful text.toList := by
  have hb : Builder.Spaced text.toList (Text.width text.toList)
      ((Event.ofText text.toList).foldl Builder.apply .empty) :=
    Cursor.events_keep (fun p b => b.Spaced text.toList p)
      (fun _ _ _ hpq h => h.mono hpq) (fun _ _ _ hs hp h => h.put hs hp) (.refl _)
      (Builder.spaced_empty _)
  have hend : Boundary 0 text.toList (Text.width text.toList) :=
    ⟨text.toList, List.prefix_refl _, (Nat.zero_add _).symm⟩
  have hopened := List.append_nil ((Event.ofText text.toList).foldl Builder.apply .empty).opened
  exact (hb.leave hopened.symm (Nat.le_refl _) hend).faithful rfl _

end ProjectSense
