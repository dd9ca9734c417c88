import ProjectSense.Proofs.Markup.Links

/-!
# Attributes have names

An attribute is read only where a name starts, so no attribute of a document is without one.

* `Builder.AllAttributes`: a property of all attributes; `Builder.AllAttributes.apply`: what an event
  keeps of it.
* `Tree.attribute_name_ne`: the attributes of every document have names.
-/

namespace ProjectSense

/-- the attributes of the element that a node is -/
def Node.attributes (n : Node) : List Attribute :=
  (n.element?.map (·.attributes.toList)).getD []

namespace Builder

variable {P : Attribute → Prop} {nodes : Array Node} {b : Builder}

/-! ### What is added to the elements -/

/-- all attributes of the nodes have the property -/
def AllAttributes (P : Attribute → Prop) (nodes : Array Node) : Prop :=
  ∀ (i : Nat) (n : Node), nodes[i]? = some n → ∀ a ∈ n.attributes, P a

theorem attributes_empty : AllAttributes P empty.nodes := by
  intro i n hn
  cases hn

/-- a changed node has no attributes but those it had and new ones with the property -/
theorem AllAttributes.modify {change : Node → Node} (h : AllAttributes P nodes) (id : Nat)
    (hc : ∀ n, ∀ a ∈ (change n).attributes, a ∈ n.attributes ∨ P a) :
    AllAttributes P (nodes.modify id change) := by
  intro i n' hn' a ha
  rw [Array.getElem?_modify] at hn'
  split at hn'
  · obtain ⟨n, hn, rfl⟩ := Option.map_eq_some_iff.1 hn'
    exact (hc n a ha).elim (h i n hn a) fun hp => hp
  · exact h i n' hn' a ha

theorem AllAttributes.push {n : Node} (h : AllAttributes P nodes) (hn : ∀ a ∈ n.attributes, P a) :
    AllAttributes P (nodes.push n) := by
  intro i n' hn' a ha
  rw [Array.getElem?_push] at hn'
  split at hn'
  · obtain rfl := Option.some.inj hn'
    exact hn a ha
  · exact h i n' hn' a ha

theorem attributes_changeElement {change : Element → Element}
    (hc : ∀ e, ∀ a ∈ (change e).attributes.toList, a ∈ e.attributes.toList ∨ P a) (n : Node) :
    ∀ a ∈ (changeElement change n).attributes, a ∈ n.attributes ∨ P a := by
  obtain ⟨parent, span, content⟩ := n
  cases content with
  | element e => exact hc e
  | text raw => exact fun a ha => .inl ha

/-! ### Events -/

theorem AllAttributes.pushNode {span : Span} {content : Content} (h : AllAttributes P b.nodes)
    (hc : ∀ a ∈ (⟨b.opened.head?, span, content⟩ : Node).attributes, P a) :
    AllAttributes P (b.push span content).nodes := by
  unfold Builder.push
  split
  · next parent outer ho =>
    refine AllAttributes.push (h.modify parent ?_) hc
    exact attributes_changeElement fun e a ha => .inl ha
  · exact AllAttributes.push h hc

theorem AllAttributes.changeInnermost {change : Element → Element} (h : AllAttributes P b.nodes)
    (pos : Nat) (hc : ∀ e, ∀ a ∈ (change e).attributes.toList, a ∈ e.attributes.toList ∨ P a) :
    AllAttributes P (b.changeInnermost pos change).nodes := by
  unfold Builder.changeInnermost
  split
  · exact h
  · next id outer ho =>
    refine h.modify id ?_
    exact attributes_changeElement fun e => hc { e with startTag := e.startTag.coverOffset pos }

theorem AllAttributes.abandon (h : AllAttributes P nodes) (pos : Nat) (ids : List Nat) :
    AllAttributes P (abandon pos ids nodes) := by
  induction ids generalizing nodes with
  | nil => exact h
  | cons id ids ih => exact ih (h.modify id fun n a ha => .inl ha)

theorem AllAttributes.close (h : AllAttributes P b.nodes) (name : String) (tag : Span) :
    AllAttributes P (b.close name tag).nodes := by
  unfold Builder.close
  split
  · exact h
  · next id outer ho =>
    refine AllAttributes.modify (h.abandon tag.start _) id ?_
    exact attributes_changeElement fun e a ha => .inl ha

/-- an event adds no attribute but its own -/
theorem AllAttributes.apply {event : Event} (h : AllAttributes P b.nodes)
    (he : ∀ a, event = .attr a → P a) : AllAttributes P (b.apply event).nodes := by
  cases event with
  | start name nameSpan pos => exact h.pushNode (by simp [Node.attributes, Node.element?])
  | attr a =>
    refine h.changeInnermost a.span.stop fun e a' ha' => ?_
    rcases List.mem_append.1 (Array.toList_push ▸ ha') with ha' | ha'
    · exact .inl ha'
    · obtain rfl := List.mem_singleton.1 ha'
      exact .inr (he a' rfl)
  | endStart pos selfClosing =>
    have hended : AllAttributes P (b.changeInnermost pos fun e =>
        { e with startTagClosed := true, selfClosing := selfClosing }).nodes :=
      h.changeInnermost pos fun e a ha => .inl ha
    cases selfClosing <;> exact hended
  | extend pos => exact h.changeInnermost pos fun e a ha => .inl ha
  | text raw span => exact h.pushNode (by simp [Node.attributes, Node.element?])
  | close name span => exact h.close name span

theorem AllAttributes.foldl {events : List Event} (h : AllAttributes P b.nodes)
    (he : ∀ a, .attr a ∈ events → P a) : AllAttributes P (events.foldl Builder.apply b).nodes := by
  induction events generalizing b with
  | nil => exact h
  | cons event events ih =>
    refine ih (h.apply fun a ha => he a (ha ▸ List.mem_cons_self)) fun a ha => ?_
    exact he a (List.mem_cons_of_mem event ha)

end Builder

/-! ### Attributes that are read -/

namespace Cursor

variable {c : Cursor} {a : Attribute}

theorem ReadsAttribute.name_eq {r : Attribute × Cursor} (h : c.ReadsAttribute r) :
    r.1.name = c.name.1.1 := by
  cases h <;> rfl

theorem name_ne_of_starts {first : Char} {rest : List Char} (h : c.rest = first :: rest)
    (hs : startsName first = true) : c.name.1.1 ≠ "" := by
  rw [name_of_starts h hs]
  exact fun h => List.cons_ne_nil _ _ (String.ofList_eq_empty_iff.1 h)

theorem attribute_of_tagBody (h : .attr a ∈ c.tagBody.1) : a.name ≠ "" := by
  fun_induction tagBody c with
  | case1 | case2 | case3 | case4 => simp at h
  | case5 c pos first rest _ _ _ _ _ hs read after hread _ more ih =>
    rcases List.mem_cons.1 h with h | h
    · obtain rfl := Event.attr.inj h
      have hname := (hread ▸ readAttribute_cases ⟨pos, first :: rest⟩).name_eq
      rw [hname]
      exact name_ne_of_starts rfl hs
    · exact ih h
  | case6 _ _ _ _ _ _ _ _ _ _ ih => exact ih h

theorem attribute_of_construct (h : .attr a ∈ c.construct.1) : a.name ≠ "" := by
  unfold construct at h
  split at h
  · simp at h
  split at h
  · simp [literal] at h
  split at h
  · simp at h
  split at h
  · simp [closingTag] at h
  · rcases List.mem_cons.1 h with h | h
    · cases h
    · exact attribute_of_tagBody h

theorem attribute_not_mem_textEvent (pos : Nat) (raw : List Char) :
    .attr a ∉ textEvent pos raw := by
  unfold textEvent
  split <;> simp

theorem attribute_of_events (h : .attr a ∈ c.events) : a.name ≠ "" := by
  fun_induction events c with
  | case1 c raw next _ _ => exact absurd h (attribute_not_mem_textEvent c.pos raw)
  | case2 c raw next _ _ _ _ ih =>
    rcases List.mem_append.1 h with h | h
    · rcases List.mem_append.1 h with h | h
      · exact absurd h (attribute_not_mem_textEvent c.pos raw)
      · exact attribute_of_construct h
    · exact ih h

end Cursor

theorem Tree.attribute_name_ne {text : String} {id : Nat} {e : Element} {a : Attribute}
    (he : (Tree.parse text).element? id = some e) (ha : a ∈ e.attributes.toList) :
    a.name ≠ "" := by
  have hread : Builder.AllAttributes (·.name ≠ "")
      ((Event.ofText text.toList).foldl Builder.apply .empty).nodes :=
    Builder.attributes_empty.foldl fun a ha => Cursor.attribute_of_events ha
  obtain ⟨n, hn, hne⟩ := Option.bind_eq_some_iff.1 he
  refine hread.abandon (Text.width text.toList) _ id n hn a ?_
  rw [Node.attributes, hne]
  exact ha

end ProjectSense
