import ProjectSense.Proofs.Markup.Preorder

/-!
# The outline of a tree

What a document says apart from its texts and from where things stand: the elements in document
order, each with the place of the element around it in that order, its name, its attributes and how
it ends.  The outline is built from the tags alone.

* `Builder.draft_apply`: what an event does to the outline that was reached.
* `Tree.outline_ofEvents`: events with the same marks give trees of the same outline.
-/

namespace ProjectSense

/-- an element without its places; `parent` is the place of the element around it in the outline -/
structure Heading where
  parent : Option Nat
  name : String
  /-- names and values in order, and whether the value ended with its quote -/
  attributes : List (String × Option String × Bool)
  startTagClosed : Bool
  selfClosing : Bool
  /-- has a closing tag of its own -/
  closed : Bool
deriving DecidableEq, Repr

def Element.heading (parent : Option Nat) (e : Element) : Heading :=
  ⟨parent, e.name, e.attributes.toList.map fun a => (a.name, a.value, a.closed),
    e.startTagClosed, e.selfClosing, e.closingTag.isSome⟩

/-- the heading of a node that is an element; `rank` tells the place of its parent -/
def Node.heading? (rank : Nat → Nat) (n : Node) : Option Heading :=
  n.element?.map (·.heading (n.parent.map rank))

/-- the number of elements before the node -/
def rank (nodes : List Node) (id : Nat) : Nat := (nodes.take id).countP (·.element?.isSome)

def outlineOf (nodes : List Node) : List Heading := nodes.filterMap (Node.heading? (rank nodes))

/-- the elements of the tree in document order, without their places in the text -/
def Tree.outline (t : Tree) : List Heading := outlineOf t.nodes.toList

/-! ### Building an outline -/

/-- what an event tells of the elements -/
inductive Mark where
  | start (name : String)
  | attr (name : String) (value : Option String) (closed : Bool)
  | endStart (selfClosing : Bool)
  | close (name : String)
deriving DecidableEq, Repr

def Event.mark? : Event → Option Mark
  | .start name _ _ => some (.start name)
  | .attr a => some (.attr a.name a.value a.closed)
  | .endStart _ selfClosing => some (.endStart selfClosing)
  | .extend _ => none
  | .text _ _ => none
  | .close name _ => some (.close name)

/-- the outline so far and the places of the elements still open, the innermost first -/
structure Draft where
  headings : List Heading
  opened : List Nat
deriving DecidableEq, Repr

namespace Draft

def empty : Draft := ⟨[], []⟩

def isNamed (d : Draft) (name : String) (k : Nat) : Bool := d.headings[k]?.any (·.name = name)

def start (d : Draft) (name : String) : Draft :=
  ⟨d.headings ++ [⟨d.opened.head?, name, [], false, false, false⟩], d.headings.length :: d.opened⟩

def changeInnermost (d : Draft) (change : Heading → Heading) : Draft :=
  match d.opened with
  | [] => d
  | k :: _ => { d with headings := d.headings.modify k change }

def endInnermost (d : Draft) : Draft := { d with opened := d.opened.tail }

/-- closes the innermost open element of the name, if there is one -/
def close (d : Draft) (name : String) : Draft :=
  match d.opened.dropWhile fun k => !d.isNamed name k with
  | [] => d
  | k :: outer => ⟨d.headings.modify k fun e => { e with closed := true }, outer⟩

def apply (d : Draft) : Mark → Draft
  | .start name => d.start name
  | .attr name value closed =>
    d.changeInnermost fun e => { e with attributes := e.attributes ++ [(name, value, closed)] }
  | .endStart selfClosing =>
    let ended := d.changeInnermost fun e =>
      { e with startTagClosed := true, selfClosing := selfClosing }
    if selfClosing then ended.endInnermost else ended
  | .close name => d.close name

theorem changeInnermost_id (d : Draft) : d.changeInnermost id = d := by
  unfold changeInnermost
  split
  · rfl
  · rw [List.modify_id]

end Draft

/-! ### Lists that leave elements out -/

section Lists

variable {α β : Type} {g : α → Option β} {change : α → α} {change' : β → β} {p : α → Bool}

theorem countP_modify (hc : ∀ x, p (change x) = p x) (xs : List α) (i : Nat) :
    (xs.modify i change).countP p = xs.countP p := by
  induction xs generalizing i with
  | nil => simp
  | cons x xs ih =>
    cases i with
    | zero => simp [List.countP_cons, hc]
    | succ i => simp [List.countP_cons, ih]

/-- a change that the kept part does not show -/
theorem filterMap_modify_same (hc : ∀ x, g (change x) = g x) (xs : List α) (i : Nat) :
    (xs.modify i change).filterMap g = xs.filterMap g := by
  induction xs generalizing i with
  | nil => simp
  | cons x xs ih =>
    cases i with
    | zero => simp [List.filterMap_cons, hc]
    | succ i => simp [List.filterMap_cons, ih]

/-- what is kept stands at the number of those kept before it -/
theorem getElem?_filterMap_rank {xs : List α} {i : Nat} {x : α} {y : β} (hx : xs[i]? = some x)
    (hy : g x = some y) : (xs.filterMap g)[(xs.take i).countP fun x => (g x).isSome]? = some y := by
  induction xs generalizing i with
  | nil => cases hx
  | cons z xs ih =>
    cases i with
    | zero =>
      obtain rfl := Option.some.inj hx
      simp [hy]
    | succ i =>
      have key := ih (i := i) (by simpa using hx)
      cases hz : g z with
      | none => simpa [hz] using key
      | some w => simpa [hz] using key

theorem filterMap_modify (hc : ∀ x, g (change x) = (g x).map change') {xs : List α} {i : Nat}
    {x : α} {y : β} (hx : xs[i]? = some x) (hy : g x = some y) :
    (xs.modify i change).filterMap g =
      (xs.filterMap g).modify ((xs.take i).countP fun x => (g x).isSome) change' := by
  induction xs generalizing i with
  | nil => cases hx
  | cons z xs ih =>
    cases i with
    | zero =>
      obtain rfl := Option.some.inj hx
      simp [hc, hy]
    | succ i =>
      have key := ih (i := i) (by simpa using hx)
      cases hz : g z with
      | none => simpa [hz] using key
      | some w => simpa [hz] using key

theorem dropWhile_congr {p q : α → Bool} {xs : List α} (h : ∀ x ∈ xs, p x = q x) :
    xs.dropWhile p = xs.dropWhile q := by
  induction xs with
  | nil => rfl
  | cons x xs ih =>
    rw [List.dropWhile_cons, List.dropWhile_cons, h x List.mem_cons_self,
      ih fun y hy => h y (List.mem_cons_of_mem x hy)]

end Lists

/-! ### Outlines of nodes -/

variable {nodes : List Node} {n : Node} {id : Nat} {change : Node → Node} {r r' : Nat → Nat}

theorem Node.isSome_heading? (r : Nat → Nat) (n : Node) :
    (n.heading? r).isSome = n.element?.isSome := Option.isSome_map

theorem rank_eq (r : Nat → Nat) (nodes : List Node) (id : Nat) :
    rank nodes id = (nodes.take id).countP fun n => (n.heading? r).isSome := by
  simp only [rank, Node.isSome_heading?]

theorem Node.heading?_congr (h : ∀ p ∈ n.parent, r p = r' p) : n.heading? r = n.heading? r' := by
  rw [Node.heading?, Node.heading?, Option.map_congr h]

/-- a node keeps its rank while elements stay elements -/
theorem rank_modify (hc : ∀ n, (change n).element?.isSome = n.element?.isSome)
    (nodes : List Node) (id : Nat) : rank (nodes.modify id change) = rank nodes := by
  funext i
  rw [rank, List.take_modify, countP_modify hc, rank]

theorem rank_concat (n : Node) (h : id ≤ nodes.length) :
    rank (nodes ++ [n]) id = rank nodes id := by
  rw [rank, List.take_append_of_le_length h, rank]

theorem rank_length (nodes : List Node) : rank nodes nodes.length = (outlineOf nodes).length := by
  rw [rank_eq (rank nodes), List.take_length, outlineOf, List.length_filterMap_eq_countP]

theorem getElem?_outlineOf {e : Heading} (hn : nodes[id]? = some n)
    (he : n.heading? (rank nodes) = some e) : (outlineOf nodes)[rank nodes id]? = some e := by
  have key := getElem?_filterMap_rank hn he
  rwa [← rank_eq] at key

/-- a change that no heading shows -/
theorem outlineOf_modify_same (hc : ∀ r n, (change n).heading? r = n.heading? r)
    (nodes : List Node) (id : Nat) :
    outlineOf (nodes.modify id change) = outlineOf nodes ∧
      rank (nodes.modify id change) = rank nodes := by
  have hr : rank (nodes.modify id change) = rank nodes := by
    refine rank_modify (fun n => ?_) nodes id
    rw [← Node.isSome_heading? (rank nodes), hc, Node.isSome_heading?]
  rw [outlineOf, hr, filterMap_modify_same (hc _), outlineOf]
  exact ⟨rfl, rfl⟩

/-- a changed element changes in the outline -/
theorem outlineOf_modify {change' : Heading → Heading}
    (hc : ∀ r n, (change n).heading? r = (n.heading? r).map change') (hn : nodes[id]? = some n)
    (he : n.element?.isSome) :
    outlineOf (nodes.modify id change) = (outlineOf nodes).modify (rank nodes id) change' ∧
      rank (nodes.modify id change) = rank nodes := by
  have hr : rank (nodes.modify id change) = rank nodes := by
    refine rank_modify (fun n => ?_) nodes id
    rw [← Node.isSome_heading? (rank nodes), hc, Option.isSome_map, Node.isSome_heading?]
  obtain ⟨e, he⟩ := Option.isSome_iff_exists.1 ((n.isSome_heading? (rank nodes)).trans he)
  rw [outlineOf, hr, filterMap_modify (hc _) hn he, ← rank_eq, outlineOf]
  exact ⟨rfl, rfl⟩

theorem outlineOf_concat (hl : ∀ m ∈ nodes, ∀ p ∈ m.parent, p ≤ nodes.length)
    (hn : ∀ p ∈ n.parent, p ≤ nodes.length) :
    outlineOf (nodes ++ [n]) = outlineOf nodes ++ (n.heading? (rank nodes)).toList := by
  have hsame : ∀ m : Node, (∀ p ∈ m.parent, p ≤ nodes.length) →
      m.heading? (rank (nodes ++ [n])) = m.heading? (rank nodes) := by
    intro m hm
    exact Node.heading?_congr fun p hp => rank_concat n (hm p hp)
  rw [outlineOf, List.filterMap_append, List.filterMap_congr fun m hm => hsame m (hl m hm),
    outlineOf]
  cases h : n.heading? (rank nodes) <;> simp [hsame n hn, h]

/-! ### Events -/

namespace Builder

variable {b : Builder} {span : Span} {pos : Nat}

/-- the outline that was reached -/
def draft (b : Builder) : Draft :=
  ⟨outlineOf b.nodes.toList, b.opened.map (rank b.nodes.toList)⟩

theorem heading?_reach (pos : Nat) (r : Nat → Nat) (n : Node) :
    (reach pos n).heading? r = n.heading? r := rfl

theorem heading?_changeElement {change : Element → Element} {change' : Heading → Heading}
    (hc : ∀ parent e, (change e).heading parent = change' (e.heading parent)) (r : Nat → Nat)
    (n : Node) : (changeElement change n).heading? r = (n.heading? r).map change' := by
  obtain ⟨parent, span, content⟩ := n
  cases content with
  | element e => exact congrArg some (hc (parent.map r) e)
  | text raw => rfl

theorem heading?_adoptNode (child : Nat) (r : Nat → Nat) (n : Node) :
    (adoptNode child n).heading? r = n.heading? r := by
  obtain ⟨parent, span, content⟩ := n
  cases content <;> rfl

theorem heading?_changeNode {change : Element → Element} {change' : Heading → Heading}
    (hc : ∀ parent e, (change e).heading parent = change' (e.heading parent)) (pos : Nat)
    (r : Nat → Nat) (n : Node) :
    (changeNode pos change n).heading? r = (n.heading? r).map change' :=
  @heading?_changeElement (fun e => change { e with startTag := e.startTag.coverOffset pos })
    change' (fun parent _ => hc parent _) r n

theorem heading?_closeNode (tag : Span) (r : Nat → Nat) (n : Node) :
    (closeNode tag n).heading? r = (n.heading? r).map fun e => { e with closed := true } :=
  @heading?_changeElement (fun e => { e with closingTag := some tag })
    (fun e => { e with closed := true }) (fun _ _ => rfl) r n

theorem Linked.parent_le (h : b.Linked) : ∀ m ∈ b.nodes.toList, ∀ p ∈ m.parent,
    p ≤ b.nodes.toList.length := by
  intro m hm p hp
  obtain ⟨i, hi⟩ := List.mem_iff_getElem?.1 hm
  rw [Array.getElem?_toList] at hi
  have hpar : b.tree.parent? i = some p := (Tree.parent?_of_node? (t := b.tree) hi).trans hp
  have h1 := h.tree.parent_lt hpar
  have h2 := Tree.lt_size_of_parent? hpar
  rw [Array.length_toList]
  exact Nat.le_of_lt (Nat.lt_trans h1 h2)

theorem Linked.node_of_open (h : b.Linked) {i : Nat} (hi : i ∈ b.opened) :
    ∃ n, b.nodes.toList[i]? = some n ∧ n.element?.isSome = true := by
  obtain ⟨n, hn⟩ := Tree.node?_of_lt (t := b.tree) (h.opened.lt_size hi)
  obtain ⟨e, he, -⟩ := h.element_of_open hi hn
  exact ⟨n, Array.getElem?_toList.trans hn, by simp [Node.element?, he]⟩

theorem Linked.head_le (h : b.Linked) : ∀ p ∈ b.opened.head?, p ≤ b.nodes.toList.length := by
  intro p hp
  rw [Array.length_toList]
  exact Nat.le_of_lt (head?_lt_size h hp)

/-- an element in whose children a node is put says the same of itself -/
theorem outlineOf_adopt (b : Builder) : outlineOf b.adopt.toList = outlineOf b.nodes.toList ∧
    rank b.adopt.toList = rank b.nodes.toList := by
  unfold adopt
  split
  · rw [Array.toList_modify]
    exact outlineOf_modify_same (heading?_adoptNode b.nodes.size) _ _
  · exact ⟨rfl, rfl⟩

theorem outlineOf_add (h : b.Linked) (span : Span) (content : Content) (opens : Bool) :
    outlineOf (b.add span content opens).nodes.toList = outlineOf b.nodes.toList ++
      ((⟨b.opened.head?, span, content⟩ : Node).heading? (rank b.nodes.toList)).toList := by
  have hlen : b.adopt.toList.length = b.nodes.toList.length := by simp
  have hold : ∀ m ∈ b.adopt.toList, ∀ p ∈ m.parent, p ≤ b.adopt.toList.length := by
    intro m hm p hp
    obtain ⟨i, hi⟩ := List.mem_iff_getElem?.1 hm
    rw [Array.getElem?_toList, getElem?_adopt] at hi
    rw [hlen]
    split at hi
    · obtain ⟨m', hm', rfl⟩ := Option.map_eq_some_iff.1 hi
      rw [parent_adoptNode] at hp
      exact h.parent_le m' (List.mem_iff_getElem?.2 ⟨i, by rw [Array.getElem?_toList, hm']⟩) p hp
    · exact h.parent_le m (List.mem_iff_getElem?.2 ⟨i, by rw [Array.getElem?_toList, hi]⟩) p hp
  rw [add, Array.toList_push, outlineOf_concat hold (hlen ▸ h.head_le), (outlineOf_adopt b).1,
    (outlineOf_adopt b).2]

theorem rank_add (span : Span) (content : Content) (opens : Bool) {i : Nat}
    (hi : i ≤ b.nodes.size) :
    rank (b.add span content opens).nodes.toList i = rank b.nodes.toList i := by
  rw [add, Array.toList_push, rank_concat _ (by simpa using hi), (outlineOf_adopt b).2]

theorem map_rank_add (h : b.Linked) (span : Span) (content : Content) (opens : Bool) :
    b.opened.map (rank (b.add span content opens).nodes.toList) =
      b.opened.map (rank b.nodes.toList) :=
  List.map_congr_left fun _ hi => rank_add span content opens (Nat.le_of_lt (h.opened.lt_size hi))

theorem draft_text (h : b.Linked) (raw : String) (span : Span) :
    (b.push span (.text raw)).draft = b.draft := by
  rw [push_eq_add, draft, outlineOf_add h]
  exact Draft.mk.injEq .. ▸ ⟨List.append_nil _, map_rank_add h span (.text raw) false⟩

theorem draft_start (h : b.Linked) (name : String) (nameSpan : Span) (pos : Nat) :
    (b.start name nameSpan pos).draft = b.draft.start name := by
  rw [start_eq_add, draft, outlineOf_add h, Draft.start]
  refine Draft.mk.injEq .. ▸ ⟨?_, ?_⟩
  · simp [draft, Node.heading?, Node.element?, Element.heading, List.head?_map]
  · change rank _ b.nodes.size :: b.opened.map (rank _) = _
    rw [map_rank_add h, rank_add _ _ _ (Nat.le_refl _), ← Array.length_toList, rank_length]
    rfl

theorem draft_changeInnermost (h : b.Linked) {change : Element → Element}
    {change' : Heading → Heading} (pos : Nat)
    (hc : ∀ parent e, (change e).heading parent = change' (e.heading parent)) :
    (b.changeInnermost pos change).draft = b.draft.changeInnermost change' := by
  cases ho : b.opened with
  | nil => simp [Builder.changeInnermost, Draft.changeInnermost, draft, ho]
  | cons id outer =>
    have hmem : id ∈ b.opened := ho ▸ List.mem_cons_self
    obtain ⟨n, hn, he⟩ := h.node_of_open hmem
    obtain ⟨hheadings, hrank⟩ := outlineOf_modify (heading?_changeNode hc pos) hn he
    have hnodes : (b.changeInnermost pos change).nodes.toList =
        b.nodes.toList.modify id (changeNode pos change) := by
      simp only [Builder.changeInnermost, ho, Array.toList_modify]
      rfl
    have hopened : (b.changeInnermost pos change).opened = id :: outer := by
      simp only [Builder.changeInnermost, ho]
    rw [draft, hnodes, hopened, hrank, hheadings]
    simp [Draft.changeInnermost, draft, ho]

/-- an open element has its name in the outline -/
theorem isNamed_draft (h : b.Linked) (name : String) {i : Nat} (hi : i ∈ b.opened) :
    b.draft.isNamed name (rank b.nodes.toList i) = b.isNamed name i := by
  obtain ⟨n, hn, he⟩ := h.node_of_open hi
  obtain ⟨e, he⟩ := Option.isSome_iff_exists.1 he
  have hheading : n.heading? (rank b.nodes.toList) =
      some (e.heading (n.parent.map (rank b.nodes.toList))) := by
    rw [Node.heading?, he]
    rfl
  rw [Draft.isNamed, draft, getElem?_outlineOf hn hheading, isNamed, ← Array.getElem?_toList, hn]
  simp [he, Element.heading]

theorem outlineOf_abandon (pos : Nat) (ids : List Nat) (nodes : Array Node) :
    outlineOf (abandon pos ids nodes).toList = outlineOf nodes.toList ∧
      rank (abandon pos ids nodes).toList = rank nodes.toList := by
  induction ids generalizing nodes with
  | nil => exact ⟨rfl, rfl⟩
  | cons id ids ih =>
    obtain ⟨h1, h2⟩ := ih (nodes.modify id (reach pos))
    rw [Array.toList_modify] at h1 h2
    obtain ⟨h3, h4⟩ := outlineOf_modify_same (heading?_reach pos) nodes.toList id
    exact ⟨h1.trans h3, h2.trans h4⟩

theorem draft_close (h : b.Linked) (name : String) (tag : Span) :
    (b.close name tag).draft = b.draft.close name := by
  have hdrop : (b.draft.opened.dropWhile fun k => !b.draft.isNamed name k) =
      (b.opened.dropWhile fun id => !b.isNamed name id).map (rank b.nodes.toList) := by
    change (b.opened.map (rank b.nodes.toList)).dropWhile _ = _
    rw [List.dropWhile_map]
    refine congrArg (List.map _) (dropWhile_congr fun i hi => ?_)
    rw [Function.comp_apply, isNamed_draft h name hi]
  rw [Draft.close, hdrop, Builder.close]
  cases hd : b.opened.dropWhile fun id => !b.isNamed name id with
  | nil => rfl
  | cons id outer =>
    have hmem : id ∈ b.opened :=
      (List.dropWhile_suffix _).subset (hd ▸ List.mem_cons_self : id ∈ List.dropWhile _ b.opened)
    obtain ⟨n, hn, he⟩ := h.node_of_open hmem
    obtain ⟨h1, h2⟩ := outlineOf_abandon tag.start
      (b.opened.takeWhile fun id => !b.isNamed name id) b.nodes
    obtain ⟨n', hn', he'⟩ : ∃ n', (abandon tag.start
        (b.opened.takeWhile fun id => !b.isNamed name id) b.nodes).toList[id]? = some n' ∧
          n'.element?.isSome = true := by
      rw [Array.getElem?_toList] at hn
      rw [Array.getElem?_toList, getElem?_abandon, hn]
      split
      · exact ⟨_, rfl, he⟩
      · exact ⟨_, rfl, he⟩
    obtain ⟨h3, h4⟩ := outlineOf_modify (heading?_closeNode tag) hn' he'
    rw [h1, h2] at h3
    rw [h2] at h4
    simp only [draft, Array.toList_modify]
    exact Draft.mk.injEq .. ▸ ⟨h3, congrArg (fun r => outer.map r) h4⟩

theorem opened_changeInnermost (b : Builder) (pos : Nat) (change : Element → Element) :
    (b.changeInnermost pos change).opened = b.opened := by
  unfold Builder.changeInnermost
  split <;> rfl

theorem draft_endInnermost (b : Builder) :
    b.draft.endInnermost = ({ b with opened := b.opened.tail } : Builder).draft := by
  rw [Draft.endInnermost, draft, draft, List.map_tail]

/-- an event changes the outline as its mark tells -/
theorem draft_apply (h : b.Linked) (event : Event) :
    (b.apply event).draft = event.mark?.elim b.draft b.draft.apply := by
  cases event with
  | start name nameSpan pos => exact draft_start h name nameSpan pos
  | attr a =>
    refine draft_changeInnermost h a.span.stop fun parent e => ?_
    simp [Element.heading]
  | endStart pos selfClosing =>
    have hended : (b.changeInnermost pos fun e =>
        { e with startTagClosed := true, selfClosing := selfClosing }).draft =
        b.draft.changeInnermost fun e =>
          { e with startTagClosed := true, selfClosing := selfClosing } :=
      draft_changeInnermost h pos fun _ _ => rfl
    cases selfClosing with
    | false => exact hended
    | true =>
      -- the innermost element is changed first and then no longer open
      have htail := congrArg Draft.endInnermost hended
      rwa [draft_endInnermost, opened_changeInnermost] at htail
  | extend pos =>
    have hkept := @draft_changeInnermost b h id id pos fun _ _ => rfl
    exact hkept.trans b.draft.changeInnermost_id
  | text raw span => exact draft_text h raw span
  | close name span => exact draft_close h name span

theorem draft_foldl (h : b.Linked) (events : List Event) :
    (events.foldl Builder.apply b).draft =
      (events.filterMap Event.mark?).foldl Draft.apply b.draft := by
  induction events generalizing b with
  | nil => rfl
  | cons event events ih =>
    rw [List.foldl_cons, ih (h.apply event), draft_apply h, List.filterMap_cons]
    cases event.mark? <;> rfl

end Builder

/-- the outline of a tree is built from the marks of its events -/
theorem Tree.outline_ofEvents (events : List Event) (width : Nat) :
    (Tree.ofEvents events width).outline =
      ((events.filterMap Event.mark?).foldl Draft.apply .empty).headings := by
  have hfold := Builder.draft_foldl Builder.linked_empty events
  have hempty : Builder.empty.draft = .empty := rfl
  rw [hempty] at hfold
  rw [← hfold]
  exact (Builder.outlineOf_abandon width _ _).1

end ProjectSense
