import ProjectSense.Proofs.Markup.Part

/-!
# Links of a tree

Parents and children of the nodes tell the same story: a node stands among the children of its
parent, children and roots stand in document order, and the open elements are those around the
place that was reached.

* `Builder.Linked.put`: every part keeps the links in agreement.
* `Tree.linked_parse`: the links of every document agree.
-/

namespace ProjectSense

namespace Tree

/-- parents and children agree, and both are in document order -/
structure Linked (t : Tree) : Prop where
  parent_lt : ∀ {id q}, t.parent? id = some q → q < id
  mem_children : ∀ {id child}, child ∈ t.children id ↔ t.parent? child = some id
  children_ordered : ∀ id, (t.children id).Pairwise (· < ·)
  mem_roots : ∀ {id}, id ∈ t.roots.toList ↔ id < t.nodes.size ∧ t.parent? id = none
  roots_ordered : t.roots.toList.Pairwise (· < ·)

variable {t : Tree} {id q : Nat} {n : Node}

theorem lt_size_of_node? (h : t.node? id = some n) : id < t.nodes.size :=
  (Array.getElem?_eq_some_iff.1 h).1

theorem node?_of_lt (h : id < t.nodes.size) : ∃ n, t.node? id = some n :=
  ⟨t.nodes[id], Array.getElem?_eq_getElem h⟩

theorem parent?_of_node? (h : t.node? id = some n) : t.parent? id = n.parent := by
  rw [parent?, h]; rfl

theorem element?_of_node? (h : t.node? id = some n) : t.element? id = n.element? := by
  rw [element?, h]; rfl

theorem text?_of_node? (h : t.node? id = some n) : t.text? id = n.text? := by
  rw [text?, h]; rfl

theorem node?_of_parent? (h : t.parent? id = some q) :
    ∃ n, t.node? id = some n ∧ n.parent = some q := by
  rw [parent?] at h
  exact Option.bind_eq_some_iff.1 h

theorem lt_size_of_parent? (h : t.parent? id = some q) : id < t.nodes.size := by
  obtain ⟨n, hn, -⟩ := node?_of_parent? h
  exact lt_size_of_node? hn

end Tree

/-- the ids of what an element holds -/
def Node.children (n : Node) : List Nat := (n.element?.map (·.children.toList)).getD []

theorem Tree.children_of_node? {t : Tree} {id : Nat} {n : Node} (h : t.node? id = some n) :
    t.children id = n.children := by
  rw [Tree.children, Tree.element?, h]; rfl

theorem Tree.children_of_none {t : Tree} {id : Nat} (h : t.node? id = none) :
    t.children id = [] := by
  rw [Tree.children, Tree.element?, h]; rfl

namespace Builder

/-- the nodes so far as a tree -/
def tree (b : Builder) : Tree := ⟨b.nodes, b.roots, 0⟩

/-- `id` is an open element under `parent` -/
def OpenUnder (nodes : Array Node) (parent : Option Nat) (id : Nat) : Prop :=
  ∃ n e, nodes[id]? = some n ∧ n.content = .element e ∧ n.parent = parent ∧ e.isClosed = false

/-- each of the elements is open under the next, and the last one at the top -/
def Open (nodes : Array Node) : List Nat → Prop
  | [] => True
  | id :: outer => OpenUnder nodes outer.head? id ∧ Open nodes outer

/-- the links so far agree, the open elements are nested, and each is the last one at its place -/
structure Linked (b : Builder) : Prop where
  tree : b.tree.Linked
  opened : Open b.nodes b.opened
  last : ∀ id ∈ b.opened, ∀ c, id < c → c < b.nodes.size → b.tree.parent? c ≠ b.tree.parent? id

/-! ### What the operations do to a node -/

/-- the node with its closing tag -/
def closeNode (tag : Span) (n : Node) : Node :=
  { changeElement (fun e => { e with closingTag := some tag }) n with span := n.span.cover tag }

theorem getElem?_abandon (pos : Nat) (ids : List Nat) (nodes : Array Node) (i : Nat) :
    (abandon pos ids nodes)[i]? = if i ∈ ids then (nodes[i]?).map (reach pos) else nodes[i]? := by
  induction ids generalizing nodes with
  | nil => simp [abandon]
  | cons id ids ih =>
    have hidem : ∀ n, reach pos (reach pos n) = reach pos n := by
      intro n
      simp [reach, Span.coverOffset]
    have hcons : abandon pos (id :: ids) nodes =
        abandon pos ids (nodes.modify id (reach pos)) := rfl
    rw [hcons, ih, Array.getElem?_modify]
    by_cases h1 : id = i <;> by_cases h2 : i ∈ ids <;>
      simp [h1, h2, Ne.symm, Function.comp_def, hidem]

@[simp] theorem size_abandon (pos : Nat) (ids : List Nat) (nodes : Array Node) :
    (abandon pos ids nodes).size = nodes.size := by
  induction ids generalizing nodes with
  | nil => rfl
  | cons id ids ih => exact (ih _).trans Array.size_modify

/-- the builder with the inner ones of the open elements left open for good -/
def leave (b : Builder) (pos : Nat) (inner outer : List Nat) : Builder :=
  ⟨abandon pos inner b.nodes, b.roots, outer⟩

/-- the builder with an element closed, those around it still open -/
def closeTop (b : Builder) (id : Nat) (outer : List Nat) (tag : Span) : Builder :=
  ⟨b.nodes.modify id (closeNode tag), b.roots, outer⟩

/-- a closing tag either finds no element or closes one, which ends those inside it -/
theorem close_cases (b : Builder) (name : String) (tag : Span) :
    b.close name tag = b ∨ ∃ inner id outer, b.opened = inner ++ id :: outer ∧
      b.isNamed name id = true ∧ (∀ i ∈ inner, b.isNamed name i = false) ∧
      b.close name tag = (b.leave tag.start inner (id :: outer)).closeTop id outer tag := by
  unfold close
  split
  · exact Or.inl rfl
  · next id outer h =>
    refine Or.inr ⟨b.opened.takeWhile fun id => !b.isNamed name id, id, outer, ?_, ?_, ?_, rfl⟩
    · rw [← h, List.takeWhile_append_dropWhile]
    · have := List.head?_dropWhile_not (fun id => !b.isNamed name id) b.opened
      rw [h] at this
      simpa using this
    · intro i hi
      simpa using List.all_eq_true.1 (List.all_takeWhile (p := fun id => !b.isNamed name id)) i hi

theorem getElem?_leave (b : Builder) (pos : Nat) (inner outer : List Nat) (i : Nat) :
    (b.leave pos inner outer).nodes[i]? =
      if i ∈ inner then (b.nodes[i]?).map (reach pos) else b.nodes[i]? :=
  getElem?_abandon pos inner b.nodes i

theorem getElem?_closeTop (b : Builder) (id : Nat) (outer : List Nat) (tag : Span) (i : Nat) :
    (b.closeTop id outer tag).nodes[i]? =
      if id = i then (b.nodes[i]?).map (closeNode tag) else b.nodes[i]? :=
  Array.getElem?_modify

/-- the node with one more child, if it is an element -/
def adoptNode (child : Nat) (n : Node) : Node :=
  changeElement (fun e => { e with children := e.children.push child }) n

theorem getElem?_adopt (b : Builder) (i : Nat) :
    b.adopt[i]? = if b.opened.head? = some i then (b.nodes[i]?).map (adoptNode b.nodes.size)
      else b.nodes[i]? := by
  unfold adopt
  split
  · next parent outer h =>
    rw [Array.getElem?_modify, h]
    by_cases hp : parent = i
    · simp only [hp, List.head?_cons, if_true]
      rfl
    · simp [hp]
  · next h => simp [h]

theorem getElem?_add (b : Builder) (span : Span) (content : Content) (opens : Bool) (i : Nat) :
    (b.add span content opens).nodes[i]? =
      if i = b.nodes.size then some ⟨b.opened.head?, span, content⟩
      else if b.opened.head? = some i then (b.nodes[i]?).map (adoptNode b.nodes.size)
      else b.nodes[i]? := by
  rw [add, Array.getElem?_push, size_adopt, getElem?_adopt]

theorem node?_add_size (b : Builder) (span : Span) (content : Content) (opens : Bool) :
    (b.add span content opens).tree.node? b.nodes.size = some ⟨b.opened.head?, span, content⟩ :=
  (getElem?_add b span content opens b.nodes.size).trans (if_pos rfl)

theorem size_add (b : Builder) (span : Span) (content : Content) (opens : Bool) :
    (b.add span content opens).nodes.size = b.nodes.size + 1 := by
  simp [add]

@[simp] theorem parent_adoptNode (child : Nat) (n : Node) :
    (adoptNode child n).parent = n.parent := by
  unfold adoptNode changeElement
  split <;> rfl

@[simp] theorem span_adoptNode (child : Nat) (n : Node) : (adoptNode child n).span = n.span := by
  unfold adoptNode changeElement
  split <;> rfl

theorem children_adoptNode {n : Node} {e : Element} (child : Nat) (h : n.content = .element e) :
    (adoptNode child n).children = n.children ++ [child] := by
  obtain ⟨parent, span, content⟩ := n
  subst h
  simp [adoptNode, changeElement, Node.children, Node.element?]

/-! ### What a new node does to the links -/

variable {b : Builder} {span : Span} {content : Content} {opens : Bool}

theorem parent?_add (b : Builder) (span : Span) (content : Content) (opens : Bool) (i : Nat) :
    (b.add span content opens).tree.parent? i =
      if i = b.nodes.size then b.opened.head? else b.tree.parent? i := by
  rw [Tree.parent?, Tree.parent?, Tree.node?, Tree.node?]
  rw [show (b.add span content opens).tree.nodes = (b.add span content opens).nodes from rfl,
    getElem?_add]
  split
  · rfl
  split
  · change ((b.nodes[i]?).map (adoptNode b.nodes.size)).bind (·.parent) =
      (b.nodes[i]?).bind (·.parent)
    cases b.nodes[i]? with
    | none => rfl
    | some n => exact parent_adoptNode _ n
  · rfl

theorem Open.head {nodes : Array Node} {opened : List Nat} {top : Nat} (h : Open nodes opened)
    (ht : opened.head? = some top) : ∃ outer, opened = top :: outer ∧
      OpenUnder nodes outer.head? top := by
  obtain ⟨outer, rfl⟩ := List.head?_eq_some_iff.1 ht
  exact ⟨outer, rfl, h.1⟩

theorem children_add (opens : Bool) (h : Open b.nodes b.opened)
    (hc : (⟨b.opened.head?, span, content⟩ : Node).children = []) (i : Nat) :
    (b.add span content opens).tree.children i =
      if i = b.nodes.size then []
      else if b.opened.head? = some i then b.tree.children i ++ [b.nodes.size]
      else b.tree.children i := by
  have hnode : (b.add span content opens).tree.node? i = _ :=
    getElem?_add b span content opens i
  split at hnode
  · next hi => rw [if_pos hi, Tree.children_of_node? hnode, hc]
  · next hi =>
    rw [if_neg hi]
    split at hnode
    · next ht =>
      obtain ⟨outer, -, n, e, hn, he, -⟩ := h.head ht
      rw [hn] at hnode
      rw [if_pos ht, Tree.children_of_node? hnode, Tree.children_of_node? (t := b.tree) hn,
        children_adoptNode _ he]
    · next ht =>
      rw [if_neg ht, Tree.children, Tree.children, Tree.element?, Tree.element?, hnode]
      rfl

theorem Open.openUnder {nodes : Array Node} {opened : List Nat} {i : Nat} (h : Open nodes opened)
    (hi : i ∈ opened) : ∃ parent, OpenUnder nodes parent i := by
  induction opened with
  | nil => cases hi
  | cons id outer ih =>
    rcases List.mem_cons.1 hi with rfl | hi
    · exact ⟨_, h.1⟩
    · exact ih h.2 hi

/-- what is open is an element without a closing tag -/
theorem Linked.element_of_open (h : b.Linked) {i : Nat} {n : Node} (hi : i ∈ b.opened)
    (hn : b.nodes[i]? = some n) : ∃ e, n.content = .element e ∧ e.isClosed = false := by
  obtain ⟨parent, n', e, hn', he, -, hc⟩ := h.opened.openUnder hi
  obtain rfl := Option.some.inj (hn.symm.trans hn')
  exact ⟨e, he, hc⟩

theorem Open.lt_size {nodes : Array Node} {opened : List Nat} {i : Nat} (h : Open nodes opened)
    (hi : i ∈ opened) : i < nodes.size := by
  obtain ⟨parent, n, e, hn, -⟩ := h.openUnder hi
  exact (Array.getElem?_eq_some_iff.1 hn).1

/-- open elements stay nested while their parents, and that they are open, do not change -/
theorem Open.congr {nodes nodes' : Array Node} {opened : List Nat} (h : Open nodes opened)
    (hn : ∀ i ∈ opened, ∀ parent, OpenUnder nodes parent i → OpenUnder nodes' parent i) :
    Open nodes' opened := by
  induction opened with
  | nil => trivial
  | cons id outer ih =>
    exact ⟨hn id (by simp) _ h.1, ih h.2 fun i hi => hn i (List.mem_cons_of_mem _ hi)⟩

theorem Open.outer {nodes : Array Node} {inner outer : List Nat} (h : Open nodes (inner ++ outer)) :
    Open nodes outer := by
  induction inner with
  | nil => exact h
  | cons id inner ih => exact ih h.2

theorem Linked.parent?_of_open (h : b.Linked) {id : Nat} {outer : List Nat}
    (ho : b.opened = id :: outer) : b.tree.parent? id = outer.head? := by
  have hopen := h.opened
  rw [ho] at hopen
  obtain ⟨n, e, hn, -, hp, -⟩ := hopen.1
  rw [Tree.parent?_of_node? (t := b.tree) hn, hp]

/-- the inner ones of the open elements come later -/
theorem Open.ordered {opened : List Nat} {t : Tree}
    (ht : t.Linked) (h : Open t.nodes opened) : opened.Pairwise (· > ·) := by
  induction opened with
  | nil => exact .nil
  | cons id outer ih =>
    have hord := ih h.2
    refine List.pairwise_cons.2 ⟨fun o ho => ?_, hord⟩
    obtain ⟨n, e, hn, -, hp, -⟩ := h.1
    cases outer with
    | nil => cases ho
    | cons q outer =>
      have hq : t.parent? id = some q := by rw [Tree.parent?_of_node? hn, hp]; rfl
      have hlt := ht.parent_lt hq
      rcases List.mem_cons.1 ho with rfl | ho
      · exact hlt
      · exact Nat.lt_trans ((List.pairwise_cons.1 hord).1 o ho) hlt

theorem Linked.ordered (h : b.Linked) : b.opened.Pairwise (· > ·) :=
  Open.ordered (t := b.tree) h.tree h.opened

theorem openUnder_adoptNode {nodes nodes' : Array Node} {i : Nat} {parent : Option Nat}
    (hn : nodes'[i]? = nodes[i]? ∨ ∃ child, nodes'[i]? = (nodes[i]?).map (adoptNode child))
    (h : OpenUnder nodes parent i) : OpenUnder nodes' parent i := by
  obtain ⟨n, e, hi, he, hp, hc⟩ := h
  rcases hn with hn | ⟨child, hn⟩
  · exact ⟨n, e, hn.trans hi, he, hp, hc⟩
  · refine ⟨adoptNode child n, { e with children := e.children.push child }, ?_, ?_, ?_, hc⟩
    · rw [hn, hi]; rfl
    · simp [adoptNode, changeElement, he]
    · rw [parent_adoptNode, hp]

theorem head?_lt_size (h : b.Linked) {q : Nat} (hq : b.opened.head? = some q) :
    q < b.nodes.size :=
  h.opened.lt_size (List.mem_of_head? hq)

theorem ordered_concat {ids : List Nat} {id : Nat} (h : ids.Pairwise (· < ·))
    (hid : ∀ a ∈ ids, a < id) : (ids ++ [id]).Pairwise (· < ·) := by
  refine List.pairwise_append.2 ⟨h, by simp, ?_⟩
  intro a ha c hc
  obtain rfl := List.mem_singleton.1 hc
  exact hid a ha

theorem Linked.parent_lt_add (h : b.Linked) {i q : Nat}
    (hq : (b.add span content opens).tree.parent? i = some q) : q < i ∧ q < b.nodes.size := by
  rw [parent?_add] at hq
  split at hq
  · next hi =>
    have hlt := head?_lt_size h hq
    exact ⟨hi ▸ hlt, hlt⟩
  · have hlt := h.tree.parent_lt hq
    exact ⟨hlt, Nat.lt_trans hlt (Tree.lt_size_of_parent? hq)⟩

theorem Linked.mem_children_add (h : b.Linked)
    (hc : (⟨b.opened.head?, span, content⟩ : Node).children = []) {i c : Nat} :
    c ∈ (b.add span content opens).tree.children i ↔
      (b.add span content opens).tree.parent? c = some i := by
  rw [children_add opens h.opened hc]
  by_cases hi : i = b.nodes.size
  · -- nothing is in the new node yet
    rw [if_pos hi]
    constructor
    · intro hmem; cases hmem
    · intro hp
      have hlt := (h.parent_lt_add hp).2
      omega
  rw [if_neg hi, parent?_add]
  by_cases hc : c = b.nodes.size
  · subst hc
    have hnot : b.nodes.size ∉ b.tree.children i := by
      intro hmem
      exact Nat.lt_irrefl _ (Tree.lt_size_of_parent? (h.tree.mem_children.1 hmem))
    rw [if_pos rfl]
    split
    · next ht => simp [ht]
    · next ht => simp [hnot, ht]
  · rw [if_neg hc, ← h.tree.mem_children]
    split <;> simp [hc]

theorem Linked.children_ordered_add (h : b.Linked)
    (hc : (⟨b.opened.head?, span, content⟩ : Node).children = []) (i : Nat) :
    ((b.add span content opens).tree.children i).Pairwise (· < ·) := by
  rw [children_add opens h.opened hc]
  split
  · exact .nil
  split
  · refine ordered_concat (h.tree.children_ordered i) ?_
    intro a ha
    exact Tree.lt_size_of_parent? (h.tree.mem_children.1 ha)
  · exact h.tree.children_ordered i

theorem Linked.mem_roots_add (h : b.Linked) {i : Nat} :
    i ∈ b.adoptRoots.toList ↔
      i < b.nodes.size + 1 ∧ (b.add span content opens).tree.parent? i = none := by
  have hroots : i ∈ b.roots.toList ↔ i < b.nodes.size ∧ b.tree.parent? i = none :=
    h.tree.mem_roots
  rw [parent?_add]
  unfold adoptRoots
  split
  · next top outer ho =>
    rw [hroots, ho]
    split
    · next hi => simp [hi]
    · next hi => exact ⟨fun h => ⟨by omega, h.2⟩, fun h => ⟨by omega, h.2⟩⟩
  · next ho =>
    rw [Array.toList_push, List.mem_append, hroots, ho, List.mem_singleton]
    split
    · next hi => simp [hi]
    · next hi =>
      constructor
      · rintro (h | h)
        · exact ⟨by omega, h.2⟩
        · exact absurd h hi
      · intro h
        exact Or.inl ⟨by omega, h.2⟩

theorem Linked.roots_ordered_add (h : b.Linked) : b.adoptRoots.toList.Pairwise (· < ·) := by
  have hroots : b.roots.toList.Pairwise (· < ·) := h.tree.roots_ordered
  unfold adoptRoots
  split
  · exact hroots
  · rw [Array.toList_push]
    refine ordered_concat hroots ?_
    intro a ha
    exact (h.tree.mem_roots.1 ha).1

theorem Linked.tree_add (h : b.Linked)
    (hc : (⟨b.opened.head?, span, content⟩ : Node).children = []) :
    (b.add span content opens).tree.Linked := by
  constructor
  · intro i q hq
    exact (h.parent_lt_add hq).1
  · exact h.mem_children_add hc
  · exact h.children_ordered_add hc
  · intro i
    have hsize : (b.add span content opens).tree.nodes.size = b.nodes.size + 1 :=
      size_add b span content opens
    rw [hsize]
    exact h.mem_roots_add
  · exact h.roots_ordered_add

theorem Linked.add (h : b.Linked) (hc : (⟨b.opened.head?, span, content⟩ : Node).children = [])
    (ho : opens = true → ∃ e, content = .element e ∧ e.isClosed = false) :
    (b.add span content opens).Linked := by
  have hnodes := getElem?_add b span content opens
  have hopened : Open (b.add span content opens).nodes b.opened := by
    refine h.opened.congr fun i hi parent hu => openUnder_adoptNode ?_ hu
    have := h.opened.lt_size hi
    rw [hnodes, if_neg (by omega)]
    split
    · exact Or.inr ⟨_, rfl⟩
    · exact Or.inl rfl
  have hnew : opens = true → OpenUnder (b.add span content opens).nodes b.opened.head?
      b.nodes.size := by
    intro hop
    obtain ⟨e, he, hcl⟩ := ho hop
    exact ⟨_, e, by rw [hnodes, if_pos rfl], he, rfl, hcl⟩
  refine ⟨h.tree_add hc, ?_, ?_⟩
  · change Open _ (if opens then b.nodes.size :: b.opened else b.opened)
    split
    · next hop => exact ⟨hnew hop, hopened⟩
    · exact hopened
  · intro id hid c hlt hcs
    rw [size_add] at hcs
    have hid' : id ∈ b.opened := by
      have hmem : id ∈ if opens then b.nodes.size :: b.opened else b.opened := hid
      split at hmem
      · rcases List.mem_cons.1 hmem with rfl | hmem
        · omega
        · exact hmem
      · exact hmem
    have hidlt := h.opened.lt_size hid'
    rw [parent?_add, parent?_add, if_neg (show id ≠ b.nodes.size by omega)]
    split
    · -- the new node stands under the innermost open element, which no open one is under
      intro heq
      cases ho : b.opened with
      | nil => rw [ho] at hid'; cases hid'
      | cons top outer =>
        rw [ho] at heq hid'
        have hord := h.ordered
        rw [ho] at hord
        have hlt' := h.tree.parent_lt heq.symm
        rcases List.mem_cons.1 hid' with rfl | hmem
        · omega
        · have := (List.pairwise_cons.1 hord).1 id hmem
          omega
    · exact h.last id hid' c hlt (by omega)

/-! ### What a closing tag does to the links -/

/-- the same parents and children, at the same ids -/
def SameLinks (nodes nodes' : Array Node) : Prop :=
  ∀ i : Nat, nodes'[i]?.map (fun n => (n.parent, n.children)) =
    nodes[i]?.map (fun n => (n.parent, n.children))

section SameLinks

variable {nodes nodes' : Array Node} {roots : Array Nat} {w w' : Nat}

theorem SameLinks.size_eq (h : SameLinks nodes nodes') : nodes'.size = nodes.size := by
  have hnone : ∀ i : Nat, nodes'[i]? = none ↔ nodes[i]? = none := by
    intro i
    rw [← Option.map_eq_none_iff, h i, Option.map_eq_none_iff]
  have h1 := (hnone nodes.size).2 (by simp)
  have h2 := (hnone nodes'.size).1 (by simp)
  rw [Array.getElem?_eq_none_iff] at h1 h2
  omega

theorem SameLinks.parent?_eq (h : SameLinks nodes nodes') (i : Nat) :
    (⟨nodes', roots, w'⟩ : Tree).parent? i = (⟨nodes, roots, w⟩ : Tree).parent? i := by
  have hi := h i
  change nodes'[i]?.bind (·.parent) = nodes[i]?.bind (·.parent)
  cases h1 : nodes'[i]? <;> cases h2 : nodes[i]? <;> simp_all

theorem SameLinks.children_eq (h : SameLinks nodes nodes') (i : Nat) :
    (⟨nodes', roots, w'⟩ : Tree).children i = (⟨nodes, roots, w⟩ : Tree).children i := by
  have hi := h i
  cases h1 : nodes'[i]? with
  | none =>
    rw [h1] at hi
    rw [Tree.children_of_none (t := ⟨nodes', roots, w'⟩) h1,
      Tree.children_of_none (t := ⟨nodes, roots, w⟩) (Option.map_eq_none_iff.1 hi.symm)]
  | some n =>
    rw [h1] at hi
    obtain ⟨n', h2, heq⟩ := Option.map_eq_some_iff.1 hi.symm
    rw [Tree.children_of_node? (t := ⟨nodes', roots, w'⟩) h1,
      Tree.children_of_node? (t := ⟨nodes, roots, w⟩) h2]
    exact (Prod.mk.inj heq).2.symm

theorem SameLinks.linked (h : SameLinks nodes nodes') (ht : (⟨nodes, roots, w⟩ : Tree).Linked) :
    (⟨nodes', roots, w'⟩ : Tree).Linked := by
  constructor
  · intro id q hq
    rw [h.parent?_eq (w := w)] at hq
    exact ht.parent_lt hq
  · intro id child
    rw [h.parent?_eq (w := w), h.children_eq (w := w)]
    exact ht.mem_children
  · intro id
    rw [h.children_eq (w := w)]
    exact ht.children_ordered id
  · intro id
    rw [h.parent?_eq (w := w), show (⟨nodes', roots, w'⟩ : Tree).nodes.size = _ from h.size_eq]
    exact ht.mem_roots
  · exact ht.roots_ordered

end SameLinks

@[simp] theorem children_closeNode (tag : Span) (n : Node) :
    (closeNode tag n).children = n.children := by
  obtain ⟨parent, span, content⟩ := n
  cases content <;> rfl

@[simp] theorem parent_closeNode (tag : Span) (n : Node) :
    (closeNode tag n).parent = n.parent := by
  obtain ⟨parent, span, content⟩ := n
  cases content <;> rfl

theorem sameLinks_leave (b : Builder) (pos : Nat) (inner outer : List Nat) :
    SameLinks b.nodes (b.leave pos inner outer).nodes := by
  intro i
  rw [getElem?_leave]
  split
  · rw [Option.map_map]; rfl
  · rfl

theorem sameLinks_closeTop (b : Builder) (id : Nat) (outer : List Nat) (tag : Span) :
    SameLinks b.nodes (b.closeTop id outer tag).nodes := by
  intro i
  rw [getElem?_closeTop]
  split
  · rw [Option.map_map]
    simp [Function.comp_def]
  · rfl

theorem SameLinks.trans {nodes nodes' nodes'' : Array Node} (h : SameLinks nodes nodes')
    (h' : SameLinks nodes' nodes'') : SameLinks nodes nodes'' := fun i => (h' i).trans (h i)

theorem sameLinks_close (b : Builder) (name : String) (tag : Span) :
    SameLinks b.nodes (b.close name tag).nodes := by
  rcases close_cases b name tag with heq | ⟨inner, id, outer, -, -, -, heq⟩
  · rw [heq]
    exact fun _ => rfl
  · rw [heq]
    exact (sameLinks_leave b _ _ _).trans (sameLinks_closeTop _ _ _ _)

theorem close_opened (b : Builder) (name : String) (tag : Span) :
    ∀ i ∈ (b.close name tag).opened, i ∈ b.opened := by
  rcases close_cases b name tag with heq | ⟨inner, id, outer, ho, -, -, heq⟩
  · rw [heq]
    exact fun _ hi => hi
  · rw [heq, ho]
    intro i hi
    exact List.mem_append_right inner (List.mem_cons_of_mem id hi)

/-- what is open further out is not among the inner ones -/
theorem not_mem_inner {inner outer : List Nat} {i : Nat}
    (h : (inner ++ outer).Pairwise (· > ·)) (hi : i ∈ outer) : i ∉ inner := by
  intro hmem
  exact Nat.lt_irrefl _ ((List.pairwise_append.1 h).2.2 i hmem i hi)

/-- links stay in agreement while nodes keep theirs and what stays open is open under the same -/
theorem Linked.congr {nodes : Array Node} {inner outer : List Nat} (h : b.Linked)
    (ho : b.opened = inner ++ outer) (hs : SameLinks b.nodes nodes)
    (hn : ∀ i ∈ outer, ∀ parent, OpenUnder b.nodes parent i → OpenUnder nodes parent i) :
    (⟨nodes, b.roots, outer⟩ : Builder).Linked := by
  refine ⟨hs.linked (w := 0) h.tree, ?_, ?_⟩
  · have hopen := h.opened
    rw [ho] at hopen
    exact hopen.outer.congr hn
  · intro i hi c hlt hcs
    have hcs' : c < b.nodes.size := hs.size_eq ▸ hcs
    have hmem : i ∈ b.opened := by rw [ho]; exact List.mem_append_right inner hi
    have key := h.last i hmem c hlt hcs'
    rwa [Builder.tree, hs.parent?_eq (w := 0), hs.parent?_eq (w := 0)]

/-- so they do while those that stay open do not change -/
theorem Linked.inner {nodes : Array Node} {inner outer : List Nat} (h : b.Linked)
    (ho : b.opened = inner ++ outer) (hs : SameLinks b.nodes nodes)
    (hn : ∀ i ∈ outer, nodes[i]? = b.nodes[i]?) : (⟨nodes, b.roots, outer⟩ : Builder).Linked := by
  refine h.congr ho hs ?_
  rintro i hi parent ⟨n, e, hget, hrest⟩
  exact ⟨n, e, (hn i hi).trans hget, hrest⟩

theorem Linked.leave {inner outer : List Nat} (h : b.Linked) (ho : b.opened = inner ++ outer)
    (pos : Nat) : (b.leave pos inner outer).Linked := by
  refine h.inner ho (sameLinks_leave b pos inner outer) ?_
  intro i hi
  have hord := h.ordered
  rw [ho] at hord
  exact (getElem?_leave b pos inner outer i).trans (if_neg (not_mem_inner hord hi))

theorem Linked.closeTop {id : Nat} {outer : List Nat} (h : b.Linked) (ho : b.opened = id :: outer)
    (tag : Span) : (b.closeTop id outer tag).Linked := by
  have ho' : b.opened = [id] ++ outer := ho
  refine h.inner ho' (sameLinks_closeTop b id outer tag) ?_
  intro i hi
  have hord := h.ordered
  rw [ho'] at hord
  have hne := not_mem_inner hord hi
  exact (getElem?_closeTop b id outer tag i).trans (if_neg fun heq => hne (by simp [heq]))

theorem Linked.close (h : b.Linked) (name : String) (tag : Span) : (b.close name tag).Linked := by
  rcases close_cases b name tag with heq | ⟨inner, id, outer, ho, -, -, heq⟩
  · rw [heq]; exact h
  · rw [heq]
    exact (h.leave ho tag.start).closeTop rfl tag

/-! ### Whole documents -/

theorem Linked.put (h : b.Linked) (p : Part) : (b.put p).Linked := by
  cases p with
  | text raw s => exact h.add rfl (by simp)
  | tag t =>
    refine h.add rfl fun ho => ⟨t.element, rfl, ?_⟩
    simpa [Tag.element, Element.isClosed] using ho
  | close name s => exact h.close name s

theorem linked_empty : empty.Linked := by
  refine ⟨⟨?_, ?_, ?_, ?_, ?_⟩, trivial, ?_⟩
  · intro id q h; cases h
  · intro id child; simp [Tree.children, Tree.parent?, Tree.element?, Tree.node?, tree, empty]
  · intro id; exact .nil
  · intro id; simp [tree, empty]
  · exact .nil
  · intro id h; cases h

theorem Linked.finish (h : b.Linked) (width : Nat) : (b.finish width).Linked :=
  (sameLinks_leave b width b.opened []).linked (w := 0) h.tree

end Builder

/-- the links of every document agree -/
theorem Tree.linked_parse (text : String) : (Tree.parse text).Linked := by
  refine Builder.Linked.finish ?_ _
  exact Cursor.events_keep (fun _ b => b.Linked) (fun _ _ _ _ h => h)
    (fun _ _ p _ _ h => h.put p) (.refl _) Builder.linked_empty

end ProjectSense
