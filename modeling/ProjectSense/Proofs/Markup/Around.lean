import ProjectSense.Proofs.Markup.Spans

/-!
# The elements around an offset

An element covers the offsets up to its end, and one that is still open covers its end as well.
While a document is read, the elements around the place that was reached are the open ones; which
elements cover an offset does not change once the document was read up to it.

* `Builder.Placed.put`: what is finished covers nothing from the place that was reached on.
* `Builder.Watched.put`: later parts change nothing about an offset.
* `Tree.innermostAt_eq`: the innermost element is the last one that covers the offset.
-/

namespace ProjectSense

/-- the node is an element that covers the offset -/
def Node.Covers (n : Node) (offset : Nat) : Prop :=
  ∃ e, n.content = .element e ∧ n.covers e offset = true

/-- the name of the element that a node is, and where it stands -/
def Node.named? (n : Node) : Option (String × Span) :=
  n.element?.map fun e => (e.name, e.nameSpan)

namespace Node

variable {n : Node} {e : Element} {offset : Nat}

theorem covers_iff : n.covers e offset = true ↔ n.span.start < offset ∧
    (offset < n.span.stop ∨ offset = n.span.stop ∧ e.isClosed = false) := by
  simp [covers]

theorem Covers.start_lt (h : n.Covers offset) : n.span.start < offset := by
  obtain ⟨e, -, hc⟩ := h
  exact (covers_iff.1 hc).1

theorem not_covers_of_closed (he : n.content = .element e) (hc : e.isClosed = true)
    (hle : n.span.stop ≤ offset) : ¬n.Covers offset := by
  rintro ⟨e', he', hcov⟩
  obtain rfl := Content.element.inj (he.symm.trans he')
  obtain ⟨-, hlt | ⟨-, hopen⟩⟩ := covers_iff.1 hcov
  · omega
  · rw [hc] at hopen; cases hopen

theorem not_covers_of_lt (hlt : n.span.stop < offset) : ¬n.Covers offset := by
  rintro ⟨e, -, hcov⟩
  obtain ⟨-, h⟩ := covers_iff.1 hcov
  omega

theorem not_covers_text {raw : String} (h : n.content = .text raw) : ¬n.Covers offset := by
  rintro ⟨e, he, -⟩
  rw [h] at he
  cases he

/-- an element that is left open covers the offsets up to where it ends -/
theorem covers_reach {pos : Nat} (he : n.content = .element e) (hc : e.isClosed = false)
    (hlt : n.span.start < offset) (hle : offset ≤ pos) : (Builder.reach pos n).Covers offset := by
  refine ⟨e, he, covers_iff.2 ⟨?_, ?_⟩⟩
  · change min n.span.start pos < offset
    omega
  · have hle' : offset ≤ max n.span.stop pos := by omega
    rcases Nat.lt_or_eq_of_le hle' with h | h
    · exact Or.inl h
    · exact Or.inr ⟨h, hc⟩

theorem covers_closeNode {tag : Span} (he : n.content = .element e) (hlt : n.span.start < offset)
    (hle : offset < tag.stop) : (Builder.closeNode tag n).Covers offset := by
  obtain ⟨parent, span, content⟩ := n
  obtain rfl : content = .element e := he
  refine ⟨_, rfl, covers_iff.2 ⟨?_, Or.inl ?_⟩⟩
  · change min span.start tag.start < offset
    change span.start < offset at hlt
    omega
  · change offset < max span.stop tag.stop
    omega

end Node

namespace Tree

/-! ### The innermost element -/

/-- the nodes begin in the order of their ids -/
def Sorted (t : Tree) : Prop := t.nodes.toList.Pairwise fun m n => m.span.start ≤ n.span.start

/-- the elements that cover the offset -/
structure Covered (t : Tree) (offset : Nat) (ids : List Nat) : Prop where
  lt : ∀ id ∈ ids, id < t.nodes.size
  iff : ∀ id n, t.node? id = some n → (id ∈ ids ↔ n.Covers offset)

/-- the last of the nodes that covers the offset stands at `k?`, if one does -/
def LastCovers (offset : Nat) (ns : List Node) : Option Nat → Prop
  | some k => (∃ n, ns[k]? = some n ∧ n.Covers offset) ∧
    ∀ (k' : Nat) (n' : Node), ns[k']? = some n' → n'.Covers offset → k' ≤ k
  | none => ∀ n ∈ ns, ¬n.Covers offset

/-- what comes later decides, and the first node only where nothing does -/
theorem LastCovers.cons {offset : Nat} {n : Node} {ns : List Node} {k? : Option Nat}
    (h : LastCovers offset ns k?) :
    (n.Covers offset → LastCovers offset (n :: ns) (some ((k?.map (· + 1)).getD 0))) ∧
      (¬n.Covers offset → LastCovers offset (n :: ns) (k?.map (· + 1))) := by
  cases k? with
  | some k =>
    have hsucc : LastCovers offset (n :: ns) (some (k + 1)) := by
      obtain ⟨⟨m, hm, hc⟩, hlast⟩ := h
      refine ⟨⟨m, hm, hc⟩, ?_⟩
      intro k' n' hk' hn'
      cases k' with
      | zero => omega
      | succ k' => exact Nat.succ_le_succ (hlast k' n' hk' hn')
    exact ⟨fun _ => hsucc, fun _ => hsucc⟩
  | none =>
    refine ⟨fun hn => ⟨⟨n, rfl, hn⟩, ?_⟩, fun hn m hm => ?_⟩
    · intro k' n' hk' hn'
      cases k' with
      | zero => exact Nat.le_refl 0
      | succ k' => exact absurd hn' (h n' (List.mem_of_getElem? hk'))
    · rcases List.mem_cons.1 hm with rfl | hm
      · exact hn
      · exact h m hm

theorem innermostFrom_spec (offset : Nat) {ns : List Node}
    (hs : ns.Pairwise fun m n => m.span.start ≤ n.span.start) (found : Option Nat) (id : Nat) :
    ∃ k?, LastCovers offset ns k? ∧
      innermostFrom offset found id ns = (k?.map (id + ·)).or found := by
  induction ns generalizing found id with
  | nil => exact ⟨none, by simp [LastCovers], rfl⟩
  | cons n ns ih =>
    obtain ⟨hhead, htail⟩ := List.pairwise_cons.1 hs
    obtain ⟨k?, hk, hres⟩ := ih htail found (id + 1)
    have hshift : ((k?.map (· + 1)).map (id + ·)).or found = (k?.map (id + 1 + ·)).or found := by
      rw [Option.map_map]
      congr 2
      funext k
      exact (Nat.add_right_comm id 1 k).symm
    cases hcon : n.content with
    | text raw =>
      refine ⟨_, hk.cons.2 (Node.not_covers_text hcon), ?_⟩
      rw [hshift, ← hres]
      simp [innermostFrom, Node.element?, hcon]
    | element e =>
      have hel : n.element? = some e := by simp [Node.element?, hcon]
      cases hcov : n.covers e offset with
      | true =>
        obtain ⟨k?, hk, hres⟩ := ih htail (some id) (id + 1)
        refine ⟨_, hk.cons.1 ⟨e, hcon, hcov⟩, ?_⟩
        simp only [innermostFrom, hel, hcov, if_true, hres]
        cases k? with
        | none => rfl
        | some k => exact congrArg some (Nat.add_right_comm id 1 k)
      | false =>
        have hn : ¬n.Covers offset := by
          rintro ⟨e', he', hc'⟩
          obtain rfl := Content.element.inj (hcon.symm.trans he')
          rw [hcov] at hc'
          cases hc'
        by_cases hle : offset ≤ n.span.start
        · -- nothing after a node that begins at the offset covers it
          refine ⟨none, ?_, by simp [innermostFrom, hel, hcov, hle]⟩
          intro m hm hc
          have hlt := hc.start_lt
          rcases List.mem_cons.1 hm with rfl | hm
          · omega
          · have := hhead m hm
            omega
        · refine ⟨_, hk.cons.2 hn, ?_⟩
          rw [hshift, ← hres]
          simp [innermostFrom, hel, hcov, hle]

/-- the last element that covers the offset is found, if there is one -/
theorem innermostAt_cases {t : Tree} (hs : t.Sorted) (offset : Nat) :
    (t.innermostAt offset = none ∧ ∀ id n, t.node? id = some n → ¬n.Covers offset) ∨
      ∃ id n, t.innermostAt offset = some id ∧ t.node? id = some n ∧ n.Covers offset ∧
        ∀ j m, t.node? j = some m → m.Covers offset → j ≤ id := by
  have hget : ∀ k : Nat, t.nodes.toList[k]? = t.node? k := fun k => Array.getElem?_toList
  obtain ⟨k?, hk, hres⟩ := innermostFrom_spec offset hs none 0
  rw [innermostAt, hres]
  cases k? with
  | none =>
    exact .inl ⟨rfl, fun id n hn => hk n (List.mem_of_getElem? ((hget id).trans hn))⟩
  | some k =>
    obtain ⟨⟨n, hn, hc⟩, hlast⟩ := hk
    exact .inr ⟨k, n, congrArg some (Nat.zero_add k), (hget k).symm.trans hn, hc,
      fun j m hm => hlast j m ((hget j).trans hm)⟩

/-- the last node that covers the offset is the innermost -/
theorem innermostAt_of_last {t : Tree} {id offset : Nat} {n : Node} (hs : t.Sorted)
    (hn : t.node? id = some n) (hc : n.Covers offset)
    (hlast : ∀ j m, id < j → t.node? j = some m → ¬m.Covers offset) :
    t.innermostAt offset = some id := by
  rcases innermostAt_cases hs offset with ⟨-, hnone⟩ | ⟨k, m, hk, hm, hmc, hle⟩
  · exact absurd hc (hnone id n hn)
  · have hidk : id ≤ k := hle id n hn hc
    have hkid : ¬id < k := fun hlt => hlast k m hlt hm hmc
    rw [hk, show k = id by omega]

theorem innermostAt_eq {t : Tree} {offset : Nat} {ids : List Nat} (hs : t.Sorted)
    (hc : t.Covered offset ids) (hids : ids.Pairwise (· > ·)) :
    t.innermostAt offset = ids.head? := by
  cases ids with
  | nil =>
    rcases innermostAt_cases hs offset with ⟨hnone, -⟩ | ⟨k, n, -, hn, hcov, -⟩
    · exact hnone
    · cases (hc.iff k n hn).2 hcov
  | cons top rest =>
    obtain ⟨m, hm⟩ := node?_of_lt (hc.lt top List.mem_cons_self)
    refine innermostAt_of_last hs hm ((hc.iff top m hm).1 List.mem_cons_self) ?_
    intro j n hj hn hcov
    rcases List.mem_cons.1 ((hc.iff j n hn).2 hcov) with rfl | hmem
    · omega
    · have := (List.pairwise_cons.1 hids).1 j hmem
      omega

end Tree

namespace Builder

variable {text : List Char} {b b' b'' : Builder} {p offset : Nat} {ids : List Nat}

/-! ### What a part does to a node -/

theorem Adopts.covers {n n' : Node} (h : Adopts n n') : n'.Covers offset ↔ n.Covers offset := by
  cases h with
  | same => exact Iff.rfl
  | child c =>
    obtain ⟨parent, span, content⟩ := n
    cases content with
    | text raw => exact Iff.rfl
    | element e =>
      constructor
      · rintro ⟨e', he', hc⟩
        obtain rfl := Content.element.inj he'
        exact ⟨e, rfl, hc⟩
      · rintro ⟨e', he', hc⟩
        obtain rfl := Content.element.inj he'
        exact ⟨_, rfl, hc⟩

/-- a node after a closing tag: an open element may have been closed or have ended, and what is
open no more is one of those -/
inductive Closes (b b' : Builder) (tag : Span) (i : Nat) (n : Node) : Node → Prop
  | closed (hi : i ∈ b.opened) : Closes b b' tag i n (closeNode tag n)
  | ended (hi : i ∈ b.opened) : Closes b b' tag i n (reach tag.start n)
  | kept (hi : i ∈ b.opened → i ∈ b'.opened) : Closes b b' tag i n n

theorem close_size (b : Builder) (name : String) (tag : Span) :
    (b.close name tag).nodes.size = b.nodes.size :=
  (sameLinks_close b name tag).size_eq

theorem close_node_cases (h : b.Linked) {name : String} {tag : Span} {i : Nat} {n' : Node}
    (hn' : (b.close name tag).nodes[i]? = some n') :
    ∃ n, b.nodes[i]? = some n ∧ Closes b (b.close name tag) tag i n n' := by
  rcases close_cases b name tag with heq | ⟨inner, id, outer, ho, -, -, heq⟩
  · rw [heq] at hn' ⊢
    exact ⟨n', hn', .kept fun hi => hi⟩
  have hord := h.ordered
  rw [ho] at hord
  rw [heq, getElem?_closeTop, getElem?_leave] at hn'
  by_cases hid : id = i
  · subst hid
    have hni : id ∉ inner := not_mem_inner hord List.mem_cons_self
    rw [if_pos rfl, if_neg hni] at hn'
    obtain ⟨n, hn, rfl⟩ := Option.map_eq_some_iff.1 hn'
    exact ⟨n, hn, .closed (by simp [ho])⟩
  rw [if_neg hid] at hn'
  by_cases hi : i ∈ inner
  · rw [if_pos hi] at hn'
    obtain ⟨n, hn, rfl⟩ := Option.map_eq_some_iff.1 hn'
    exact ⟨n, hn, .ended (by simp [ho, hi])⟩
  · rw [if_neg hi] at hn'
    refine ⟨n', hn', .kept ?_⟩
    rw [heq, ho, List.mem_append, List.mem_cons]
    rintro (hmem | rfl | hmem)
    · exact absurd hmem hi
    · exact absurd rfl hid
    · exact hmem

/-! ### Names and parents -/

/-- the nodes of the one stand in the other, with the same parents and names -/
structure Names (b b' : Builder) : Prop where
  size_le : b.nodes.size ≤ b'.nodes.size
  node : ∀ {i : Nat} {n : Node}, b.nodes[i]? = some n → ∃ n', b'.nodes[i]? = some n' ∧
    n'.parent = n.parent ∧ n'.named? = n.named?

theorem Names.refl (b : Builder) : Names b b :=
  ⟨Nat.le_refl _, fun hn => ⟨_, hn, rfl, rfl⟩⟩

theorem Names.trans (h : Names b b') (h' : Names b' b'') : Names b b'' := by
  refine ⟨Nat.le_trans h.size_le h'.size_le, fun hn => ?_⟩
  obtain ⟨n', hn', hp, hs⟩ := h.node hn
  obtain ⟨n'', hn'', hp', hs'⟩ := h'.node hn'
  exact ⟨n'', hn'', hp'.trans hp, hs'.trans hs⟩

theorem named?_closeNode (tag : Span) (n : Node) : (closeNode tag n).named? = n.named? := by
  obtain ⟨parent, span, content⟩ := n
  cases content <;> rfl

theorem named?_adoptNode (child : Nat) (n : Node) : (adoptNode child n).named? = n.named? := by
  obtain ⟨parent, span, content⟩ := n
  cases content <;> rfl

theorem names_leave (b : Builder) (pos : Nat) (inner outer : List Nat) :
    Names b (b.leave pos inner outer) := by
  refine ⟨Nat.le_of_eq (sameLinks_leave b pos inner outer).size_eq.symm, fun {i n} hn => ?_⟩
  rw [getElem?_leave, hn]
  split
  · exact ⟨_, rfl, rfl, rfl⟩
  · exact ⟨_, rfl, rfl, rfl⟩

theorem names_closeTop (b : Builder) (id : Nat) (outer : List Nat) (tag : Span) :
    Names b (b.closeTop id outer tag) := by
  refine ⟨Nat.le_of_eq (sameLinks_closeTop b id outer tag).size_eq.symm, fun {i n} hn => ?_⟩
  rw [getElem?_closeTop, hn]
  split
  · exact ⟨_, rfl, parent_closeNode tag n, named?_closeNode tag n⟩
  · exact ⟨_, rfl, rfl, rfl⟩

theorem names_add (b : Builder) (span : Span) (content : Content) (opens : Bool) :
    Names b (b.add span content opens) := by
  have hsize := size_add b span content opens
  refine ⟨by omega, fun {i n} hn => ?_⟩
  have hlt := (Array.getElem?_eq_some_iff.1 hn).1
  rw [getElem?_add, if_neg (by omega), hn]
  split
  · exact ⟨_, rfl, parent_adoptNode _ n, named?_adoptNode _ n⟩
  · exact ⟨_, rfl, rfl, rfl⟩

theorem names_put (b : Builder) (part : Part) : Names b (b.put part) := by
  cases part with
  | text raw s => exact names_add b _ _ _
  | tag t => exact names_add b _ _ _
  | close name s =>
    change Names b (b.close name s)
    rcases close_cases b name s with heq | ⟨inner, id, outer, -, -, -, heq⟩
    · rw [heq]
      exact .refl b
    · rw [heq]
      exact (names_leave b _ _ _).trans (names_closeTop _ _ _ _)

/-! ### Places of the finished elements -/

/-- everything up to `p` is in place: nodes begin in order, the open elements before `p`, and what
is not open covers nothing from `p` on -/
structure Placed (text : List Char) (p : Nat) (b : Builder) : Prop where
  spaced : b.Spaced text p
  sorted : ∀ {i j : Nat} {m n : Node}, i < j → b.nodes[i]? = some m → b.nodes[j]? = some n →
    m.span.start ≤ n.span.start
  opened : ∀ {i : Nat} {n : Node}, i ∈ b.opened → b.nodes[i]? = some n → n.span.start < p
  done : ∀ {i q : Nat} {n : Node}, i ∉ b.opened → b.nodes[i]? = some n → p ≤ q → ¬n.Covers q

theorem Placed.mono {q : Nat} (h : b.Placed text p) (hpq : p ≤ q) : b.Placed text q :=
  ⟨h.spaced.mono hpq, h.sorted, fun hi hn => Nat.lt_of_lt_of_le (h.opened hi hn) hpq,
    fun hi hn hq => h.done hi hn (Nat.le_trans hpq hq)⟩

theorem placed_empty (text : List Char) : empty.Placed text 0 := by
  refine ⟨spaced_empty text, ?_, ?_, ?_⟩
  · intro i j m n _ hm; cases hm
  · intro i n hi; cases hi
  · intro i q n _ hn; cases hn

theorem Spaced.start_le (h : b.Spaced text p) {i : Nat} {n : Node} (hn : b.nodes[i]? = some n) :
    n.span.start ≤ p := by
  obtain ⟨h1, h2⟩ := h.node hn
  exact Nat.le_trans h1.within.le h2

theorem mem_of_mem_opened_add {span : Span} {content : Content} {opens : Bool} {i : Nat}
    (h : i ∈ (b.add span content opens).opened) (hi : i ≠ b.nodes.size ∨ opens = false) :
    i ∈ b.opened := by
  change i ∈ if opens then b.nodes.size :: b.opened else b.opened at h
  split at h
  · next hop =>
    rcases List.mem_cons.1 h with rfl | h
    · rcases hi with hi | hi
      · exact absurd rfl hi
      · rw [hop] at hi; cases hi
    · exact h
  · exact h

theorem Placed.add {span : Span} {content : Content} {opens : Bool} (h : b.Placed text p)
    (hs : (b.add span content opens).Spaced text span.stop) (hp : p ≤ span.start)
    (hlt : opens = true → span.start < span.stop)
    (hdone : opens = false → ∀ q, span.stop ≤ q →
      ¬(⟨b.opened.head?, span, content⟩ : Node).Covers q) :
    (b.add span content opens).Placed text span.stop := by
  have hle : span.start ≤ span.stop := by
    have hnew : (b.add span content opens).nodes[b.nodes.size]? = _ :=
      node?_add_size b span content opens
    exact (hs.node hnew).1.within.le
  refine ⟨hs, ?_, ?_, ?_⟩
  · intro i j m' n' hij hm' hn'
    rcases add_cases hm' with ⟨rfl, -⟩ | ⟨hi, m, hm, ha⟩
    · rcases add_cases hn' with ⟨rfl, -⟩ | ⟨hj, -⟩ <;> omega
    · rw [ha.span_eq]
      rcases add_cases hn' with ⟨-, rfl⟩ | ⟨hj, n, hn, ha'⟩
      · exact Nat.le_trans (h.spaced.start_le hm) hp
      · rw [ha'.span_eq]
        exact h.sorted hij hm hn
  · intro i n' hi hn'
    rcases add_cases hn' with ⟨rfl, rfl⟩ | ⟨hlt', n, hn, ha⟩
    · cases hop : opens with
      | true => exact hlt hop
      | false =>
        have := h.spaced.linked.opened.lt_size (mem_of_mem_opened_add hi (Or.inr hop))
        omega
    · rw [ha.span_eq]
      have := h.opened (mem_of_mem_opened_add hi (Or.inl (by omega))) hn
      omega
  · intro i q n' hi hn' hq
    rcases add_cases hn' with ⟨rfl, rfl⟩ | ⟨hlt', n, hn, ha⟩
    · refine hdone ?_ q hq
      cases hop : opens with
      | true =>
        refine absurd ?_ hi
        rw [hop]
        exact List.mem_cons_self
      | false => rfl
    · rw [ha.covers]
      exact h.done (fun hmem => hi (mem_opened_add hmem)) hn (by omega)

theorem Placed.close {name : String} {tag : Span} (h : b.Placed text p)
    (hs : (b.close name tag).Spaced text tag.stop) (hp : p ≤ tag.start)
    (hlt : tag.start < tag.stop) : (b.close name tag).Placed text tag.stop := by
  have hstart : ∀ {i : Nat} {n' : Node}, (b.close name tag).nodes[i]? = some n' →
      ∃ n, b.nodes[i]? = some n ∧ n'.span.start = n.span.start := by
    intro i n' hn'
    obtain ⟨n, hn, hcase⟩ := close_node_cases h.spaced.linked hn'
    have hle := h.spaced.start_le hn
    refine ⟨n, hn, ?_⟩
    cases hcase with
    | closed => exact Nat.min_eq_left (Nat.le_trans hle hp)
    | ended => exact Nat.min_eq_left (Nat.le_trans hle hp)
    | kept => rfl
  refine ⟨hs, ?_, ?_, ?_⟩
  · intro i j m' n' hij hm' hn'
    obtain ⟨m, hm, hms⟩ := hstart hm'
    obtain ⟨n, hn, hns⟩ := hstart hn'
    rw [hms, hns]
    exact h.sorted hij hm hn
  · intro i n' hi hn'
    obtain ⟨n, hn, hns⟩ := hstart hn'
    have := h.opened (close_opened b name tag i hi) hn
    omega
  · intro i q n' hi hn' hq
    obtain ⟨n, hn, hcase⟩ := close_node_cases h.spaced.linked hn'
    have hstop := (h.spaced.node hn).2
    cases hcase with
    | closed hopen =>
      -- the element is closed and ends with the tag
      obtain ⟨parent, span, content⟩ := n
      obtain ⟨e, he, -⟩ := h.spaced.linked.element_of_open hopen hn
      obtain rfl : content = .element e := he
      change span.stop ≤ p at hstop
      refine Node.not_covers_of_closed rfl (by simp [Element.isClosed]) ?_
      change max span.stop tag.stop ≤ q
      omega
    | ended =>
      refine Node.not_covers_of_lt ?_
      change max n.span.stop tag.start < q
      omega
    | kept hopen => exact h.done (fun hmem => hi (hopen hmem)) hn (by omega)

theorem Placed.put {part : Part} (h : b.Placed text p) (hs : part.Sound text)
    (hp : p ≤ part.span.start) : (b.put part).Placed text part.span.stop := by
  have hspaced := h.spaced.put hs hp
  cases part with
  | text raw s =>
    exact h.add hspaced hp (fun ho => by cases ho) fun _ q _ => Node.not_covers_text rfl
  | tag t =>
    refine h.add hspaced hp (fun _ => Tag.Sound.lt hs) ?_
    intro ho q hq
    refine Node.not_covers_of_closed rfl ?_ hq
    have hend : t.ending = .selfClosed := by simpa using ho
    simp [Element.isClosed, Tag.element, hend]
  | close name s => exact h.close hspaced hp hs.2

/-! ### Elements that cover an offset -/

/-- the elements `ids` will cover the offset, for they do or are open, and no others -/
structure Watched (offset : Nat) (ids : List Nat) (b : Builder) : Prop where
  linked : b.Linked
  lt : ∀ id ∈ ids, id < b.nodes.size
  inside : ∀ {i : Nat} {n : Node}, i ∈ ids → b.nodes[i]? = some n →
    n.span.start < offset ∧ (i ∈ b.opened ∨ n.Covers offset)
  outside : ∀ {i : Nat} {n : Node}, i ∉ ids → b.nodes[i]? = some n →
    i ∉ b.opened ∧ ¬n.Covers offset ∨ offset ≤ n.span.start

theorem Placed.watched (h : b.Placed text p) (hp : p ≤ offset) :
    b.Watched offset b.opened := by
  refine ⟨h.spaced.linked, fun _ hid => h.spaced.linked.opened.lt_size hid, ?_, ?_⟩
  · intro i n hi hn
    have := h.opened hi hn
    exact ⟨by omega, Or.inl hi⟩
  · intro i n hi hn
    exact Or.inl ⟨hi, h.done hi hn hp⟩

/-- a start tag that goes beyond the offset, or up to it without an end, is the innermost -/
theorem Placed.watched_tag {t : Tag} (h : b.Placed text p)
    (hp : p ≤ t.span.start) (hstart : t.span.start < offset)
    (hstop : offset < t.span.stop ∨ t.ending = .unfinished) :
    (b.put (.tag t)).Watched offset (b.nodes.size :: b.opened) := by
  have hl := h.spaced.linked.put (.tag t)
  refine ⟨hl, ?_, ?_, ?_⟩
  · intro id hid
    have hsize : (b.put (.tag t)).nodes.size = b.nodes.size + 1 := size_add b _ _ _
    rcases List.mem_cons.1 hid with rfl | hid
    · omega
    · have := h.spaced.linked.opened.lt_size hid
      omega
  · intro i n' hi hn'
    rcases add_cases hn' with ⟨rfl, rfl⟩ | ⟨hlt, n, hn, ha⟩
    · refine ⟨hstart, ?_⟩
      rcases hstop with hlt | hend
      · exact Or.inr ⟨t.element, rfl, Node.covers_iff.2 ⟨hstart, Or.inl hlt⟩⟩
      · left
        have hopens : (t.ending ≠ .selfClosed) = True := by simp [hend]
        change b.nodes.size ∈ if decide (t.ending ≠ .selfClosed) = true then
          b.nodes.size :: b.opened else b.opened
        simp [hopens]
    · have hi' : i ∈ b.opened := by
        rcases List.mem_cons.1 hi with rfl | hi
        · omega
        · exact hi
      have := h.opened hi' hn
      exact ⟨by rw [ha.span_eq]; omega, Or.inl (mem_opened_add hi')⟩
  · intro i n' hi hn'
    rw [List.mem_cons, not_or] at hi
    rcases add_cases hn' with ⟨rfl, -⟩ | ⟨hlt, n, hn, ha⟩
    · exact absurd rfl hi.1
    · refine Or.inl ⟨fun hmem => hi.2 (mem_of_mem_opened_add hmem (Or.inl hi.1)), ?_⟩
      rw [ha.covers]
      exact h.done hi.2 hn (by omega)

theorem Watched.add {span : Span} {content : Content} {opens : Bool}
    (h : b.Watched offset ids) (hl : (b.add span content opens).Linked)
    (hnew : b.nodes.size ∉ (b.add span content opens).opened ∧
      ¬(⟨b.opened.head?, span, content⟩ : Node).Covers offset ∨ offset ≤ span.start) :
    (b.add span content opens).Watched offset ids := by
  refine ⟨hl, ?_, ?_, ?_⟩
  · intro id hid
    have := h.lt id hid
    rw [size_add]
    omega
  · intro i n' hi hn'
    have hlt := h.lt i hi
    rcases add_cases hn' with ⟨rfl, -⟩ | ⟨-, n, hn, ha⟩
    · omega
    · obtain ⟨h1, h2⟩ := h.inside hi hn
      refine ⟨by rw [ha.span_eq]; exact h1, ?_⟩
      rcases h2 with h2 | h2
      · exact Or.inl (mem_opened_add h2)
      · exact Or.inr (ha.covers.2 h2)
  · intro i n' hi hn'
    rcases add_cases hn' with ⟨rfl, rfl⟩ | ⟨hlt, n, hn, ha⟩
    · exact hnew
    · rcases h.outside hi hn with ⟨h1, h2⟩ | h2
      · refine Or.inl ⟨fun hmem => h1 (mem_of_mem_opened_add hmem (Or.inl (by omega))), ?_⟩
        rw [ha.covers]
        exact h2
      · exact Or.inr (by rw [ha.span_eq]; exact h2)

theorem Watched.put_text (h : b.Watched offset ids) (raw : String) (span : Span) :
    (b.put (.text raw span)).Watched offset ids := by
  refine h.add (h.linked.put (.text raw span)) (Or.inl ⟨?_, Node.not_covers_text rfl⟩)
  intro hmem
  exact Nat.lt_irrefl _ (h.linked.opened.lt_size (mem_of_mem_opened_add hmem (Or.inr rfl)))

theorem Watched.close {name : String} {tag : Span} (h : b.Watched offset ids)
    (hle : offset ≤ tag.start) (hlt : tag.start < tag.stop) :
    (b.close name tag).Watched offset ids := by
  refine ⟨h.linked.close name tag, ?_, ?_, ?_⟩
  · rw [close_size]
    exact h.lt
  · intro i n' hi hn'
    obtain ⟨n, hn, hcase⟩ := close_node_cases h.linked hn'
    obtain ⟨h1, h2⟩ := h.inside hi hn
    cases hcase with
    | closed hopen =>
      obtain ⟨e, he, -⟩ := h.linked.element_of_open hopen hn
      have hcov := Node.covers_closeNode he h1 (Nat.lt_of_le_of_lt hle hlt)
      exact ⟨hcov.start_lt, Or.inr hcov⟩
    | ended hopen =>
      obtain ⟨e, he, hc⟩ := h.linked.element_of_open hopen hn
      have hcov := Node.covers_reach he hc h1 hle
      exact ⟨hcov.start_lt, Or.inr hcov⟩
    | kept hopen => exact ⟨h1, h2.imp_left hopen⟩
  · intro i n' hi hn'
    obtain ⟨n, hn, hcase⟩ := close_node_cases h.linked hn'
    rcases h.outside hi hn with ⟨h1, h2⟩ | h2
    · cases hcase with
      | closed hopen => exact absurd hopen h1
      | ended hopen => exact absurd hopen h1
      | kept => exact Or.inl ⟨fun hmem => h1 (close_opened b name tag i hmem), h2⟩
    · right
      cases hcase with
      | closed =>
        change offset ≤ min n.span.start tag.start
        omega
      | ended =>
        change offset ≤ min n.span.start tag.start
        omega
      | kept => exact h2

/-- a part that begins at the offset or later changes nothing about it -/
theorem Watched.put {part : Part} (h : b.Watched offset ids) (hs : part.Sound text)
    (hle : offset ≤ part.span.start) : (b.put part).Watched offset ids := by
  cases part with
  | text raw s => exact h.put_text raw s
  | tag t => exact h.add (h.linked.put (.tag t)) (Or.inr hle)
  | close name s => exact h.close hle hs.2

theorem Watched.finish {width : Nat} (h : b.Watched offset ids) (hle : offset ≤ width) :
    (b.finish width).Covered offset ids := by
  have hget : ∀ (i : Nat), (b.finish width).node? i =
      if i ∈ b.opened then b.nodes[i]?.map (reach width) else b.nodes[i]? :=
    fun i => getElem?_abandon width b.opened b.nodes i
  constructor
  · intro id hid
    have := h.lt id hid
    rw [Builder.finish, size_abandon]
    exact this
  · intro i n' hn'
    rw [hget] at hn'
    by_cases hi : i ∈ b.opened
    · rw [if_pos hi] at hn'
      obtain ⟨n, hn, rfl⟩ := Option.map_eq_some_iff.1 hn'
      obtain ⟨e, he, hc⟩ := h.linked.element_of_open hi hn
      constructor
      · intro hid
        exact Node.covers_reach he hc (h.inside hid hn).1 hle
      · intro hcov
        refine Classical.byContradiction ?_
        intro hid
        have hlt := hcov.start_lt
        change min n.span.start width < offset at hlt
        rcases h.outside hid hn with ⟨h1, -⟩ | h2
        · exact h1 hi
        · omega
    · rw [if_neg hi] at hn'
      constructor
      · intro hid
        rcases (h.inside hid hn').2 with h1 | h1
        · exact absurd h1 hi
        · exact h1
      · intro hcov
        refine Classical.byContradiction ?_
        intro hid
        have hlt := hcov.start_lt
        rcases h.outside hid hn' with ⟨-, h1⟩ | h2
        · exact h1 hcov
        · omega

theorem Placed.sorted_finish (h : b.Placed text p) : (b.finish p).Sorted := by
  have hget : ∀ {i : Nat} {n' : Node}, (b.finish p).node? i = some n' →
      ∃ n, b.nodes[i]? = some n ∧ n'.span.start = n.span.start := by
    intro i n' hn'
    rw [show (b.finish p).node? i = _ from getElem?_abandon p b.opened b.nodes i] at hn'
    split at hn'
    · obtain ⟨n, hn, rfl⟩ := Option.map_eq_some_iff.1 hn'
      exact ⟨n, hn, Nat.min_eq_left (h.spaced.start_le hn)⟩
    · exact ⟨n', hn', rfl⟩
  refine List.pairwise_iff_getElem.2 ?_
  intro i j hi hj hij
  have hnode : ∀ {k : Nat} (hk : k < (b.finish p).nodes.toList.length),
      (b.finish p).node? k = some ((b.finish p).nodes.toList[k]) := by
    intro k hk
    rw [Tree.node?, ← Array.getElem?_toList]
    exact List.getElem?_eq_getElem hk
  obtain ⟨m, hm, hms⟩ := hget (hnode hi)
  obtain ⟨n, hn, hns⟩ := hget (hnode hj)
  rw [hms, hns]
  exact h.sorted hij hm hn

end Builder

theorem Tree.sorted_parse (text : String) : (Tree.parse text).Sorted := by
  have hb : Builder.Placed text.toList (Text.width text.toList)
      ((Event.ofText text.toList).foldl Builder.apply .empty) :=
    Cursor.events_keep (fun p b => b.Placed text.toList p)
      (fun _ _ _ hpq h => h.mono hpq) (fun _ _ _ hs hp h => h.put hs hp) (.refl _)
      (Builder.placed_empty _)
  exact hb.sorted_finish

end ProjectSense
