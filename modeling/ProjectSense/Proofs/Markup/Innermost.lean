import ProjectSense.Proofs.Markup.Inside
import ProjectSense.Proofs.Markup.Preorder

/-!
# The innermost element

The elements that cover an offset are one inside the other, so that the last of them is inside all
the others: one and the elements around it.

* `Builder.Bare`: an element whose tag closes itself holds nothing.
* `Tree.precedes_of_lt`: what is not inside an earlier node begins after its end.
* `Tree.innermostAt_parse`: the innermost element and those around it cover the offset, no others.
-/

namespace ProjectSense

namespace Builder

variable {b : Builder} {nodes : Array Node}

/-! ### Elements that close themselves -/

/-- an element whose start tag closes it holds nothing -/
structure Bare (nodes : Array Node) : Prop where
  children : ∀ {i : Nat} {n : Node} {e : Element}, nodes[i]? = some n → n.content = .element e →
    e.selfClosing = true → n.children = []

theorem Bare.add {span : Span} {content : Content} {opens : Bool} (h : Bare b.nodes)
    (hl : b.Linked) (hc : (⟨b.opened.head?, span, content⟩ : Node).children = []) :
    Bare (b.add span content opens).nodes := by
  refine ⟨fun {i n' e'} hn' he' hself => ?_⟩
  rw [getElem?_add] at hn'
  split at hn'
  · rw [← Option.some.inj hn', hc]
  split at hn'
  · -- a node with a new child is open, so that its tag has not closed it
    next htop =>
    obtain ⟨n, hn, rfl⟩ := Option.map_eq_some_iff.1 hn'
    obtain ⟨e, he, hopen⟩ := hl.element_of_open (List.mem_of_head? htop) hn
    simp only [adoptNode, changeElement, he, Content.element.injEq] at he'
    rw [← he'] at hself
    rw [Element.isClosed, hself] at hopen
    cases hopen
  · exact h.children hn' he' hself

theorem Bare.close {name : String} {tag : Span} (h : Bare b.nodes) (hl : b.Linked) :
    Bare (b.close name tag).nodes := by
  refine ⟨fun {i n' e'} hn' he' hself => ?_⟩
  obtain ⟨n, hn, hcase⟩ := close_node_cases hl hn'
  cases hcase with
  | closed =>
    rw [children_closeNode]
    obtain ⟨parent, span, content⟩ := n
    cases content with
    | text raw => rfl
    | element e =>
      obtain rfl := Content.element.inj he'
      exact h.children hn rfl hself
  | ended => exact h.children (n := n) hn he' hself
  | kept => exact h.children hn he' hself

theorem Bare.put (h : Bare b.nodes) (hl : b.Linked) (part : Part) : Bare (b.put part).nodes := by
  cases part with
  | text raw s => exact h.add hl rfl
  | tag t => exact h.add hl rfl
  | close name s => exact h.close hl

theorem Bare.finish (h : Bare b.nodes) (width : Nat) : Bare (b.finish width).nodes := by
  refine ⟨fun {i n' e'} hn' he' hself => ?_⟩
  rw [show (b.finish width).nodes[i]? = _ from getElem?_abandon width b.opened b.nodes i] at hn'
  split at hn'
  · obtain ⟨n, hn, rfl⟩ := Option.map_eq_some_iff.1 hn'
    exact h.children (n := n) hn he' hself
  · exact h.children hn' he' hself

end Builder

namespace Tree

variable {text : String} {t : Tree} {c i id j k offset p : Nat}

theorem bare_parse (text : String) : Builder.Bare (parse text).nodes := by
  have hb := Cursor.events_keep (fun _ b => b.Linked ∧ Builder.Bare b.nodes)
    (fun _ _ _ _ h => h) (fun _ _ part _ _ h => ⟨h.1.put part, h.2.put h.1 part⟩)
    (.refl ⟨0, text.toList⟩) ⟨Builder.linked_empty, ⟨fun hn => by cases hn⟩⟩
  exact hb.2.finish _

/-! ### Nodes one after the other -/

theorem rel_of_ordered {R : Nat → Nat → Prop} {ids : List Nat} (ho : ids.Pairwise (· < ·))
    (hr : ids.Pairwise R) (hi : i ∈ ids) (hj : j ∈ ids) (hlt : i < j) : R i j := by
  induction ids with
  | nil => cases hi
  | cons id ids ih =>
    obtain ⟨ho, hos⟩ := List.pairwise_cons.1 ho
    obtain ⟨hr, hrs⟩ := List.pairwise_cons.1 hr
    rcases List.mem_cons.1 hj with rfl | hj'
    · rcases List.mem_cons.1 hi with rfl | hi'
      · exact absurd hlt (Nat.lt_irrefl i)
      · exact absurd hlt (Nat.lt_asymm (ho i hi'))
    · rcases List.mem_cons.1 hi with rfl | hi'
      · exact hr j hj'
      · exact ih hos hrs hi' hj'

/-- the one node ends where the other does or before -/
theorem Precedes.trans_left {text : List Char} (hf : t.Faithful text) (hl : t.Linked)
    (h : t.Precedes i k) (hin : i = j ∨ i ∈ t.ancestors j) : t.Precedes j k := by
  rcases hin with rfl | hmem
  · exact h
  induction j using Nat.strong_induction_on with
  | _ j ih =>
    obtain ⟨p, hp, hi⟩ := hl.mem_ancestors_iff.1 hmem
    have hpk : t.Precedes p k := by
      rcases hi with rfl | hi
      · exact h
      · exact ih p (hl.parent_lt hp) hi
    obtain ⟨n, m, hn, hm, -, -, hle⟩ := hf.child p j (hl.mem_children.2 hp)
    obtain ⟨n', l, hn', hk, hpk⟩ := hpk
    obtain rfl := Option.some.inj (hn.symm.trans hn')
    exact ⟨m, l, hm, hk, Nat.le_trans hle hpk⟩

/-- what is not inside an earlier node begins after its end -/
theorem precedes_of_lt {text : List Char} (hf : t.Faithful text) (hl : t.Linked) (hn : t.Nested)
    (hk : k < t.nodes.size) (hjk : j < k) (hout : j ∉ t.ancestors k) : t.Precedes j k := by
  induction k using Nat.strong_induction_on with
  | _ k ih =>
    cases hp : t.parent? k with
    | none =>
      -- both have a node at the top around them
      obtain ⟨root, hroot, hlast⟩ := hl.last_ancestor (Nat.lt_trans hjk hk)
      have hin := List.mem_cons.1 (List.mem_of_getLast? hlast)
      have hle : root ≤ j := hin.elim Nat.le_of_eq fun h => Nat.le_of_lt (lt_of_mem_ancestors h)
      have hlt : root < k := Nat.lt_of_le_of_lt hle hjk
      exact (rel_of_ordered hl.roots_ordered hf.roots hroot (hl.mem_roots.2 ⟨hk, hp⟩)
        hlt).trans_left hf hl hin
    | some p =>
      have hmem := hl.mem_children.2 hp
      have hpk := hl.parent_lt hp
      rcases Nat.lt_trichotomy j p with hlt | rfl | hgt
      · -- what begins after the end of the other holds the node
        have hout' : j ∉ t.ancestors p := fun h => hout (hl.mem_ancestors_iff.2 ⟨p, hp, .inr h⟩)
        obtain ⟨l, n, hj, hpn, hle⟩ := ih p hpk (Nat.lt_trans hpk hk) hlt hout'
        obtain ⟨n', m, hn', hm, -, hle', -⟩ := hf.child p k hmem
        obtain rfl := Option.some.inj (hpn.symm.trans hn')
        exact ⟨l, m, hj, hm, Nat.le_trans hle hle'⟩
      · exact absurd (hl.mem_ancestors_iff.2 ⟨j, hp, .inl rfl⟩) hout
      · -- they are in different children of the same element
        obtain ⟨c, hc, hin⟩ := hl.exists_child (hn.mem_ancestors hl hp hgt hjk)
        have hle : c ≤ j := hin.elim Nat.le_of_eq fun h => Nat.le_of_lt (lt_of_mem_ancestors h)
        exact (rel_of_ordered (hl.children_ordered p) (hf.children p) hc hmem
          (Nat.lt_of_le_of_lt hle hjk)).trans_left hf hl hin

/-! ### Elements that cover an offset -/

/-- the node is an element that the offset is inside of, or at the end of if it is not closed -/
def Covers (t : Tree) (offset id : Nat) : Prop :=
  ∃ n e, t.node? id = some n ∧ n.content = .element e ∧ n.span.start < offset ∧
    (offset < n.span.stop ∨ offset = n.span.stop ∧ e.isClosed = false)

theorem covers_iff : t.Covers offset id ↔ ∃ n, t.node? id = some n ∧ n.Covers offset := by
  simp only [Covers, Node.Covers, Node.covers_iff]
  constructor
  · rintro ⟨n, e, hn, he, hc⟩
    exact ⟨n, hn, e, he, hc⟩
  · rintro ⟨n, hn, e, he, hc⟩
    exact ⟨n, e, hn, he, hc⟩

/-- the element around one that covers the offset covers it -/
theorem covers_parent (hp : (parse text).parent? c = some p) (hc : (parse text).Covers offset c) :
    (parse text).Covers offset p := by
  have hl := linked_parse text
  obtain ⟨m, e, hm, he, hstart, hstop⟩ := hc
  have hmem := hl.mem_children.2 hp
  obtain ⟨n, m', hn, hm', hbetween, hle, hle'⟩ := (faithful_parse text).child p c hmem
  obtain rfl := Option.some.inj (hm.symm.trans hm')
  obtain ⟨outer, houter⟩ := Option.isSome_iff_exists.1 (hl.isElement_of_parent hp)
  obtain ⟨n', hn', hcontent⟩ := node?_of_element? houter
  obtain rfl := Option.some.inj (hn.symm.trans hn')
  refine ⟨n, outer, hn, hcontent, Nat.lt_of_le_of_lt hle hstart, ?_⟩
  by_cases hlt : offset < n.span.stop
  · exact .inl hlt
  · refine .inr ⟨by omega, Bool.or_eq_false_iff.2 ⟨?_, ?_⟩⟩
    · -- an element that holds something is not closed by its start tag
      refine Bool.eq_false_of_not_eq_true fun hself => ?_
      rw [children_of_node? hn, (bare_parse text).children hn hcontent hself] at hmem
      cases hmem
    · -- a closing tag would stand after the inner element
      refine Option.isSome_eq_false_iff.2 (Option.isNone_iff_eq_none.2 ?_)
      refine Option.eq_none_iff_forall_ne_some.2 fun tag htag => ?_
      have h1 := (hbetween outer hcontent).2 tag htag
      have h2 := ((tagsApart_parse text).parted hn hcontent).closingTag tag htag
      have h3 := (((sound_parse hn).element outer hcontent).closingTag tag htag).2.2
      omega

theorem covers_ancestors (hc : (parse text).Covers offset id) :
    ∀ a ∈ (parse text).ancestors id, (parse text).Covers offset a := by
  induction id using Nat.strong_induction_on with
  | _ id ih =>
    intro a ha
    obtain ⟨p, hp, ha⟩ := (linked_parse text).mem_ancestors_iff.1 ha
    have hcp := covers_parent hp hc
    rcases ha with rfl | ha
    · exact hcp
    · exact ih p ((linked_parse text).parent_lt hp) hcp a ha

/-- The element that is found at an offset covers it, as do the elements around it, and nothing else
does, so nothing inside it; nothing is found just where no element covers the offset. -/
theorem innermostAt_parse (text : String) (offset : Nat) :
    let t := parse text
    (t.innermostAt offset = none ∧ ∀ id, ¬t.Covers offset id) ∨
      ∃ id, t.innermostAt offset = some id ∧ t.Covers offset id ∧
        (∀ d ∈ t.descendants id, ¬t.Covers offset d) ∧
        (∀ a ∈ t.ancestors id, t.Covers offset a) ∧
        ∀ other, t.Covers offset other → other = id ∨ other ∈ t.ancestors id := by
  intro t
  obtain ⟨hl, hn⟩ : t.Linked ∧ t.Nested := nested_ofEvents _ _
  rcases innermostAt_cases (sorted_parse text) offset with
    ⟨hnone, hout⟩ | ⟨id, n, hfound, hid, hcov, hlast⟩
  · refine .inl ⟨hnone, fun id hc => ?_⟩
    obtain ⟨n, hid, hcov⟩ := covers_iff.1 hc
    exact hout id n hid hcov
  have hc : t.Covers offset id := covers_iff.2 ⟨n, hid, hcov⟩
  have hle : ∀ j, t.Covers offset j → j ≤ id := fun j hj => by
    obtain ⟨m, hm, hmc⟩ := covers_iff.1 hj
    exact hlast j m hm hmc
  refine .inr ⟨id, hfound, hc, fun d hd hcd => ?_, covers_ancestors hc, fun other hco => ?_⟩
  · have := lt_of_mem_ancestors (hl.mem_descendants_iff.1 hd).2
    have := hle d hcd
    omega
  · refine (Nat.eq_or_lt_of_le (hle other hco)).imp_right fun hlt => ?_
    refine Classical.byContradiction fun hout => ?_
    -- the element found would begin after the end of the other
    obtain ⟨m, n', hm, hn', hstop⟩ := precedes_of_lt (faithful_parse text) hl hn
      (lt_size_of_node? hid) hlt hout
    obtain rfl := Option.some.inj (hid.symm.trans hn')
    obtain ⟨m', e', hm', -, -, hend⟩ := hco
    obtain rfl := Option.some.inj (hm.symm.trans hm')
    have := hcov.start_lt
    omega

end Tree
end ProjectSense
