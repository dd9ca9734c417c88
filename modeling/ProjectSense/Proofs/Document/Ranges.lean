import ProjectSense.Proofs.Document.Resolve
import ProjectSense.Proofs.Expr.Placed

/-!
# Where references stand

A reference in a value or in content points at its name: at the name in the node of the expression
that is at the offset, or at the literal text that spells it.

* `Registry.nodeReference?_holds`: what stands at the reference of a node.
* `Document.resolveIn_value`: the value that a resolution in a value or in content is about.
* `Document.resolve?_points`: every reference in a document points at its name.
-/

namespace ProjectSense

namespace Reference

/-- the name that a reference has in the text, without what it belongs to -/
def name : Reference → String
  | .item name | .metadata _ name | .property name | .task name | .target name
  | .framework name | .frameworkIdentifier name | .frameworkVersion name
  | .frameworkProfile name | .parameter _ name | .itemFunction name | .staticFunction _ name
  | .propertyFunction _ name | .klass name => name
  | .element rule => rule.name
  | .attr rule => rule.name
  | .known value => value.name

/-- the word spells the reference: a fixed value in any case, all others as they are -/
def SpelledBy (ref : Reference) (word : String) : Prop :=
  match ref with
  | .known value => sameName value.name word = true
  | ref => ref.name = word

end Reference

/-- `found` is the name of the reference, as the node has it: literal text is escaped and may stand
between blanks -/
def Expr.Names (node : Expr) (ref : Reference) (found : String) : Prop :=
  if node.isText then ref.SpelledBy (trimmed (unescape found)) else ref.name = found

/-! ### Nodes -/

theorem Site.spelledBy_of_literalReference? {s : Site} {kind : ValueKind} {value : String}
    {ref : Reference} (h : s.literalReference? kind value = some ref) : ref.SpelledBy value := by
  unfold Site.literalReference? at h
  split at h
  · cases h
  split at h
  case h_10 =>
    obtain ⟨task, -, rfl⟩ := Option.map_eq_some_iff.1 h
    rfl
  case h_11 =>
    obtain ⟨value', hknown, rfl⟩ := Option.map_eq_some_iff.1 h
    obtain ⟨values, -, hfind⟩ := Option.bind_eq_some_iff.1 hknown
    exact (List.find?_eq_some_iff_append.1 hfind).1
  all_goals
    obtain rfl := Option.some.inj h
    rfl

namespace Registry

variable {r : Registry} {s : Site} {base offset : Nat} {text : List Char} {node : Expr}
  {ref : Reference} {range : Span}

/-- what stands where the reference of a node is names it -/
theorem nodeReference?_holds (h : node.NamesStand base text)
    (hr : r.nodeReference? s offset node = some (ref, range)) :
    ∃ found : String, range.Holds base text found.toList ∧ node.Names ref found := by
  cases node with
  | text span raw =>
    simp only [nodeReference?] at hr
    split at hr
    · cases hr
    · obtain ⟨ref', href, heq⟩ := Option.map_eq_some_iff.1 hr
      obtain ⟨rfl, rfl⟩ := Prod.mk.inj heq
      exact ⟨raw, h, Site.spelledBy_of_literalReference? href⟩
  | property span name complete | item span name transforms separator complete
  | metadata span owner name complete =>
    simp only [nodeReference?] at hr
    split at hr
    · cases hr
    · obtain ⟨rfl, rfl⟩ := Prod.mk.inj (Option.some.inj hr)
      exact ⟨name.text, h, rfl⟩
  | call span callee calleeSpan name =>
    obtain ⟨hname, hcallee⟩ := h
    simp only [nodeReference?] at hr
    split at hr
    · obtain ⟨rfl, rfl⟩ := Prod.mk.inj (Option.some.inj hr)
      refine ⟨name.text, hname, ?_⟩
      cases callee with
      | property | klass | item => rfl
    · obtain ⟨rfl, rfl⟩ := Prod.mk.inj (Option.some.inj hr)
      refine ⟨callee.name, hcallee, ?_⟩
      cases callee with
      | property | klass | item => rfl
  | concat span parts => cases hr
  | list span entries => cases hr

/-- the node that a reference in a value comes from, and what stands at the reference -/
theorem valueReference?_holds {raw : String}
    (hr : r.valueReference? s raw base offset = some (ref, range)) :
    ∃ node, (Expr.parse raw base).findAt offset = some node ∧
      r.nodeReference? s offset node = some (ref, range) ∧
      ∃ found : String, range.Holds base raw.toList found.toList ∧ node.Names ref found := by
  obtain ⟨node, hnode, href⟩ := Option.bind_eq_some_iff.1 hr
  have hplaced := (Expr.placed_parse raw base).findAt hnode
  exact ⟨node, hnode, href, nodeReference?_holds hplaced.namesStand href⟩

end Registry

/-! ### Values -/

theorem Tree.textAt?_some {t : Tree} {id offset : Nat} {raw : String} {span : Span}
    (h : t.textAt? id offset = some (raw, span)) :
    ∃ child ∈ t.children id, ∃ n, t.node? child = some n ∧ n.content = .text raw ∧
      n.span = span := by
  obtain ⟨child, hchild, hfound⟩ := List.exists_of_findSome?_eq_some h
  refine ⟨child, hchild, ?_⟩
  split at hfound
  · next parent span' raw' hn =>
    split at hfound
    · obtain ⟨rfl, rfl⟩ := Prod.mk.inj (Option.some.inj hfound)
      exact ⟨_, hn, rfl, rfl⟩
    · cases hfound
  · cases hfound

namespace Document

variable {d : Document} {text : String} {offset : Nat} {e : Element} {r : Resolution}
  {ref : Reference} {raw : String} {span : Span}

/-- the resolution is about the value of the attribute that it is on, or about a text in the
element: `raw` in `span` -/
def ValueOf (d : Document) (r : Resolution) (raw : String) (span : Span) : Prop :=
  match r.place with
  | .attributeValue => ∃ e found a, d.tree.element? r.site.element = some e ∧
    r.site.attr = some found ∧ e.attributes[found.index]? = some a ∧ a.value = some raw ∧
    a.valueSpan = some span
  | .content => ∃ child ∈ d.tree.children r.site.element, ∃ n, d.tree.node? child = some n ∧
    n.content = .text raw ∧ n.span = span
  | _ => False

/-- what a resolution is about stands in the text -/
theorem ValueOf.holds (h : d.ValueOf r raw span) (ht : d.tree = Tree.parse text) :
    span.Holds 0 text.toList raw.toList := by
  unfold ValueOf at h
  split at h
  · obtain ⟨e, found, a, he, -, ha, hraw, hspan⟩ := h
    obtain ⟨-, outer, hs⟩ := parted_of_parse ht he
    have hmem : a ∈ e.attributes.toList := List.mem_of_getElem? (Array.getElem?_toList.trans ha)
    exact ((hs.attributes a hmem).1.value raw span hraw hspan).1
  · obtain ⟨child, -, n, hn, hraw, rfl⟩ := h
    rw [ht] at hn
    exact (Tree.sound_parse hn).text raw hraw
  · exact h.elim

/-- the reference of the resolution is one of the value that it is about -/
def FromValue (d : Document) (offset : Nat) (r : Resolution) (ref : Reference) : Prop :=
  ∃ range raw span, r.range = some range ∧ d.ValueOf r raw span ∧
    d.registry.valueReference? r.site raw span.start offset = some (ref, range)

theorem fromValue_inTag {s : Site} (he : d.tree.element? s.element = some e)
    (hr : d.resolveInTag s e offset = r) (hp : r.place = .attributeValue ∨ r.place = .content)
    (href : r.reference = some ref) : d.FromValue offset r ref := by
  unfold resolveInTag at hr
  split at hr
  · subst hr
    simp at hp
  split at hr
  · subst hr
    simp at hp
  next index hindex a ha =>
  by_cases hname : a.nameSpan.touches offset = true
  · simp only [if_pos hname] at hr
    subst hr
    simp at hp
  · simp only [if_neg hname] at hr
    subst hr
    cases hv : a.value with
    | none =>
      rw [hv] at href
      cases href
    | some raw =>
      cases hs : a.valueSpan with
      | none =>
        rw [hv, hs] at href
        cases href
      | some span =>
        rw [hv, hs] at href
        obtain ⟨⟨ref', range⟩, hfound, rfl⟩ := Option.map_eq_some_iff.1 href
        exact ⟨range, raw, span, congrArg (Option.map Prod.snd) hfound,
          ⟨e, _, a, he, rfl, ha, hv, hs⟩, hfound⟩

theorem fromValue_in {s : Site} (he : d.tree.element? s.element = some e)
    (hr : d.resolveIn s e offset = r) (hp : r.place = .attributeValue ∨ r.place = .content)
    (href : r.reference = some ref) : d.FromValue offset r ref := by
  unfold resolveIn at hr
  split at hr
  · subst hr
    simp at hp
  split at hr
  · exact fromValue_inTag he hr hp href
  split at hr
  · subst hr
    simp at hp
  · subst hr
    obtain ⟨⟨ref', range⟩, hfound, rfl⟩ := Option.map_eq_some_iff.1 href
    obtain ⟨⟨raw, span⟩, htext, hvalue⟩ := Option.bind_eq_some_iff.1 hfound
    exact ⟨range, raw, span, congrArg (Option.map Prod.snd) hfound, Tree.textAt?_some htext,
      hvalue⟩

/-- the range of the reference lies in the value that the resolution is about, and what stands there
is the name that the node at the offset gives the reference -/
def PointsAtName (d : Document) (text : String) (offset : Nat) (r : Resolution)
    (ref : Reference) : Prop :=
  ∃ range raw span, r.range = some range ∧ d.ValueOf r raw span ∧
    span.start ≤ range.start ∧ range.stop ≤ span.stop ∧ range.Within 0 text.toList ∧
    ∃ node, (Expr.parse raw span.start).findAt offset = some node ∧
      d.registry.nodeReference? r.site offset node = some (ref, range) ∧
      node.Names ref (String.ofList (Text.slice 0 text.toList range))

/-- every reference in a value or in content points at its name -/
theorem resolve?_points (ht : d.tree = Tree.parse text) (hr : d.resolve? offset = some r)
    (hp : r.place = .attributeValue ∨ r.place = .content) (href : r.reference = some ref) :
    d.PointsAtName text offset r ref := by
  simp only [resolve?, Option.bind_eq_bind, Option.bind_eq_some_iff] at hr
  obtain ⟨id, -, e, he, s, hs, hr⟩ := hr
  obtain ⟨name, -, rfl⟩ := Option.map_eq_some_iff.1 hs
  obtain ⟨range, raw, span, hrange, hvalue, hfound⟩ :=
    fromValue_in he (Option.some.inj hr) hp href
  obtain ⟨node, hnode, hnodeRef, found, hholds, hnames⟩ := Registry.valueReference?_holds hfound
  -- what stands in the value stands in the text: the expression counts from where the value begins
  obtain ⟨hin, hstart, hstop⟩ := (hvalue.holds ht).nested hholds
  refine ⟨range, raw, span, hrange, hvalue, hstart, hstop, hin.within, node, hnode, hnodeRef, ?_⟩
  rw [hin.slice_eq, String.ofList_toList]
  exact hnames

/-- literal text that is escaped and stands between blanks, and a property after it -/
theorem resolve?_points_list :
    let text := "<Project><Target DependsOnTargets=\" %61 ;$(X)\"/></Project>"
    let d := build (parse "/a.proj" text)
    let points : Reference → Nat → Prop := fun ref offset => ∃ r, d.resolve? offset = some r ∧
      r.reference = some ref ∧ d.PointsAtName text offset r ref
    points (.target "a") 38 ∧ points (.property "X") 44 := by
  intro text d points
  have hfound : ∀ ref offset, (d.resolve? offset).any (fun r => decide
      (r.place = .attributeValue ∧ r.reference = some ref)) = true → points ref offset := by
    intro ref offset h
    obtain ⟨r, hr, hdec⟩ := (Option.any_eq_true ..).1 h
    obtain ⟨hp, href⟩ := of_decide_eq_true hdec
    exact ⟨r, hr, href, resolve?_points rfl hr (Or.inl hp) href⟩
  exact ⟨hfound _ _ (by decide +kernel), hfound _ _ (by decide +kernel)⟩

end Document
end ProjectSense
