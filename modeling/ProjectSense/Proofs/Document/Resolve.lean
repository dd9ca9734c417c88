import ProjectSense.Document.Resolve
import ProjectSense.Proofs.Markup.Inside

/-!
# Names and values at an offset

What resolves at an offset agrees with the spans of the tree: an offset that touches the name of an
element, or the name or the value of one of its attributes, resolves to just that.

* `Document.resolve?_inside`: inside a start tag an offset resolves in the element of the tag.
* `Document.resolve?_touches`: what an offset touches is what it resolves to.
-/

namespace ProjectSense

namespace Attribute

variable {text : List Char} {a : Attribute} {offset : Nat}

theorem Sound.le_of_onAttribute (h : a.Sound text) (ho : Tree.onAttribute offset a = true) :
    offset ≤ a.span.stop := by
  have hn := h.name_le
  simp only [Tree.onAttribute, Bool.or_eq_true, Option.any_eq_true, Span.touches_iff] at ho
  rcases ho with ho | ⟨s, hs, ho⟩
  · omega
  · have := (h.valueSpan_inside hs).2.2
    omega

/-- no offset is on the name and on the value -/
theorem Sound.not_touches_name {s : Span} (h : a.Sound text) (hs : a.valueSpan = some s)
    (ho : s.touches offset = true) : a.nameSpan.touches offset = false := by
  have hlt := (h.valueSpan_inside hs).1
  rw [Span.touches_iff] at ho
  rw [Bool.eq_false_iff, ne_eq, Span.touches_iff]
  omega

end Attribute

namespace Element

variable {text : List Char} {span : Span} {e : Element} {a : Attribute} {offset k : Nat}

theorem inStartTag_iff : e.inStartTag offset = true ↔
    offset < e.startTag.stop ∨ e.startTagClosed = false ∧ offset = e.startTag.stop := by
  simp [inStartTag]

theorem Parted.inStartTag_of_name (h : e.Parted) (hs : e.Sound text span)
    (ho : e.nameSpan.touches offset = true) :
    e.startTag.start < offset ∧ e.inStartTag offset = true := by
  rw [Span.touches_iff] at ho
  have hle := hs.name_inside.2
  refine ⟨Nat.lt_of_lt_of_le h.start_lt ho.1, inStartTag_iff.2 ?_⟩
  cases hc : e.startTagClosed with
  | true => exact Or.inl (Nat.lt_of_le_of_lt ho.2 (h.ended hc).1)
  | false =>
    rcases Nat.lt_or_eq_of_le (Nat.le_trans ho.2 hle) with hlt | heq
    · exact Or.inl hlt
    · exact Or.inr ⟨rfl, heq⟩

theorem Parted.inStartTag_of_attribute (h : e.Parted) (hs : e.Sound text span)
    (ha : a ∈ e.attributes.toList) (ho : Tree.onAttribute offset a = true) :
    e.nameSpan.stop < offset ∧ e.startTag.start < offset ∧ e.inStartTag offset = true := by
  obtain ⟨hsound, -, hle⟩ := hs.attributes a ha
  have hbegin := (hsound.bounds_of_onAttribute ho).1
  have hend := hsound.le_of_onAttribute ho
  have hname := h.name_lt a ha
  have hstart := h.start_lt
  have hvalid := hs.name.within.le
  refine ⟨by omega, by omega, inStartTag_iff.2 ?_⟩
  cases hc : e.startTagClosed with
  | true =>
    have := (h.ended hc).2 a ha
    exact Or.inl (by omega)
  | false =>
    rcases Nat.lt_or_eq_of_le (Nat.le_trans hend hle) with hlt | heq
    · exact Or.inl hlt
    · exact Or.inr ⟨rfl, heq⟩

/-- at most one attribute is at an offset, so the first that is found is it -/
theorem Sound.findIdx?_onAttribute (hs : e.Sound text span) (ha : e.attributes[k]? = some a)
    (ho : Tree.onAttribute offset a = true) :
    e.attributes.findIdx? (Tree.onAttribute offset) = some k := by
  obtain ⟨hk, rfl⟩ := Array.getElem?_eq_some_iff.1 ha
  refine Array.findIdx?_eq_some_iff_getElem.2 ⟨hk, ho, fun j hj hon => ?_⟩
  exact (List.pairwise_iff_getElem.1 hs.apart j k (Nat.lt_trans hj hk) hk hj).2 offset ⟨hon, ho⟩

end Element

namespace Document

variable {d : Document} {text : String} {id offset k : Nat} {e : Element} {a : Attribute}

/-- the offset resolves to a place in the element, on the attribute at an index or on none -/
def ResolvesTo (d : Document) (offset id : Nat) (place : Place) (index : Option Nat) : Prop :=
  ∃ r, d.resolve? offset = some r ∧ r.site.element = id ∧ r.place = place ∧
    r.site.attr.map (·.index) = index

theorem resolveIn_name {s : Site} (ho : e.nameSpan.touches offset = true) :
    (d.resolveIn s e offset).place = .elementName ∧ (d.resolveIn s e offset).site = s := by
  rw [resolveIn, if_pos ho]
  exact ⟨rfl, rfl⟩

theorem resolveIn_attribute {s : Site} (hname : e.nameSpan.touches offset = false)
    (hin : e.inStartTag offset = true) (ha : e.attributes[k]? = some a)
    (hk : e.attributes.findIdx? (Tree.onAttribute offset) = some k) :
    (d.resolveIn s e offset).place =
        (if a.nameSpan.touches offset then .attributeName else .attributeValue) ∧
      (d.resolveIn s e offset).site.element = s.element ∧
      (d.resolveIn s e offset).site.attr.map (·.index) = some k := by
  rw [resolveIn, if_neg (by simp [hname]), if_pos hin]
  simp only [resolveInTag, hk, ha]
  split
  · exact ⟨rfl, rfl, rfl⟩
  · exact ⟨rfl, rfl, rfl⟩

theorem resolve?_of_innermostAt (hi : d.tree.innermostAt offset = some id)
    (he : d.tree.element? id = some e) : ∃ s : Site, s.element = id ∧ s.attr = none ∧
      d.resolve? offset = some (d.resolveIn s e offset) :=
  ⟨⟨id, e.name, d.tree.parentName? id, d.tree.rule? id, none⟩, rfl, rfl, by
    simp [resolve?, hi, he, Site.ofElement?, Tree.elementName?]⟩

/-- the element in its parts, as it stands in the text -/
theorem parted_of_parse (ht : d.tree = Tree.parse text) (he : d.tree.element? id = some e) :
    e.Parted ∧ ∃ span, e.Sound text.toList span := by
  rw [ht] at he
  obtain ⟨n, hn, hcon⟩ := Tree.node?_of_element? he
  exact ⟨(Tree.tagsApart_parse text).parted hn hcon, n.span,
    (Tree.sound_parse hn).element e hcon⟩

/-- inside a start tag an offset resolves in the element of the tag -/
theorem resolve?_inside (ht : d.tree = Tree.parse text) (he : d.tree.element? id = some e)
    (hlt : e.startTag.start < offset) (hin : e.inStartTag offset = true) :
    ∃ s : Site, s.element = id ∧ s.attr = none ∧
      d.resolve? offset = some (d.resolveIn s e offset) := by
  refine resolve?_of_innermostAt ?_ he
  rw [ht] at he ⊢
  exact Tree.innermostAt_startTag he hlt (Element.inStartTag_iff.1 hin)

theorem resolvesTo_attribute (ht : d.tree = Tree.parse text) (he : d.tree.element? id = some e)
    (ha : e.attributes[k]? = some a) (ho : Tree.onAttribute offset a = true) :
    d.ResolvesTo offset id
      (if a.nameSpan.touches offset then .attributeName else .attributeValue) (some k) := by
  obtain ⟨hp, span, hs⟩ := parted_of_parse ht he
  have hmem : a ∈ e.attributes.toList := List.mem_of_getElem? (Array.getElem?_toList.trans ha)
  obtain ⟨hname, hlt, hin⟩ := hp.inStartTag_of_attribute hs hmem ho
  have hoff : e.nameSpan.touches offset = false := by
    rw [Bool.eq_false_iff, ne_eq, Span.touches_iff]
    omega
  obtain ⟨s, hsid, -, hres⟩ := resolve?_inside ht he hlt hin
  obtain ⟨hplace, hel, hindex⟩ :=
    resolveIn_attribute (d := d) (s := s) hoff hin ha (hs.findIdx?_onAttribute ha ho)
  exact ⟨_, hres, hel.trans hsid, hplace, hindex⟩

/-- an offset that touches the name of an element, or the name or the value of an attribute,
resolves to just that -/
theorem resolve?_touches (ht : d.tree = Tree.parse text) (he : d.tree.element? id = some e)
    (offset : Nat) :
    (e.nameSpan.touches offset = true → d.ResolvesTo offset id .elementName none) ∧
    ∀ k a, e.attributes[k]? = some a →
      (a.nameSpan.touches offset = true → d.ResolvesTo offset id .attributeName (some k)) ∧
      ∀ s, a.valueSpan = some s → s.touches offset = true →
        d.ResolvesTo offset id .attributeValue (some k) := by
  obtain ⟨hp, span, hs⟩ := parted_of_parse ht he
  refine ⟨fun ho => ?_, fun k a ha => ⟨fun ho => ?_, fun s hv ho => ?_⟩⟩
  · obtain ⟨hlt, hin⟩ := hp.inStartTag_of_name hs ho
    obtain ⟨site, hsid, hattr, hres⟩ := resolve?_inside ht he hlt hin
    obtain ⟨hplace, hsite⟩ := resolveIn_name (d := d) (s := site) ho
    exact ⟨_, hres, by rw [hsite, hsid], hplace, by rw [hsite, hattr]; rfl⟩
  · have hon : Tree.onAttribute offset a = true := by simp [Tree.onAttribute, ho]
    have hres := resolvesTo_attribute ht he ha hon
    rwa [if_pos ho] at hres
  · have hmem : a ∈ e.attributes.toList := List.mem_of_getElem? (Array.getElem?_toList.trans ha)
    have hname := (hs.attributes a hmem).1.not_touches_name hv ho
    have hon : Tree.onAttribute offset a = true := by simp [Tree.onAttribute, hv, ho]
    have hres := resolvesTo_attribute ht he ha hon
    rwa [if_neg (by simp [hname])] at hres

/-- a value that is still open, at the end of the text -/
theorem resolve?_touches_open_value :
    let d := build (parse "/a.proj" "<a b=\"c")
    d.tree = Tree.parse "<a b=\"c" ∧ d.ResolvesTo 7 0 .attributeValue (some 0) := by
  refine ⟨rfl, ?_⟩
  have he : (build (parse "/a.proj" "<a b=\"c")).tree.element? 0 = some
      ⟨"a", ⟨1, 2⟩, #[⟨"b", ⟨3, 4⟩, some "c", some ⟨6, 7⟩, ⟨3, 7⟩, false⟩], #[], ⟨0, 7⟩, false,
        false, none⟩ := by
    decide +kernel
  exact ((resolve?_touches rfl he 7).2 0 _ rfl).2 ⟨6, 7⟩ rfl rfl

end Document
end ProjectSense
