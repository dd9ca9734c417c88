import ProjectSense.Proofs.Checked.Markup
import ProjectSense.Proofs.Markup.Links

/-!
# Building trees by indices

The builder once more, as a program that reaches every node through its index and makes every span
anew.  An index that is past the end, one that 32 bits do not hold, and a span whose ends are out
of order are failures.

* `Checked.step?_eq`: an event that fits is taken, and the builder stays safe.
* `Checked.tree?_eq`: every short text has its tree.
-/

namespace ProjectSense.Checked

open Text (width)
open Builder (changeElement)

/-! ### The builder -/

/-- the least span that holds both spans -/
def cover? (s t : Span) : Option Span := span? (min s.start t.start) (max s.stop t.stop)

/-- the nodes with the one at the index changed -/
def modify? (nodes : Array Node) (id : Nat) (change? : Node → Option Node) :
    Option (Array Node) := do
  let n ← nodes[id]?
  let changed ← change? n
  some (nodes.modify id fun _ => changed)

/-- the node with its span reaching `pos` -/
def reach? (pos : Nat) (n : Node) : Option Node := do
  let span ← cover? n.span (.empty pos)
  some { n with span := span }

/-- the node with `change?` made to the element that it is -/
def changeElement? (change? : Element → Option Element) (n : Node) : Option Node :=
  match n.content with
  | .element e => (change? e).map fun e => { n with content := .element e }
  | .text _ => some n

/-- puts a node under the innermost open element, or at the top -/
def push? (b : Builder) (span : Span) (content : Content) : Option Builder := do
  let id ← word? b.nodes.size
  let node : Node := ⟨b.opened.head?, span, content⟩
  match b.opened with
  | parent :: _ =>
    let nodes ← modify? b.nodes parent fun n =>
      some (changeElement (fun e => { e with children := e.children.push id }) n)
    some { b with nodes := nodes.push node }
  | [] => some { b with nodes := b.nodes.push node, roots := b.roots.push id }

/-- opens an element -/
def start? (b : Builder) (name : String) (nameSpan : Span) (pos : Nat) : Option Builder := do
  let tag ← span? pos nameSpan.stop
  let pushed ← push? b tag (.element ⟨name, nameSpan, #[], #[], tag, false, false, none⟩)
  some { pushed with opened := b.nodes.size :: b.opened }

/-- the element changed, with its start tag reaching `pos` -/
def extendTag? (pos : Nat) (change : Element → Element) (e : Element) : Option Element := do
  let tag ← cover? e.startTag (.empty pos)
  some (change { e with startTag := tag })

/-- changes the innermost open element, which reaches `pos` -/
def changeInnermost? (b : Builder) (pos : Nat) (change : Element → Element) : Option Builder :=
  match b.opened with
  | [] => some b
  | id :: _ => do
    let nodes ← modify? b.nodes id fun n => do
      let n ← changeElement? (extendTag? pos change) n
      reach? pos n
    some { b with nodes := nodes }

/-- leaves elements open for good; they end at `pos` -/
def abandon? (pos : Nat) (ids : List Nat) (nodes : Array Node) : Option (Array Node) :=
  ids.foldlM (fun nodes id => modify? nodes id (reach? pos)) nodes

/-- the elements inside the innermost one of the name, and that one with those around it -/
def search? (b : Builder) (name : String) : List Nat → Option (List Nat × List Nat)
  | [] => some ([], [])
  | id :: ids => do
    let n ← b.nodes[id]?
    if n.element?.any (·.name = name) then some ([], id :: ids)
    else do
      let (inner, found) ← search? b name ids
      some (id :: inner, found)

/-- the node with its closing tag -/
def closeNode? (tag : Span) (n : Node) : Option Node := do
  let span ← cover? n.span tag
  some { changeElement (fun e => { e with closingTag := some tag }) n with span := span }

/-- closes the innermost open element of the name -/
def close? (b : Builder) (name : String) (tag : Span) : Option Builder := do
  let (inner, found) ← search? b name b.opened
  match found with
  | [] => some b
  | id :: outer =>
    let nodes ← abandon? tag.start inner b.nodes
    let nodes ← modify? nodes id (closeNode? tag)
    some { b with nodes := nodes, opened := outer }

/-- the builder after an event -/
def step? (b : Builder) : Event → Option Builder
  | .start name nameSpan pos => start? b name nameSpan pos
  | .attr a =>
    changeInnermost? b a.span.stop fun e => { e with attributes := e.attributes.push a }
  | .endStart pos selfClosing => do
    let ended ← changeInnermost? b pos fun e =>
      { e with startTagClosed := true, selfClosing := selfClosing }
    some (if selfClosing then { ended with opened := b.opened.tail } else ended)
  | .extend pos => changeInnermost? b pos id
  | .text raw span => push? b span (.text raw)
  | .close name span => close? b name span

/-- the tree of a text -/
def tree? (text : String) : Option Tree := do
  let stop ← word? (width text.toList)
  let events ← events? text.toList 0
  let b ← events.foldlM step? .empty
  let nodes ← abandon? stop b.opened b.nodes
  some ⟨nodes, b.roots, stop⟩

end ProjectSense.Checked

namespace ProjectSense

/-! ### What fits -/

/-- the span has its ends in order, at most at `limit` -/
def Span.Fits (limit : Nat) (s : Span) : Prop := s.start ≤ s.stop ∧ s.stop ≤ limit

/-- the spans of an event fit -/
def Event.Fits (limit : Nat) : Event → Prop
  | .start _ nameSpan pos => pos ≤ nameSpan.stop ∧ nameSpan.stop ≤ limit
  | .attr a => a.span.stop ≤ limit
  | .endStart pos _ | .extend pos => pos ≤ limit
  | .text _ span | .close _ span => span.Fits limit

/-- the event adds a node -/
def Event.adds : Event → Bool
  | .start .. | .text .. => true
  | _ => false

/-- the spans of a node that are made anew fit -/
def Node.Fits (limit : Nat) (n : Node) : Prop :=
  n.span.Fits limit ∧ ∀ e, n.content = .element e → e.startTag.Fits limit

/-- the open elements are among the nodes, and the nodes fit -/
structure Builder.Safe (limit : Nat) (b : Builder) : Prop where
  opened : ∀ id ∈ b.opened, id < b.nodes.size
  nodes : ∀ (i : Nat) (n : Node), b.nodes[i]? = some n → n.Fits limit

namespace Checked

open Text (width)
open Builder (changeElement)

variable {limit pos : Nat} {s t : Span} {n : Node} {nodes : Array Node} {b : Builder}

/-! ### Nodes that change -/

theorem modify?_eq {id : Nat} {change? : Node → Option Node} {change : Node → Node}
    (hn : nodes[id]? = some n) (hc : change? n = some (change n)) :
    modify? nodes id change? = some (nodes.modify id change) := by
  simp only [modify?, hn, hc, Option.bind_eq_bind, Option.bind_some, Option.some.injEq]
  apply Array.ext_getElem?
  intro i
  rw [Array.getElem?_modify, Array.getElem?_modify]
  split
  · next heq =>
    subst heq
    rw [hn]
    rfl
  · rfl

section Limit

variable (hl : limit < UInt32.size)
include hl

theorem cover?_eq (hs : s.Fits limit) (ht : t.Fits limit) :
    cover? s t = some (s.cover t) ∧ (s.cover t).Fits limit := by
  obtain ⟨hs1, hs2⟩ := hs
  obtain ⟨ht1, ht2⟩ := ht
  have hle : min s.start t.start ≤ max s.stop t.stop := by omega
  exact ⟨span?_of_le hle (by omega), hle, Nat.max_le.2 ⟨hs2, ht2⟩⟩

theorem reach?_eq (h : n.Fits limit) (hp : pos ≤ limit) :
    reach? pos n = some (Builder.reach pos n) ∧ (Builder.reach pos n).Fits limit := by
  obtain ⟨hcover, hfits⟩ := cover?_eq hl h.1 (t := .empty pos) ⟨Nat.le_refl _, hp⟩
  refine ⟨?_, hfits, h.2⟩
  rw [reach?, hcover]
  rfl

end Limit

/-- nodes that are changed at an index fit if the node there does -/
theorem fits_modify {id : Nat} {change : Node → Node}
    (h : ∀ (i : Nat) (n : Node), nodes[i]? = some n → n.Fits limit)
    (hc : ∀ n, nodes[id]? = some n → (change n).Fits limit) :
    ∀ (i : Nat) (n : Node), (nodes.modify id change)[i]? = some n → n.Fits limit := by
  intro i n' hn'
  rw [Array.getElem?_modify] at hn'
  split at hn'
  · next heq =>
    subst heq
    obtain ⟨n, hn, rfl⟩ := Option.map_eq_some_iff.1 hn'
    exact hc n hn
  · exact h i n' hn'

/-- a change that is the checked one, and keeps nodes fitting, can be made at an open element -/
theorem safe_modify {id : Nat} {change? : Node → Option Node} {change : Node → Node}
    (h : b.Safe limit) (hid : id < b.nodes.size)
    (hc : ∀ n, n.Fits limit → change? n = some (change n) ∧ (change n).Fits limit) :
    modify? b.nodes id change? = some (b.nodes.modify id change) ∧
      ∀ opened, (∀ i ∈ opened, i < b.nodes.size) →
        (⟨b.nodes.modify id change, b.roots, opened⟩ : Builder).Safe limit := by
  have hn : b.nodes[id]? = some b.nodes[id] := Array.getElem?_eq_getElem hid
  refine ⟨modify?_eq hn (hc _ (h.nodes id _ hn)).1, fun opened ho => ⟨?_, ?_⟩⟩
  · intro i hi
    rw [Array.size_modify]
    exact ho i hi
  · exact fits_modify h.nodes fun n hn => (hc n (h.nodes id n hn)).2

/-! ### New nodes -/

theorem fits_push {m : Node} (h : ∀ (i : Nat) (n : Node), nodes[i]? = some n → n.Fits limit)
    (hm : m.Fits limit) :
    ∀ (i : Nat) (n : Node), (nodes.push m)[i]? = some n → n.Fits limit := by
  intro i n hn
  rw [Array.getElem?_push] at hn
  split at hn
  · obtain rfl := Option.some.inj hn
    exact hm
  · exact h i n hn

theorem fits_changeElement (change : Element → Element) (h : n.Fits limit)
    (hc : ∀ e, (change e).startTag = e.startTag) : (changeElement change n).Fits limit := by
  obtain ⟨parent, span, content⟩ := n
  cases content with
  | text raw => exact h
  | element e =>
    refine ⟨h.1, ?_⟩
    rintro _ ⟨⟩
    rw [hc]
    exact h.2 e rfl

theorem push?_eq (span : Span) (content : Content) (h : b.Safe limit)
    (hroom : b.nodes.size < UInt32.size)
    (hm : (⟨b.opened.head?, span, content⟩ : Node).Fits limit) :
    push? b span content = some (b.push span content) ∧ (b.push span content).Safe limit ∧
      (b.push span content).nodes.size = b.nodes.size + 1 ∧
      (b.push span content).opened = b.opened := by
  obtain ⟨nodes, roots, opened⟩ := b
  cases opened with
  | nil =>
    refine ⟨?_, ⟨fun id hid => (by cases hid), fits_push h.nodes hm⟩, Array.size_push _, rfl⟩
    simp only [push?, word?_of_lt hroom, Option.bind_eq_bind, Option.bind_some]
    rfl
  | cons parent outer =>
    have hparent : parent < nodes.size := h.opened parent List.mem_cons_self
    obtain ⟨hmodify, hsafe⟩ := safe_modify h hparent fun n hn =>
      ⟨rfl, fits_changeElement (fun e => { e with children := e.children.push nodes.size }) hn
        fun e => rfl⟩
    refine ⟨?_, ⟨?_, fits_push (hsafe _ h.opened).nodes hm⟩, ?_, rfl⟩
    · simp only [push?, word?_of_lt hroom, hmodify, Option.bind_eq_bind, Option.bind_some]
      rfl
    · intro id hid
      have hlt := h.opened id hid
      change id < Array.size (Array.push _ _)
      rw [Array.size_push, Array.size_modify]
      exact Nat.lt_succ_of_lt hlt
    · change Array.size (Array.push _ _) = _
      rw [Array.size_push, Array.size_modify]

/-! ### Events -/

section Events

variable (hl : limit < UInt32.size)
include hl

/-- an element that is changed beside its start tag, which reaches `pos` -/
theorem extendTag?_eq {change : Element → Element} (h : n.Fits limit) (hp : pos ≤ limit)
    (hc : ∀ e, (change e).startTag = e.startTag) :
    let extend (e : Element) : Element :=
      change { e with startTag := e.startTag.coverOffset pos }
    changeElement? (extendTag? pos change) n = some (changeElement extend n) ∧
      (changeElement extend n).Fits limit := by
  intro extend
  obtain ⟨parent, span, content⟩ := n
  cases content with
  | text raw => exact ⟨rfl, h⟩
  | element e =>
    obtain ⟨hcover, hfits⟩ := cover?_eq hl (h.2 e rfl) (t := .empty pos) ⟨Nat.le_refl _, hp⟩
    refine ⟨?_, h.1, ?_⟩
    · simp only [changeElement?, extendTag?, hcover, Option.bind_eq_bind, Option.bind_some,
        Option.map_some]
      rfl
    · rintro _ ⟨⟩
      rw [hc]
      exact hfits

theorem changeInnermost?_eq (change : Element → Element) (h : b.Safe limit) (hp : pos ≤ limit)
    (hc : ∀ e, (change e).startTag = e.startTag) :
    changeInnermost? b pos change = some (b.changeInnermost pos change) ∧
      (b.changeInnermost pos change).Safe limit ∧
      (b.changeInnermost pos change).nodes.size = b.nodes.size ∧
      (b.changeInnermost pos change).opened = b.opened := by
  obtain ⟨nodes, roots, opened⟩ := b
  cases opened with
  | nil => exact ⟨rfl, h, rfl, rfl⟩
  | cons id outer =>
    have hnode : ∀ n : Node, n.Fits limit → (do
        let n ← changeElement? (extendTag? pos change) n
        reach? pos n) = some (Builder.reach pos (changeElement
          (fun e => change { e with startTag := e.startTag.coverOffset pos }) n)) ∧
        (Builder.reach pos (changeElement
          (fun e => change { e with startTag := e.startTag.coverOffset pos }) n)).Fits limit := by
      intro n hn
      obtain ⟨hextend, hfits⟩ := extendTag?_eq hl hn hp hc
      rw [hextend]
      exact reach?_eq hl hfits hp
    obtain ⟨hmodify, hsafe⟩ := safe_modify h (h.opened id List.mem_cons_self) hnode
    refine ⟨?_, hsafe _ h.opened, Array.size_modify, rfl⟩
    simp only [changeInnermost?, Builder.changeInnermost]
    rw [hmodify]
    rfl

theorem abandon?_eq {ids : List Nat} (h : b.Safe limit) (hp : pos ≤ limit)
    (hids : ∀ id ∈ ids, id < b.nodes.size) :
    abandon? pos ids b.nodes = some (Builder.abandon pos ids b.nodes) ∧
      (⟨Builder.abandon pos ids b.nodes, b.roots, b.opened⟩ : Builder).Safe limit ∧
      (Builder.abandon pos ids b.nodes).size = b.nodes.size := by
  induction ids generalizing b with
  | nil => exact ⟨rfl, h, rfl⟩
  | cons id ids ih =>
    obtain ⟨hid, hids⟩ := List.forall_mem_cons.1 hids
    obtain ⟨hmodify, hsafe⟩ := safe_modify h hid fun n hn => reach?_eq hl hn hp
    have hsize : (b.nodes.modify id (Builder.reach pos)).size = b.nodes.size := Array.size_modify
    obtain ⟨hrest, hsafe', hsize'⟩ := ih (hsafe b.opened h.opened) fun i hi => by
      rw [hsize]
      exact hids i hi
    refine ⟨?_, hsafe', hsize'.trans hsize⟩
    rw [abandon?, List.foldlM_cons, hmodify]
    exact hrest

omit hl in
/-- the search for a name looks at open elements only -/
theorem search?_eq (name : String) {ids : List Nat} (hids : ∀ id ∈ ids, id < b.nodes.size) :
    search? b name ids = some (ids.takeWhile fun id => !b.isNamed name id,
      ids.dropWhile fun id => !b.isNamed name id) := by
  induction ids with
  | nil => rfl
  | cons id ids ih =>
    obtain ⟨hid, hids⟩ := List.forall_mem_cons.1 hids
    have hn : b.nodes[id]? = some b.nodes[id] := Array.getElem?_eq_getElem hid
    have hnamed : b.isNamed name id = b.nodes[id].element?.any (·.name = name) := by
      rw [Builder.isNamed, hn]
      rfl
    simp only [search?, hn, Option.bind_eq_bind, Option.bind_some, ← hnamed]
    cases hfound : b.isNamed name id with
    | true => simp [hfound]
    | false => simp [hfound, ih hids]

theorem closeNode?_eq {tag : Span} (h : n.Fits limit) (ht : tag.Fits limit) :
    closeNode? tag n = some (Builder.closeNode tag n) ∧ (Builder.closeNode tag n).Fits limit := by
  obtain ⟨hcover, hfits⟩ := cover?_eq hl h.1 ht
  have hchanged := fits_changeElement (fun e => { e with closingTag := some tag }) h fun e => rfl
  refine ⟨?_, hfits, hchanged.2⟩
  rw [closeNode?, hcover]
  rfl

theorem close?_eq {name : String} {tag : Span} (h : b.Safe limit) (ht : tag.Fits limit) :
    close? b name tag = some (b.close name tag) ∧ (b.close name tag).Safe limit ∧
      (b.close name tag).nodes.size = b.nodes.size := by
  simp only [close?, Builder.close, search?_eq name h.opened, Option.bind_eq_bind,
    Option.bind_some]
  have hsplit := List.takeWhile_append_dropWhile (p := fun id => !b.isNamed name id)
    (l := b.opened)
  cases hfound : b.opened.dropWhile fun id => !b.isNamed name id with
  | nil => exact ⟨rfl, h, rfl⟩
  | cons id outer =>
    rw [hfound] at hsplit
    have hlt : ∀ i ∈ _ ++ id :: outer, i < b.nodes.size := hsplit ▸ h.opened
    obtain ⟨hinner, hlt⟩ := List.forall_mem_append.1 hlt
    obtain ⟨hid, houter⟩ := List.forall_mem_cons.1 hlt
    obtain ⟨habandon, hsafe, hsize⟩ := abandon?_eq hl h (ht.1.trans ht.2) hinner
    obtain ⟨hmodify, hclosed⟩ := safe_modify hsafe (hsize ▸ hid) fun n hn => closeNode?_eq hl hn ht
    simp only [habandon, Option.bind_some]
    refine ⟨?_, hclosed outer fun i hi => ?_, Array.size_modify.trans hsize⟩
    · rw [hmodify]
      rfl
    · rw [hsize]
      exact houter i hi

/-- an event that fits is taken, if there is room for the nodes that it adds -/
theorem step?_eq {e : Event} (h : b.Safe limit) (he : e.Fits limit)
    (hroom : b.nodes.size + (if e.adds then 1 else 0) ≤ limit) :
    step? b e = some (b.apply e) ∧ (b.apply e).Safe limit ∧
      (b.apply e).nodes.size = b.nodes.size + (if e.adds then 1 else 0) := by
  cases e with
  | start name nameSpan pos =>
    obtain ⟨hle, hstop⟩ := he
    have hsize : b.nodes.size < UInt32.size := Nat.lt_trans (Nat.lt_of_succ_le hroom) hl
    have htag : (⟨pos, nameSpan.stop⟩ : Span).Fits limit := ⟨hle, hstop⟩
    obtain ⟨hpush, hsafe, hadded, hopened⟩ := push?_eq ⟨pos, nameSpan.stop⟩
      (.element ⟨name, nameSpan, #[], #[], ⟨pos, nameSpan.stop⟩, false, false, none⟩)
      h hsize ⟨htag, by rintro _ ⟨⟩; exact htag⟩
    refine ⟨?_, ⟨?_, hsafe.nodes⟩, hadded⟩
    · simp only [step?, start?, span?_of_le hle (Nat.lt_of_le_of_lt hstop hl), hpush,
        Option.bind_eq_bind, Option.bind_some]
      rfl
    · intro id hid
      change id < (Builder.push b _ _).nodes.size
      rw [hadded]
      rcases List.mem_cons.1 hid with rfl | hid
      · exact Nat.lt_succ_self _
      · exact Nat.lt_succ_of_lt (h.opened id hid)
  | attr a =>
    obtain ⟨hchange, hsafe, hsize, -⟩ := changeInnermost?_eq hl
      (fun e => { e with attributes := e.attributes.push a }) h he fun e => rfl
    exact ⟨hchange, hsafe, hsize⟩
  | endStart pos selfClosing =>
    obtain ⟨hchange, hsafe, hsize, -⟩ := changeInnermost?_eq hl
      (fun e => { e with startTagClosed := true, selfClosing := selfClosing }) h he fun e => rfl
    simp only [step?, hchange, Option.bind_eq_bind, Option.bind_some]
    cases selfClosing with
    | false => exact ⟨rfl, hsafe, hsize⟩
    | true =>
      refine ⟨rfl, ⟨fun id hid => ?_, hsafe.nodes⟩, hsize⟩
      change id < (Builder.changeInnermost b _ _).nodes.size
      rw [hsize]
      exact h.opened id (List.mem_of_mem_tail hid)
  | extend pos =>
    obtain ⟨hchange, hsafe, hsize, -⟩ := changeInnermost?_eq hl id h he fun e => rfl
    exact ⟨hchange, hsafe, hsize⟩
  | text raw span =>
    have hsize : b.nodes.size < UInt32.size := Nat.lt_trans (Nat.lt_of_succ_le hroom) hl
    obtain ⟨hpush, hsafe, hadded, -⟩ := push?_eq span (.text raw) h hsize
      ⟨he, by rintro _ ⟨⟩⟩
    exact ⟨hpush, hsafe, hadded⟩
  | close name span => exact close?_eq hl h he

/-- events that fit are taken one after the other -/
theorem foldlM_step? {events : List Event} (h : b.Safe limit) (he : ∀ e ∈ events, e.Fits limit)
    (hroom : b.nodes.size + events.countP Event.adds ≤ limit) :
    events.foldlM step? b = some (events.foldl Builder.apply b) ∧
      (events.foldl Builder.apply b).Safe limit := by
  induction events generalizing b with
  | nil => exact ⟨rfl, h⟩
  | cons e events ih =>
    obtain ⟨he, hmore⟩ := List.forall_mem_cons.1 he
    rw [List.countP_cons] at hroom
    obtain ⟨happly, hsafe, hsize⟩ := step?_eq hl h he (by omega)
    rw [List.foldlM_cons, happly]
    exact ih hsafe hmore (by omega)

end Events

/-! ### The events of a text -/

variable {text : List Char} {c d : Cursor} {part : Option Part}

theorem fits_of_sound {p : Part} (h : p.Sound text) : ∀ e ∈ p.events, e.Fits (width text) := by
  have hstop : p.span.stop ≤ width text := by simpa using h.within.stop.bounds.2
  cases p with
  | text raw s =>
    rintro _ (_ | ⟨_, ⟨⟩⟩)
    exact ⟨h.within.le, hstop⟩
  | close name s =>
    rintro _ (_ | ⟨_, ⟨⟩⟩)
    exact ⟨h.within.le, hstop⟩
  | tag t =>
    have hlt := Tag.Sound.start_lt h
    have hname := (Tag.Sound.name h).within.le
    have hle := Tag.Sound.name_le h
    intro e he
    rcases List.mem_cons.1 he with rfl | he
    · exact ⟨by omega, hle.trans hstop⟩
    rcases List.mem_append.1 he with he | he
    · obtain ⟨a, ha, rfl⟩ := List.mem_map.1 he
      exact (Tag.Sound.attributes h a ha).2.2.trans hstop
    · obtain rfl := List.mem_singleton.1 he
      cases t.ending <;> exact hstop

theorem countP_adds_le_one (p : Part) : p.events.countP Event.adds ≤ 1 := by
  cases p with
  | text raw s => exact Nat.le_refl _
  | close name s => exact Nat.zero_le _
  | tag t =>
    have hattributes : (t.attributes.map Event.attr).countP Event.adds = 0 := by
      rw [List.countP_map]
      exact List.countP_eq_zero.2 fun a _ => Bool.false_ne_true
    have hending : [t.ending.event t.span.stop].countP Event.adds = 0 := by
      cases t.ending <;> rfl
    rw [Part.events, Tag.events, List.countP_cons, List.countP_append, hattributes, hending]
    exact Nat.le_refl _

/-- the events of what was read between two cursors fit, and add one node at most -/
theorem fits_of_yields (h : Cursor.Yields text c d part) {events : List Event}
    (he : events = part.toList.flatMap Part.events) :
    (∀ e ∈ events, e.Fits (width text)) ∧ events.countP Event.adds ≤ 1 := by
  subst he
  cases part with
  | none => simp
  | some p =>
    simpa using And.intro (fits_of_sound (h.sound p rfl).1) (countP_adds_le_one p)

theorem countP_adds_textEvent (pos : Nat) (raw : List Char) :
    (Cursor.textEvent pos raw).countP Event.adds ≤ width raw := by
  unfold Cursor.textEvent
  split
  · exact Nat.zero_le _
  · next h =>
    refine Text.width_pos ?_
    rintro rfl
    exact h rfl

/-- the events of a text fit, and there is room for their nodes: each has a byte of its own -/
theorem fits_events (hc : c.In 0 text) : (∀ e ∈ c.events, e.Fits (width text)) ∧
    c.events.countP Event.adds ≤ width c.rest := by
  fun_induction Cursor.events c with
  | case1 c raw next hread hn =>
    obtain ⟨part, he, hyields⟩ := Cursor.textEvent_yields hc (· ≠ '<')
    obtain ⟨hpass, -, -⟩ := passes_run hread
    rw [hread] at he hyields
    refine ⟨(fits_of_yields hyields he).1, ?_⟩
    rw [hpass.rest, Text.width_append]
    exact (countP_adds_textEvent c.pos raw).trans (Nat.le_add_right _ _)
  | case2 c raw next hread hn h1 h2 ih =>
    obtain ⟨part, he, hyields⟩ := Cursor.textEvent_yields hc (· ≠ '<')
    obtain ⟨hpass, -, -⟩ := passes_run hread
    simp only [hread] at he hyields
    have hnext := hc.leads hyields.leads
    obtain ⟨first, tail, hr⟩ := List.exists_cons_of_ne_nil hn
    have hfirst : first = '<' := by
      have := Cursor.head_takeWhile (c := c) (p := (· ≠ '<')) (d := first) (by rw [hread, hr]; rfl)
      simpa using this
    obtain ⟨part', he', hyields'⟩ := Cursor.construct_yields hnext (hfirst ▸ hr)
    obtain ⟨hfits, hadded⟩ := ih (hnext.leads hyields'.leads)
    have hmoved := pos_lt_of_length_lt hyields'.leads h2
    have htotal := hyields'.leads.total
    have hconstruct := (fits_of_yields hyields' he').2
    refine ⟨?_, ?_⟩
    · refine List.forall_mem_append.2 ⟨List.forall_mem_append.2 ⟨?_, ?_⟩, hfits⟩
      · exact (fits_of_yields hyields he).1
      · exact (fits_of_yields hyields' he').1
    · have hrun := countP_adds_textEvent c.pos raw
      rw [List.countP_append, List.countP_append, hpass.rest, Text.width_append]
      omega

/-- every short text has its tree -/
theorem tree?_eq {text : String} (hw : width text.toList < UInt32.size) :
    tree? text = some (Tree.parse text) := by
  have hin : (⟨0, text.toList⟩ : Cursor).In 0 text.toList := .refl _
  obtain ⟨hfits, hadded⟩ := fits_events hin
  have hempty : Builder.empty.Safe (width text.toList) :=
    ⟨fun id hid => (by cases hid), fun i n hn => (by simp [Builder.empty] at hn)⟩
  obtain ⟨hfold, hsafe⟩ := foldlM_step? hw hempty hfits (by simpa [Builder.empty] using hadded)
  obtain ⟨habandon, -, -⟩ := abandon?_eq hw hsafe (Nat.le_refl _) hsafe.opened
  simp only [tree?, word?_of_lt hw, events?_eq hw hin, hfold, habandon, Option.bind_eq_bind,
    Option.bind_some]
  rfl

end Checked
end ProjectSense
