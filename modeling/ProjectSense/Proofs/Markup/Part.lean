import ProjectSense.Proofs.Markup.Scan

/-!
# The parts of a document

A document is read as a sequence of parts: runs of text, start tags with their attributes, and
closing tags.  What the events of a start tag do one after the other, the tag does at once.

* `Builder.foldl_events`: the events of a part put that part.
* `Cursor.construct_yields`: what begins with a `<` is no part or one, as it stands in the text.
* `Cursor.events_keep`: what every part keeps, a whole document keeps.
-/

namespace ProjectSense

/-- how a start tag ends: with `>`, with `/>`, or not at all -/
inductive Ending where
  | closed
  | selfClosed
  | unfinished
deriving DecidableEq, Repr

/-- a start tag as far as it was written -/
structure Tag where
  name : String
  nameSpan : Span
  attributes : List Attribute
  span : Span
  ending : Ending
deriving DecidableEq, Repr

/-- the event of a start tag that ends so at `pos` -/
def Ending.event (pos : Nat) : Ending → Event
  | .closed => .endStart pos false
  | .selfClosed => .endStart pos true
  | .unfinished => .extend pos

namespace Tag

def events (t : Tag) : List Event :=
  .start t.name t.nameSpan t.span.start ::
    (t.attributes.map .attr ++ [t.ending.event t.span.stop])

/-- the element that the tag opens, with nothing in it -/
def element (t : Tag) : Element :=
  ⟨t.name, t.nameSpan, t.attributes.toArray, #[], t.span, t.ending ≠ .unfinished,
    t.ending = .selfClosed, none⟩

/-- the tag as it stands in the text: name and attributes in order after the `<`, no two at one
place, and before the end of the tag if it has one -/
structure Sound (text : List Char) (t : Tag) : Prop where
  span : t.span.Within 0 text
  name : t.nameSpan.Holds 0 text t.name.toList
  start_lt : t.span.start < t.nameSpan.start
  name_le : t.nameSpan.stop ≤ t.span.stop
  attributes : ∀ a ∈ t.attributes,
    a.Sound text ∧ t.nameSpan.stop ≤ a.span.start ∧ a.span.stop ≤ t.span.stop
  ordered : t.attributes.Pairwise Attribute.Before
  name_lt : ∀ a ∈ t.attributes, t.nameSpan.stop < a.span.start
  ended : t.ending ≠ .unfinished →
    t.nameSpan.stop < t.span.stop ∧ ∀ a ∈ t.attributes, a.span.stop < t.span.stop

theorem Sound.lt {text : List Char} {t : Tag} (h : t.Sound text) : t.span.start < t.span.stop := by
  have h1 := h.start_lt
  have h2 := h.name.within.le
  have h3 := h.name_le
  omega

end Tag

inductive Part where
  | text (raw : String) (span : Span)
  | tag (t : Tag)
  | close (name : String) (span : Span)

namespace Part

def span : Part → Span
  | .text _ s | .close _ s => s
  | .tag t => t.span

def events : Part → List Event
  | .text raw s => [.text raw s]
  | .tag t => t.events
  | .close name s => [.close name s]

/-- the part as it stands in the text -/
def Sound (text : List Char) : Part → Prop
  | .text raw s => s.Holds 0 text raw.toList
  | .tag t => t.Sound text
  | .close _ s => s.Within 0 text ∧ s.start < s.stop

theorem Sound.within {text : List Char} {p : Part} (h : p.Sound text) : p.span.Within 0 text := by
  cases p with
  | text raw s => exact Span.Holds.within h
  | tag t => exact Tag.Sound.span h
  | close name s => exact h.1

end Part

namespace Builder

/-- the nodes, with the next one among the children of the innermost open element -/
def adopt (b : Builder) : Array Node :=
  match b.opened with
  | parent :: _ => b.nodes.modify parent
      (changeElement fun e => { e with children := e.children.push b.nodes.size })
  | [] => b.nodes

/-- the roots, with the next node among them if no element is open -/
def adoptRoots (b : Builder) : Array Nat :=
  match b.opened with
  | _ :: _ => b.roots
  | [] => b.roots.push b.nodes.size

/-- puts a node under the innermost open element, or at the top, and opens it if `opens` -/
def add (b : Builder) (span : Span) (content : Content) (opens : Bool) : Builder :=
  ⟨b.adopt.push ⟨b.opened.head?, span, content⟩, b.adoptRoots,
    if opens then b.nodes.size :: b.opened else b.opened⟩

/-- what a part does to the builder -/
def put (b : Builder) : Part → Builder
  | .text raw s => b.add s (.text raw) false
  | .tag t => b.add t.span (.element t.element) (t.ending ≠ .selfClosed)
  | .close name s => b.close name s

@[simp] theorem size_adopt (b : Builder) : b.adopt.size = b.nodes.size := by
  unfold adopt
  split
  · exact Array.size_modify
  · rfl

theorem push_eq_add (b : Builder) (span : Span) (content : Content) :
    b.push span content = b.add span content false := by
  obtain ⟨nodes, roots, opened⟩ := b
  cases opened <;> rfl

theorem start_eq_add (b : Builder) (name : String) (nameSpan : Span) (pos : Nat) :
    b.start name nameSpan pos = b.add ⟨pos, nameSpan.stop⟩
      (.element ⟨name, nameSpan, #[], #[], ⟨pos, nameSpan.stop⟩, false, false, none⟩) true := by
  simp only [start, push_eq_add]
  rfl

/-! ### The events of a start tag -/

theorem changeInnermost_add (b : Builder) (span : Span) (e : Element) (pos : Nat)
    (change : Element → Element) :
    (b.add span (.element e) true).changeInnermost pos change = b.add (span.coverOffset pos)
      (.element (change { e with startTag := e.startTag.coverOffset pos })) true := by
  simp only [add, changeInnermost, if_true, Builder.mk.injEq, and_true]
  apply Array.ext_getElem?
  intro i
  rw [Array.getElem?_modify, Array.getElem?_push, Array.getElem?_push, size_adopt]
  by_cases h : b.nodes.size = i
  · subst h
    simp [reach, changeElement]
  · rw [if_neg h, if_neg (Ne.symm h), if_neg (Ne.symm h)]

/-- the span of a start tag that begins at `start`, after it has reached `stop` -/
theorem coverOffset_of_le {start stop pos : Nat} (h : start ≤ pos) :
    (⟨start, stop⟩ : Span).coverOffset pos = ⟨start, max stop pos⟩ := by
  simp [Span.coverOffset, Nat.min_eq_left h]

theorem foldl_attributes {attributes : List Attribute} {start limit : Nat}
    (ha : ∀ a ∈ attributes, start ≤ a.span.stop ∧ a.span.stop ≤ limit) (b : Builder) (e : Element)
    (stop : Nat) (hs : stop ≤ limit) (he : e.startTag = ⟨start, stop⟩) :
    ∃ stop', stop' ≤ limit ∧
      (attributes.map Event.attr).foldl apply (b.add ⟨start, stop⟩ (.element e) true) =
        b.add ⟨start, stop'⟩ (.element { e with
          attributes := e.attributes ++ attributes, startTag := ⟨start, stop'⟩ }) true := by
  induction attributes generalizing e stop with
  | nil => exact ⟨stop, hs, by simp [← he]⟩
  | cons a attributes ih =>
    obtain ⟨h1, h2⟩ := ha a (by simp)
    have hmax : max stop a.span.stop ≤ limit := by omega
    obtain ⟨stop', hle, key⟩ := ih (fun a' h' => ha a' (List.mem_cons_of_mem _ h'))
      { e with attributes := e.attributes.push a, startTag := ⟨start, max stop a.span.stop⟩ }
      (max stop a.span.stop) hmax rfl
    refine ⟨stop', hle, ?_⟩
    rw [List.map_cons, List.foldl_cons, apply, changeInnermost_add, coverOffset_of_le h1,
      he, coverOffset_of_le h1, key]
    simp

theorem foldl_tag {text : List Char} {t : Tag} (h : t.Sound text) (b : Builder) :
    t.events.foldl apply b = b.put (.tag t) := by
  have h1 := h.start_lt
  have h2 := h.name.within.le
  have hattr : ∀ a ∈ t.attributes, t.span.start ≤ a.span.stop ∧ a.span.stop ≤ t.span.stop := by
    intro a ha
    obtain ⟨hs, hn, hle⟩ := h.attributes a ha
    have := hs.span.le
    omega
  obtain ⟨stop', hle, key⟩ := foldl_attributes hattr b
    ⟨t.name, t.nameSpan, #[], #[], ⟨t.span.start, t.nameSpan.stop⟩, false, false, none⟩
    t.nameSpan.stop h.name_le rfl
  have hcover : (⟨t.span.start, stop'⟩ : Span).coverOffset t.span.stop = t.span := by
    rw [coverOffset_of_le h.span.le, Nat.max_eq_right hle]
  rw [Tag.events, List.foldl_cons, List.foldl_append, apply, start_eq_add, key, put]
  cases he : t.ending <;>
    simp only [Ending.event, List.foldl_cons, List.foldl_nil, apply, changeInnermost_add,
      hcover] <;>
    simp [Tag.element, he, add]

/-- the events of a part put that part -/
theorem foldl_events {text : List Char} {p : Part} (h : p.Sound text) (b : Builder) :
    p.events.foldl apply b = b.put p := by
  cases p with
  | text raw s => exact push_eq_add b s (.text raw)
  | tag t => exact foldl_tag h b
  | close name s => rfl

end Builder

namespace Cursor

open Text (width)

variable {c d : Cursor} {text : List Char}

/-! ### Attributes of a start tag -/

/-- the attributes were read, in order, on the way from `c` to `d` -/
structure Writes (text : List Char) (c d : Cursor) (attributes : List Attribute) : Prop where
  leads : c.Leads d
  each : ∀ a ∈ attributes, a.Sound text ∧ c.pos ≤ a.span.start ∧ a.span.stop ≤ d.pos
  ordered : attributes.Pairwise Attribute.Before
  starts : ∀ a ∈ attributes, a.span.start = c.pos →
    ∃ first, c.rest.head? = some first ∧ startsName first = true

theorem Writes.nil (h : c.Leads d) : Writes text c d [] :=
  ⟨h, by simp, .nil, by simp⟩

theorem Writes.cons {s e : Cursor} {r : Attribute × Cursor} {first : Char} {rest : List Char}
    {attributes : List Attribute} (hs : s.In 0 text) (h : c.Leads s) (hr : s.rest = first :: rest)
    (hf : startsName first = true) (ha : s.ReadsAttribute r) (hw : Writes text r.2 e attributes) :
    Writes text c e (r.1 :: attributes) := by
  have hle := h.le
  have hsr : s.Leads r.2 := (leads_name s).trans ha.leads
  have hre := hw.leads.le
  have hspan := ha.span_eq
  constructor
  · exact h.trans (hsr.trans hw.leads)
  · intro a hmem
    rcases List.mem_cons.1 hmem with rfl | hmem
    · refine ⟨ha.sound hs, ?_, ?_⟩ <;> rw [hspan] <;> simpa
    · obtain ⟨h1, h2, h3⟩ := hw.each a hmem
      have := hsr.le
      exact ⟨h1, by omega, h3⟩
  · refine List.pairwise_cons.2 ⟨fun b hb => ?_, hw.ordered⟩
    obtain ⟨-, hstart, -⟩ := hw.each b hb
    refine ⟨by rw [hspan]; exact hstart, ?_⟩
    rcases Nat.eq_or_lt_of_le hstart with heq | hlt
    · obtain ⟨first', hf', hs'⟩ := hw.starts b hb heq.symm
      rw [← heq]
      exact ha.reach_lt hf' hs'
    · exact Nat.lt_of_le_of_lt ha.reach_le hlt
  · intro a hmem heq
    have hstart : s.pos ≤ a.span.start := by
      rcases List.mem_cons.1 hmem with rfl | hmem
      · exact Nat.le_of_eq (congrArg Span.start hspan).symm
      · exact Nat.le_trans hsr.le (hw.each a hmem).2.1
    obtain rfl : c = s := h.eq_of_pos_eq (by omega)
    exact ⟨first, by rw [hr]; rfl, hf⟩

theorem Writes.later {s e : Cursor} {attributes : List Attribute} (h : c.Leads s)
    (hlt : c.pos < s.pos) (hw : Writes text s e attributes) : Writes text c e attributes := by
  constructor
  · exact h.trans hw.leads
  · intro a ha
    obtain ⟨h1, h2, h3⟩ := hw.each a ha
    exact ⟨h1, by omega, h3⟩
  · exact hw.ordered
  · intro a ha heq
    have := (hw.each a ha).2.1
    omega

/-- the events inside a start tag are its attributes and its end, which comes after all of them -/
theorem tagBody_writes (hc : c.In 0 text) : ∃ attributes ending,
    c.tagBody.1 = attributes.map .attr ++ [Ending.event c.tagBody.2.pos ending] ∧
      Writes text c c.tagBody.2 attributes ∧
      (ending ≠ .unfinished →
        c.pos < c.tagBody.2.pos ∧ ∀ a ∈ attributes, a.span.stop < c.tagBody.2.pos) := by
  fun_induction tagBody c with
  | case1 c pos h =>
    exact ⟨[], .unfinished, rfl, .nil (h ▸ leads_skipBlanks c), fun hne => absurd rfl hne⟩
  | case2 c pos rest h =>
    exact ⟨[], .unfinished, rfl, .nil (h ▸ leads_skipBlanks c), fun hne => absurd rfl hne⟩
  | case3 c pos first rest h hlt h1 h2 =>
    have hsk : c.Leads ⟨pos, first :: rest⟩ := h ▸ leads_skipBlanks c
    refine ⟨[], .selfClosed, rfl, .nil (hsk.trans ⟨['/', '>'], ?_⟩), fun _ => ⟨?_, by simp⟩⟩
    · obtain ⟨rfl, h2⟩ := h2
      obtain ⟨tail, rfl⟩ := List.head?_eq_some_iff.1 h2
      exact ⟨rfl, rfl⟩
    · exact Nat.lt_of_le_of_lt hsk.le (Nat.lt_add_of_pos_right (by decide))
  | case4 c pos rest h =>
    have hsk : c.Leads ⟨pos, '>' :: rest⟩ := h ▸ leads_skipBlanks c
    exact ⟨[], .closed, rfl, .nil (hsk.trans ⟨['>'], rfl, rfl⟩),
      fun _ => ⟨Nat.lt_succ_of_le hsk.le, by simp⟩⟩
  | case5 c pos first rest h hlt h1 h2 h3 hs a after ha this more ih =>
    have hsk : c.Leads ⟨pos, first :: rest⟩ := h ▸ leads_skipBlanks c
    have hread := ha ▸ readAttribute_cases ⟨pos, first :: rest⟩
    have hfirst := (leads_name _).trans hread.leads
    have hafter := hc.leads (hsk.trans hfirst)
    obtain ⟨attributes, ending, he, hw, hend⟩ := ih hafter
    refine ⟨a :: attributes, ending, ?_, .cons (hc.leads hsk) hsk rfl hs hread hw, fun hne => ?_⟩
    · rw [List.map_cons, List.cons_append, ← he]
    · obtain ⟨hlast, hmore⟩ := hend hne
      have hstop : a.span.stop = after.pos := congrArg Span.stop hread.span_eq
      exact ⟨Nat.lt_of_le_of_lt (hsk.trans hfirst).le hlast,
        List.forall_mem_cons.2 ⟨hstop ▸ hlast, hmore⟩⟩
  | case6 c pos first rest h hlt h1 h2 h3 hs ih =>
    have hsk : c.Leads ⟨pos, first :: rest⟩ := h ▸ leads_skipBlanks c
    have hstep : (⟨pos, first :: rest⟩ : Cursor).Passes [first] ⟨pos + first.utf8Size, rest⟩ :=
      ⟨rfl, rfl⟩
    have hlater := Nat.lt_of_le_of_lt hsk.le (hstep.lt (by simp))
    obtain ⟨attributes, ending, he, hw, hend⟩ := ih (hc.leads (hsk.trans hstep.leads))
    exact ⟨attributes, ending, he, .later (hsk.trans hstep.leads) hlater hw,
      fun hne => ⟨Nat.lt_trans hlater (hend hne).1, (hend hne).2⟩⟩

/-! ### Constructs -/

theorem sees_iff {pattern : String} : c.sees pattern = true ↔ pattern.toList <+: c.rest :=
  List.isPrefixOf_iff_prefix

/-- a part that was read on the way from `c` to `d`, if any -/
structure Yields (text : List Char) (c d : Cursor) (part : Option Part) : Prop where
  leads : c.Leads d
  sound : ∀ p ∈ part, p.Sound text ∧ c.pos ≤ p.span.start ∧ p.span.stop ≤ d.pos

theorem startTag_sound {tail : List Char} (hc : c.In 0 text) (h : c.rest = '<' :: tail) :
    ∃ t : Tag, c.startTag.1 = t.events ∧ t.Sound text ∧ c.Leads c.startTag.2 ∧
      t.span = ⟨c.pos, c.startTag.2.pos⟩ := by
  have hd := leads_drop 1 c
  have hn := leads_name (c.drop 1)
  obtain ⟨attributes, ending, he, hw, hend⟩ := tagBody_writes (hc.leads (hd.trans hn))
  have hl := (hd.trans hn).trans hw.leads
  refine ⟨⟨(c.drop 1).name.1.1, (c.drop 1).name.1.2, attributes, ⟨c.pos, c.startTag.2.pos⟩,
    ending⟩, ?_, ⟨?_, ?_, ?_, ?_, ?_, hw.ordered, ?_, ?_⟩, hl, rfl⟩
  · rw [startTag, he]; rfl
  · exact hc.within hl
  · rw [nameSpan_eq]
    exact (hc.leads hd).holds (passes_name _)
  · rw [nameSpan_eq]; exact drop_one_lt h
  · rw [nameSpan_eq]; exact hw.leads.le
  · rw [nameSpan_eq]; exact hw.each
  · -- no attribute begins where the name ends, for there no name begins
    intro a ha
    rw [nameSpan_eq]
    refine Nat.lt_of_le_of_ne (hw.each a ha).2.1 fun heq => ?_
    obtain ⟨first, hf, hs⟩ := hw.starts a ha heq.symm
    rw [head_name hf] at hs
    cases hs
  · rw [nameSpan_eq]; exact hend

theorem leads_closingTag (c : Cursor) : (c.drop 2).Leads c.closingTag.2 := by
  have h := (leads_name (c.drop 2)).trans (leads_skipBlanks _)
  simp only [closingTag]
  split
  · exact h.trans (leads_drop 1 _)
  · exact h

theorem closingTag_sound (hc : c.In 0 text) (h : c.sees "</" = true) :
    (Part.close (c.drop 2).name.1.1 ⟨c.pos, c.closingTag.2.pos⟩).Sound text := by
  have hl := (leads_drop 2 c).trans (leads_closingTag c)
  refine ⟨hc.within hl, ?_⟩
  have h1 : c.pos < (c.drop 2).pos := by
    refine (passes_drop 2 c).lt ?_
    obtain ⟨tail, ht⟩ := sees_iff.1 h
    rw [← ht]; simp
  exact Nat.lt_of_lt_of_le h1 (leads_closingTag c).le

theorem literal_sound (hc : c.In 0 text) : ∃ raw span, c.literal.1 = [.text raw span] ∧
    Yields text c c.literal.2 (some (.text raw span)) := by
  have hd := leads_drop 9 c
  obtain ⟨tail, hp⟩ := passes_past "]]>".toList (c.drop 9)
  obtain ⟨mid, h1, h2⟩ := hp.split
  refine ⟨_, _, rfl, hd.trans hp.leads, ?_⟩
  intro p hmem
  obtain rfl := Option.some.inj hmem
  have hh := (hc.leads hd).holds h1
  rw [h1.pos] at hh
  refine ⟨by simpa [Part.Sound] using hh, hd.le, ?_⟩
  have := h2.leads.le
  rw [h1.pos] at this
  exact this

/-- what begins with a `<` is one part, or none: a comment or a declaration -/
theorem construct_yields {tail : List Char} (hc : c.In 0 text) (h : c.rest = '<' :: tail) :
    ∃ part : Option Part, c.construct.1 = part.toList.flatMap Part.events ∧
      Yields text c c.construct.2 part := by
  unfold construct
  split
  · exact ⟨none, rfl, leads_past _ c, by simp⟩
  split
  · obtain ⟨raw, span, he, hh⟩ := literal_sound hc
    exact ⟨some (.text raw span), by rw [he]; rfl, hh⟩
  split
  · exact ⟨none, rfl, leads_past _ c, by simp⟩
  split
  · next hs =>
    refine ⟨some (.close (c.drop 2).name.1.1 ⟨c.pos, c.closingTag.2.pos⟩), rfl,
      (leads_drop 2 c).trans (leads_closingTag c), ?_⟩
    intro p hmem
    obtain rfl := Option.some.inj hmem
    exact ⟨closingTag_sound hc hs, Nat.le_refl _, Nat.le_refl _⟩
  · obtain ⟨t, he, ht, hl, hspan⟩ := startTag_sound hc h
    refine ⟨some (.tag t), by simp [he, Part.events], hl, ?_⟩
    intro p hmem
    obtain rfl := Option.some.inj hmem
    exact ⟨ht, by simp [Part.span, hspan], by simp [Part.span, hspan]⟩

/-- the run of text up to the next `<`, as a part if it is more than blanks -/
theorem textEvent_yields (hc : c.In 0 text) (p : Char → Bool) : ∃ part : Option Part,
    textEvent c.pos (c.takeWhile p).1 = part.toList.flatMap Part.events ∧
      Yields text c (c.takeWhile p).2 part := by
  have hp := passes_takeWhile p c
  unfold textEvent
  split
  · exact ⟨none, rfl, hp.leads, by simp⟩
  · refine ⟨some (.text (String.ofList (c.takeWhile p).1)
      ⟨c.pos, c.pos + width (c.takeWhile p).1⟩), rfl, hp.leads, ?_⟩
    intro q hmem
    obtain rfl := Option.some.inj hmem
    have hh := hc.holds hp
    rw [hp.pos] at hh
    exact ⟨by simpa [Part.Sound] using hh, Nat.le_refl _, Nat.le_of_eq hp.pos.symm⟩

/-! ### Whole documents -/

/-- the text up to the next `<` gives its events first -/
theorem events_text {raw rest : List Char} (h : c.rest = raw ++ rest) (hraw : ∀ d ∈ raw, d ≠ '<')
    (hrest : ∀ d ∈ rest.head?, d = '<') :
    c.events = textEvent c.pos raw ++ (⟨c.pos + width raw, rest⟩ : Cursor).events := by
  have hnil : ∀ {e : Cursor}, (∀ d ∈ e.rest.head?, d = '<') → e.takeWhile (· ≠ '<') = ([], e) := by
    intro e he
    exact takeWhile_none (by simpa using he)
  have hread := takeWhile_eq (p := (· ≠ '<')) h (by simpa using hraw) (by simpa using hrest)
  have hnext := hnil (e := ⟨c.pos + width raw, rest⟩) hrest
  rw [events, events]
  simp only [hread, hnext]
  have hempty : textEvent (c.pos + width raw) [] = [] := rfl
  rw [hempty]
  split
  · rw [List.append_nil]
  · rw [List.nil_append, List.append_assoc]

theorem events_construct {rest : List Char} (h : c.rest = '<' :: rest) :
    c.events = c.construct.1 ++ c.construct.2.events := by
  have hread : c.takeWhile (· ≠ '<') = ([], c) :=
    takeWhile_none (by rw [h]; exact forall_mem_head?_cons (by simp))
  rw [events]
  simp only [hread]
  rw [dif_neg (by simp [h])]
  rfl

section Run

variable (Keeps : Nat → Builder → Prop)
  (hmono : ∀ ⦃p q b⦄, p ≤ q → Keeps p b → Keeps q b)
  (hput : ∀ ⦃p b part⦄, Part.Sound text part → p ≤ part.span.start → Keeps p b →
    Keeps part.span.stop (b.put part))
include hmono hput

theorem Yields.keep {part : Option Part} {b : Builder} (h : Yields text c d part)
    (hb : Keeps c.pos b) :
    Keeps d.pos ((part.toList.flatMap Part.events).foldl Builder.apply b) := by
  cases part with
  | none => exact hmono h.leads.le hb
  | some p =>
    obtain ⟨hs, h1, h2⟩ := h.sound p rfl
    have key := hmono h2 (hput hs h1 hb)
    rw [← Builder.foldl_events hs] at key
    simpa using key

/-- what every part keeps holds up to the end of the text, if it holds up to a cursor -/
theorem events_keep {b : Builder} (hc : c.In 0 text) (hb : Keeps c.pos b) :
    Keeps (width text) (c.events.foldl Builder.apply b) := by
  fun_induction events c generalizing b with
  | case1 c raw next h hn =>
    obtain ⟨part, he, hh⟩ := textEvent_yields hc (· ≠ '<')
    have key := hh.keep Keeps hmono hput hb
    have hstop := (hc.leads hh.leads).stop
    rw [h] at hstop key he
    simp only [hn, Text.width_nil, Nat.add_zero, Nat.zero_add] at hstop
    rw [he, ← hstop]
    exact key
  | case2 c raw next h hn h1 h2 ih =>
    obtain ⟨part, he, hh⟩ := textEvent_yields hc (· ≠ '<')
    have hnext := hc.leads hh.leads
    have key := hh.keep Keeps hmono hput hb
    rw [h] at hnext key he
    obtain ⟨first, tail, hr⟩ := List.exists_cons_of_ne_nil hn
    have hlt : first = '<' := by
      have := head_takeWhile (c := c) (p := (· ≠ '<')) (d := first) (by rw [h, hr]; rfl)
      simpa using this
    obtain ⟨part', he', hh'⟩ := construct_yields hnext (hlt ▸ hr)
    rw [List.foldl_append, List.foldl_append, he, he']
    exact ih (hnext.leads hh'.leads) (hh'.keep Keeps hmono hput key)

end Run

end Cursor
end ProjectSense
