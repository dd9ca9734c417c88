import ProjectSense.Proofs.Markup.Cut
import ProjectSense.Proofs.Markup.Around
import ProjectSense.Proofs.Markup.Preorder

/-!
# The context of an offset

What is around an offset depends on the text before it alone: the tree of the text up to the
offset has the same innermost element there as the tree of the whole text, inside elements of the
same names.

* `Builder.agree_extend`: reading a text and its front from the same place.
* `Tree.sameContext_front`: the tree of the front tells the same about its end.
-/

namespace ProjectSense

namespace Cursor

/-- what begins with a `<`, from there on, and where the reading goes on after it -/
def constructs (c : Cursor) : List (Cursor × Cursor) :=
  match h : c.takeWhile (· ≠ '<') with
  | (_, next) =>
    if hn : next.rest = [] then []
    else
      have h1 : next.rest.length ≤ c.rest.length := by
        have := c.length_takeWhile_le (· ≠ '<')
        rwa [h] at this
      have := length_construct_lt hn
      (next, next.construct.2) :: next.construct.2.constructs
termination_by c.rest.length

theorem constructs_eq {c next : Cursor} {raw : List Char}
    (h : c.takeWhile (· ≠ '<') = (raw, next)) (hn : next.rest ≠ []) :
    c.constructs = (next, next.construct.2) :: next.construct.2.constructs := by
  rw [constructs]
  simp only [h]
  rw [dif_neg hn]

theorem events_of_nil {c next : Cursor} {raw : List Char}
    (h : c.takeWhile (· ≠ '<') = (raw, next)) (hn : next.rest = []) :
    c.events = textEvent c.pos raw := by
  rw [events]
  simp only [h]
  rw [dif_pos hn]

theorem events_of_cons {c next : Cursor} {raw : List Char}
    (h : c.takeWhile (· ≠ '<') = (raw, next)) (hn : next.rest ≠ []) :
    c.events = textEvent c.pos raw ++ (next.construct.1 ++ next.construct.2.events) := by
  rw [events]
  simp only [h]
  rw [dif_neg hn, List.append_assoc]

theorem quiet_textEvent (pos : Nat) (raw : List Char) : Event.Quiet (textEvent pos raw) := by
  unfold textEvent
  split
  · exact Event.quiet_nil
  · intro e he
    obtain rfl := List.mem_singleton.1 he
    exact ⟨_, _, rfl⟩

/-- the offset is not strictly inside a closing tag, and not right after the `<` of a closing tag,
a comment, literal content or a declaration -/
def Spares (offset : Nat) (k : Cursor × Cursor) : Prop :=
  (k.1.sees "</" = true → ¬(k.1.pos < offset ∧ offset < k.2.pos)) ∧
    (k.1.sees "</" = true ∨ k.1.sees "<!" = true ∨ k.1.sees "<?" = true → offset ≠ k.1.pos + 1)

end Cursor

instance (offset : Nat) (k : Cursor × Cursor) : Decidable (Cursor.Spares offset k) :=
  inferInstanceAs (Decidable (_ ∧ _))

namespace Tree

/-- the offset spares every construct of the text -/
def Spared (text : String) (offset : Nat) : Prop :=
  ∀ k ∈ (⟨0, text.toList⟩ : Cursor).constructs, Cursor.Spares offset k

instance (text : String) (offset : Nat) : Decidable (Spared text offset) :=
  inferInstanceAs (Decidable (∀ _ ∈ _, _))

/-- both trees have an innermost element at the offset or none has; the elements around the two
have the same names, and they themselves do where the offset is not before the end of the name -/
structure SameContext (offset : Nat) (t t' : Tree) : Prop where
  isSome_eq : (t.innermostAt offset).isSome = (t'.innermostAt offset).isSome
  ancestors_eq : ∀ id id', t.innermostAt offset = some id → t'.innermostAt offset = some id' →
    (t.ancestors id).map t.elementName? = (t'.ancestors id').map t'.elementName?
  name_eq : ∀ id id' e, t.innermostAt offset = some id → t'.innermostAt offset = some id' →
    t.element? id = some e → e.nameSpan.stop ≤ offset → t'.elementName? id' = some e.name

/-- the name of an element, and where it stands -/
def named? (t : Tree) (id : Nat) : Option (String × Span) := t.node? id >>= Node.named?

/-- up to the node, parents and names are the same in both trees; the name of the node itself
where the offset is not before its end -/
structure Alike (offset : Nat) (t t' : Tree) (id : Nat) : Prop where
  parent : ∀ i ≤ id, t'.parent? i = t.parent? i
  named : ∀ i < id, t'.named? i = t.named? i
  own : ∀ s, t.named? id = some s → s.2.stop ≤ offset → t'.named? id = some s

/-- the same elements cover the offset, and stand inside elements of the same names -/
def Agree (offset : Nat) (t t' : Tree) : Prop :=
  ∃ ids, ids.Pairwise (· > ·) ∧ t.Covered offset ids ∧ t'.Covered offset ids ∧
    ∀ id ∈ ids, Alike offset t t' id

variable {t t' : Tree} {id offset : Nat}

theorem elementName?_eq_named? (t : Tree) (id : Nat) :
    t.elementName? id = (t.named? id).map (·.1) := by
  rw [elementName?, element?, named?]
  cases t.node? id with
  | none => rfl
  | some n =>
    change n.element?.map (·.name) = n.named?.map (·.1)
    rw [Node.named?, Option.map_map]
    rfl

theorem ancestors_congr (h : ∀ i ≤ id, t'.parent? i = t.parent? i) :
    t'.ancestors id = t.ancestors id := by
  fun_induction ancestors t id with
  | case1 id parent hp hlt ih =>
    rw [ancestors, h id (Nat.le_refl id), hp]
    simp only [dif_pos hlt]
    rw [ih fun i hi => h i (by omega)]
  | case2 id parent hp hlt =>
    rw [ancestors, h id (Nat.le_refl id), hp]
    simp only [dif_neg hlt]
  | case3 id hp =>
    rw [ancestors, h id (Nat.le_refl id), hp]

theorem Alike.ancestors (h : Alike offset t t' id) :
    (t'.ancestors id).map t'.elementName? = (t.ancestors id).map t.elementName? := by
  rw [ancestors_congr h.parent]
  refine List.map_congr_left ?_
  intro a ha
  rw [elementName?_eq_named?, elementName?_eq_named?, h.named a (lt_of_mem_ancestors ha)]

end Tree

namespace Builder

variable {b b' b'' : Builder} {text front : List Char} {offset p w : Nat} {ids : List Nat}

theorem Names.parent? (h : Names b b') {i : Nat} (hi : i < b.nodes.size) :
    b'.tree.parent? i = b.tree.parent? i := by
  obtain ⟨n, hn⟩ := Tree.node?_of_lt (t := b.tree) hi
  obtain ⟨n', hn', hp, -⟩ := h.node hn
  rw [Tree.parent?_of_node? (t := b'.tree) hn', Tree.parent?_of_node? hn, hp]

theorem Names.named? (h : Names b b') {i : Nat} (hi : i < b.nodes.size) :
    b'.tree.named? i = b.tree.named? i := by
  obtain ⟨n, hn⟩ := Tree.node?_of_lt (t := b.tree) hi
  obtain ⟨n', hn', -, hs⟩ := h.node hn
  rw [Tree.named?, Tree.named?, hn, show b'.tree.node? i = _ from hn']
  exact hs

/-- names and parents do not change when the rest is left open -/
theorem names_finish (b : Builder) (width : Nat) :
    Names b ⟨(b.finish width).nodes, (b.finish width).roots, []⟩ :=
  names_leave b width b.opened []

/-- what reading on from an offset keeps -/
theorem keeps_later {d : Cursor} (hd : d.In 0 text) (ho : offset ≤ d.pos)
    (hw : b.Watched offset ids) :
    (d.events.foldl apply b).Watched offset ids ∧ Names b (d.events.foldl apply b) := by
  have key := Cursor.events_keep
    (fun q b' => offset ≤ q ∧ b'.Watched offset ids ∧ Names b b')
    (fun _ _ _ hpq h => ⟨Nat.le_trans h.1 hpq, h.2⟩)
    (fun _ b' part hs hp h => by
      obtain ⟨h1, h2, h3⟩ := h
      have hle := hs.within.le
      exact ⟨by omega, h2.put hs (by omega), h3.trans (names_put b' part)⟩)
    hd ⟨ho, hw, .refl b⟩
  exact key.2

theorem quiet_keeps {es : List Event} (hq : Event.Quiet es) (hw : b.Watched offset ids) :
    (es.foldl apply b).Watched offset ids ∧ Names b (es.foldl apply b) := by
  induction es generalizing b with
  | nil => exact ⟨hw, .refl b⟩
  | cons e es ih =>
    obtain ⟨raw, span, rfl⟩ := hq e List.mem_cons_self
    have hput : b.apply (.text raw span) = b.put (.text raw span) := push_eq_add b span _
    obtain ⟨h1, h2⟩ := ih (fun e he => hq e (List.mem_cons_of_mem _ he)) (hw.put_text raw span)
    rw [List.foldl_cons, hput]
    exact ⟨h1, (names_put b _).trans h2⟩

/-- where a text is cut outside of tags, the open elements are around the cut in both trees -/
theorem agree_quiet {es es' : List Event} {d : Cursor} (hb : b.Placed text p) (hp : p ≤ offset)
    (hes : Event.Quiet es) (hes' : Event.Quiet es') (hd : d.In 0 text) (ho : offset ≤ d.pos)
    (hw : offset ≤ w) :
    Tree.Agree offset (((es ++ d.events).foldl apply b).finish w)
      ((es'.foldl apply b).finish offset) := by
  have hwatch := hb.watched hp
  obtain ⟨h1, h2⟩ := quiet_keeps hes hwatch
  obtain ⟨h3, h4⟩ := keeps_later hd ho h1
  obtain ⟨h5, h6⟩ := quiet_keeps hes' hwatch
  rw [List.foldl_append]
  have hn := (h2.trans h4).trans (names_finish _ w)
  have hn' := h6.trans (names_finish _ offset)
  refine ⟨b.opened, hb.spaced.linked.ordered, h3.finish hw, h5.finish (Nat.le_refl offset), ?_⟩
  intro id hid
  have hlt := hb.spaced.linked.opened.lt_size hid
  constructor
  · intro i hi
    exact (hn'.parent? (by omega)).trans (hn.parent? (by omega)).symm
  · intro i hi
    exact (hn'.named? (by omega)).trans (hn.named? (by omega)).symm
  · intro s hs _
    exact ((hn'.named? hlt).trans (hn.named? hlt).symm).trans hs

/-- where a text is cut in a start tag, the element of the tag is the innermost in both trees -/
theorem agree_tag {t t' : Tag} {d : Cursor} (hb : b.Placed text p) (hp : p ≤ t.span.start)
    (ht : t.span.start < offset) (hlt : offset < t.span.stop) (hs' : t'.span.start = t.span.start)
    (hend : t'.ending = .unfinished)
    (hname : t.nameSpan.stop ≤ offset → t'.name = t.name ∧ t'.nameSpan = t.nameSpan)
    (hd : d.In 0 text) (ho : offset ≤ d.pos) (hw : offset ≤ w) :
    Tree.Agree offset ((d.events.foldl apply (b.put (.tag t))).finish w)
      ((b.put (.tag t')).finish offset) := by
  obtain ⟨h1, h2⟩ := keeps_later hd ho (hb.watched_tag hp ht (Or.inl hlt))
  have h3 := hb.watched_tag (hs' ▸ hp) (hs' ▸ ht) (Or.inr hend)
  have hl := hb.spaced.linked
  have hn := h2.trans (names_finish _ w)
  have hn' := names_finish (b.put (.tag t')) offset
  have hsize : (b.put (.tag t)).nodes.size = b.nodes.size + 1 := size_add b _ _ _
  have hsize' : (b.put (.tag t')).nodes.size = b.nodes.size + 1 := size_add b _ _ _
  have hold := names_put b (.tag t)
  have hold' := names_put b (.tag t')
  have hnew : (b.put (.tag t)).tree.node? b.nodes.size =
      some ⟨b.opened.head?, t.span, .element t.element⟩ := node?_add_size b _ _ _
  have hnew' : (b.put (.tag t')).tree.node? b.nodes.size =
      some ⟨b.opened.head?, t'.span, .element t'.element⟩ := node?_add_size b _ _ _
  have hparent : ∀ i ≤ b.nodes.size,
      (b.put (.tag t')).tree.parent? i = (b.put (.tag t)).tree.parent? i := by
    intro i hi
    rcases Nat.lt_or_eq_of_le hi with hi | rfl
    · rw [hold'.parent? hi, hold.parent? hi]
    · rw [Tree.parent?_of_node? hnew', Tree.parent?_of_node? hnew]
  have hnamed : ∀ i < b.nodes.size,
      (b.put (.tag t')).tree.named? i = (b.put (.tag t)).tree.named? i := by
    intro i hi
    rw [hold'.named? hi, hold.named? hi]
  refine ⟨b.nodes.size :: b.opened, ?_, h1.finish hw, h3.finish (Nat.le_refl offset), ?_⟩
  · exact List.pairwise_cons.2 ⟨fun i hi => hl.opened.lt_size hi, hl.ordered⟩
  intro id hid
  have hle : id ≤ b.nodes.size := by
    rcases List.mem_cons.1 hid with rfl | hid
    · exact Nat.le_refl _
    · exact Nat.le_of_lt (hl.opened.lt_size hid)
  constructor
  · intro i hi
    exact ((hn'.parent? (by omega)).trans (hparent i (by omega))).trans
      (hn.parent? (by omega)).symm
  · intro i hi
    exact ((hn'.named? (by omega)).trans (hnamed i (by omega))).trans (hn.named? (by omega)).symm
  · intro s hs hstop
    have hs := (hn.named? (show id < _ by omega)).symm.trans hs
    refine (hn'.named? (show id < _ by omega)).trans ?_
    rcases Nat.lt_or_eq_of_le hle with hlt | rfl
    · rw [hnamed id hlt]; exact hs
    · rw [Tree.named?, hnew] at hs
      rw [Tree.named?, hnew']
      obtain rfl := Option.some.inj hs
      obtain ⟨h1, h2⟩ := hname hstop
      change some (t'.name, t'.nameSpan) = some (t.name, t.nameSpan)
      rw [h1, h2]

open Cursor (textEvent)

/-- a text that is cut in the run of text before the next `<` -/
theorem agree_text {c : Cursor} {post : List Char} (hc : (c.extend post).In 0 text)
    (hb : b.Placed text c.pos) (hn : (c.takeWhile (· ≠ '<')).2.rest = []) (hw : c.stop ≤ w) :
    Tree.Agree c.stop (((c.extend post).events.foldl apply b).finish w)
      ((c.events.foldl apply b).finish c.stop) := by
  have hpass := Cursor.passes_takeWhile (· ≠ '<') c
  have hpass' := Cursor.passes_takeWhile (· ≠ '<') (c.extend post)
  have hev : (c.extend post).events =
      textEvent c.pos ((c.extend post).takeWhile (· ≠ '<')).1 ++
        ((c.extend post).takeWhile (· ≠ '<')).2.events := by
    refine Cursor.events_text hpass'.rest ?_ ?_
    · intro d hd
      have := List.all_eq_true.1 (List.all_takeWhile (p := (· ≠ '<'))) d hd
      simpa using this
    · intro d hd
      have := Cursor.head_takeWhile (p := (· ≠ '<')) hd
      simpa using this
  have hpos : c.stop ≤ ((c.extend post).takeWhile (· ≠ '<')).2.pos := by
    rcases Cursor.takeWhile_extend (· ≠ '<') c post with he | ⟨-, hlt⟩
    · rw [he, ← hpass.leads.stop_eq]
      exact Nat.le_of_eq (Cursor.stop_of_rest hn).symm
    · exact Nat.le_of_lt hlt
  rw [hev, Cursor.events_of_nil rfl hn]
  exact agree_quiet hb c.pos_le_stop (Cursor.quiet_textEvent _ _) (Cursor.quiet_textEvent _ _)
    (hc.leads hpass'.leads) hpos hw

/-- a text that is cut in a start tag -/
theorem agree_startTag {c : Cursor} {post tail : List Char} {attributes : List Attribute}
    (hc : (c.extend post).In 0 text) (hc' : c.In 0 front) (hb : b.Placed text c.pos)
    (h : c.rest = '<' :: tail)
    (he : c.startTag.1 = .start (c.drop 1).name.1.1 (c.drop 1).name.1.2 c.pos ::
      (attributes.map .attr ++ [.extend c.stop]))
    (hlt : c.stop < (c.extend post).startTag.2.pos) (hw : c.stop ≤ w) :
    Tree.Agree c.stop
      ((((c.extend post).startTag.1 ++ (c.extend post).startTag.2.events).foldl apply b).finish w)
      ((c.startTag.1.foldl apply b).finish c.stop) := by
  have hr : (c.extend post).rest = '<' :: (tail ++ post) := by rw [Cursor.extend, h]; rfl
  obtain ⟨t, het, hts, hl, hspan⟩ := Cursor.startTag_sound hc hr
  obtain ⟨t', het', hts', hl', hspan'⟩ := Cursor.startTag_sound hc' h
  have hstart := congrArg Span.start hspan
  have hstop := congrArg Span.stop hspan
  have hcpos : c.pos < c.stop := by
    rw [Cursor.stop, h]
    exact Nat.lt_add_of_pos_right (Text.width_pos (by simp))
  -- the names of both tags, from what their events begin with
  have hfirst : t.name = ((c.extend post).drop 1).name.1.1 ∧
      t.nameSpan = ((c.extend post).drop 1).name.1.2 := by
    have := (List.cons.inj het).1
    exact ⟨(Event.start.inj this).1.symm, (Event.start.inj this).2.1.symm⟩
  have hfirst' : t'.name = (c.drop 1).name.1.1 ∧ t'.nameSpan = (c.drop 1).name.1.2 := by
    have := (List.cons.inj (he.symm.trans het')).1
    exact ⟨(Event.start.inj this).1.symm, (Event.start.inj this).2.1.symm⟩
  have hend : t'.ending = .unfinished := by
    have hlast := (List.append_inj' (List.cons.inj (he.symm.trans het')).2 rfl).2
    cases hte : t'.ending with
    | unfinished => rfl
    | closed => rw [hte] at hlast; cases (List.cons.inj hlast).1
    | selfClosed => rw [hte] at hlast; cases (List.cons.inj hlast).1
  have hname : t.nameSpan.stop ≤ c.stop → t'.name = t.name ∧ t'.nameSpan = t.nameSpan := by
    intro hle
    rw [hfirst.1, hfirst.2, hfirst'.1, hfirst'.2]
    have hdrop := Cursor.drop_one_extend post (show c.rest ≠ [] by simp [h])
    rcases Cursor.name_extend (c.drop 1) post with hn | ⟨-, hbeyond⟩
    · rw [hdrop, hn]
      exact ⟨rfl, rfl⟩
    · rw [hfirst.2, Cursor.nameSpan_eq, hdrop] at hle
      rw [(Cursor.leads_drop 1 c).stop_eq] at hbeyond
      exact absurd hle (Nat.not_le.2 hbeyond)
  rw [het, het', List.foldl_append, foldl_tag hts, foldl_tag hts']
  refine agree_tag (p := c.pos) hb (Nat.le_of_eq hstart.symm) ?_ ?_ ?_ hend hname (hc.leads hl)
    (Nat.le_of_lt hlt) hw
  · rw [hstart]; exact hcpos
  · rw [hstop]; exact hlt
  · rw [hstart, hspan']; rfl

theorem placed_yields {c d : Cursor} {part : Option Part} (hy : Cursor.Yields text c d part)
    (hb : b.Placed text c.pos) :
    ((part.toList.flatMap Part.events).foldl apply b).Placed text d.pos :=
  hy.keep (fun p b => b.Placed text p) (fun _ _ _ hpq h => h.mono hpq)
    (fun _ _ _ hs hp h => h.put hs hp) hb

/-- a text that is cut in a construct or later, where reading on after the construct gives the same
context -/
theorem agree_construct {c : Cursor} {post tail : List Char} (hc : (c.extend post).In 0 text)
    (hc' : c.In 0 front) (hb : b.Placed text c.pos) (hr : c.rest = '<' :: tail)
    (hcon : c.CutConstruct post) (hw : c.stop ≤ w)
    (hmore : (c.extend post).construct = (c.construct.1, c.construct.2.extend post) →
      ∀ b' : Builder, c.Leads c.construct.2 → (c.construct.2.extend post).In 0 text →
        b'.Placed text c.construct.2.pos →
        Tree.Agree c.stop (((c.construct.2.extend post).events.foldl apply b').finish w)
          ((c.construct.2.events.foldl apply b').finish c.stop)) :
    Tree.Agree c.stop
      ((((c.extend post).construct.1 ++ (c.extend post).construct.2.events).foldl apply b).finish w)
      (((c.construct.1 ++ c.construct.2.events).foldl apply b).finish c.stop) := by
  have hr' : (c.extend post).rest = '<' :: (tail ++ post) := by rw [Cursor.extend, hr]; rfl
  obtain ⟨part, he, hy⟩ := Cursor.construct_yields hc hr'
  obtain ⟨part', -, hy'⟩ := Cursor.construct_yields hc' hr
  cases hcon with
  | same hsame =>
    have hb' := placed_yields hy hb
    rw [← he, hsame] at hb'
    rw [hsame] at hy
    rw [hsame, List.foldl_append, List.foldl_append]
    exact hmore hsame _ hy'.leads (hc.leads hy.leads) hb'
  | quiet hnil hq hq' hle =>
    have hnone : c.construct.2.events = [] := by
      rw [Cursor.events]
      simp [Cursor.takeWhile, hnil, textEvent]
    rw [hnone, List.append_nil]
    exact agree_quiet hb c.pos_le_stop hq' hq (hc.leads hy.leads) hle hw
  | tag h h' attributes he hs hlt =>
    have hnone : c.construct.2.events = [] := by
      rw [h, hs, Cursor.events]
      simp [Cursor.takeWhile, textEvent]
    rw [hnone, List.append_nil, h, h']
    exact agree_startTag hc hc' hb hr he hlt hw

/-- on a text and on its front, reading on from the same place gives the same context of the cut -/
theorem agree_extend {c : Cursor} {post : List Char} (hc : (c.extend post).In 0 text)
    (hc' : c.In 0 front) (hb : b.Placed text c.pos)
    (hk : ∀ k ∈ (c.extend post).constructs, Cursor.Spares c.stop k) (hw : c.stop ≤ w) :
    Tree.Agree c.stop (((c.extend post).events.foldl apply b).finish w)
      ((c.events.foldl apply b).finish c.stop) := by
  -- on the length of what is left of the front
  induction hlen : c.rest.length using Nat.strongRecOn generalizing c b with
  | ind len ih =>
  subst hlen
  by_cases hn : (c.takeWhile (· ≠ '<')).2.rest = []
  · exact agree_text hc hb hn hw
  have hpass := Cursor.passes_takeWhile (· ≠ '<') c
  obtain ⟨first, tail, hr⟩ := List.exists_cons_of_ne_nil hn
  have hfirst : first = '<' := by
    have := Cursor.head_takeWhile (c := c) (p := (· ≠ '<')) (d := first) (by rw [hr]; rfl)
    simpa using this
  subst hfirst
  -- the run of text before the `<` is the same
  have hread : (c.extend post).takeWhile (· ≠ '<') =
      ((c.takeWhile (· ≠ '<')).1, (c.takeWhile (· ≠ '<')).2.extend post) := by
    rcases Cursor.takeWhile_extend (· ≠ '<') c post with he | ⟨hnil, -⟩
    · exact he
    · exact absurd hnil hn
  obtain ⟨raw, next, hcut⟩ : ∃ raw next, c.takeWhile (· ≠ '<') = (raw, next) := ⟨_, _, rfl⟩
  rw [hcut] at hpass hr hread hn
  simp only at hpass hr hread hn
  have hn' : (next.extend post).rest ≠ [] := by
    rw [Cursor.extend, hr]
    simp
  have hstop : next.stop = c.stop := hpass.leads.stop_eq
  obtain ⟨part, he, hy⟩ := Cursor.textEvent_yields hc (· ≠ '<')
  have hb' := placed_yields hy hb
  rw [← he] at hb'
  rw [hread] at hy hb'
  have hconstructs := Cursor.constructs_eq hread hn'
  have hcon : next.CutConstruct post := by
    have hspare := hk (next.extend post, (next.extend post).construct.2)
      (hconstructs ▸ List.mem_cons_self)
    have hpos : next.pos < next.stop := by
      rw [Cursor.stop, hr]
      exact Nat.lt_add_of_pos_right (Text.width_pos (by simp))
    rw [← hstop] at hspare
    exact Cursor.construct_extend hr
      (fun hs => Nat.le_of_not_lt fun hlt => hspare.1 hs ⟨hpos, hlt⟩) hspare.2
  rw [Cursor.events_of_cons hcut hn, Cursor.events_of_cons hread hn', List.foldl_append,
    List.foldl_append (l := textEvent c.pos raw), ← hstop]
  refine agree_construct (hc.leads hy.leads) (hc'.leads hpass.leads) hb' hr hcon (hstop ▸ hw) ?_
  intro hsame b' hleads hin hplaced
  have hless : next.construct.2.rest.length < c.rest.length := by
    have h1 := Cursor.length_construct_lt hn
    have h2 := congrArg List.length hpass.rest
    rw [List.length_append] at h2
    omega
  have hend : next.construct.2.stop = c.stop := hleads.stop_eq.trans hstop
  rw [hstop, ← hend]
  refine ih _ hless hin ((hc'.leads hpass.leads).leads hleads) hplaced ?_ (hend ▸ hw) rfl
  intro k hmem
  rw [hend]
  refine hk k ?_
  rw [hconstructs, hsame]
  exact List.mem_cons_of_mem _ hmem

end Builder

namespace Tree

variable {offset : Nat} {t t' : Tree}

theorem named?_of_element? {id : Nat} {e : Element} (h : t.element? id = some e) :
    t.named? id = some (e.name, e.nameSpan) := by
  obtain ⟨n, hn, hne⟩ := Option.bind_eq_some_iff.1 h
  have hnode : t.node? id = some n := hn
  rw [named?, hnode]
  change n.named? = _
  rw [Node.named?, hne]
  rfl

theorem Agree.sameContext (h : Agree offset t t') (hs : t.Sorted) (hs' : t'.Sorted) :
    SameContext offset t t' := by
  obtain ⟨ids, hord, hcov, hcov', halike⟩ := h
  have hin := innermostAt_eq hs hcov hord
  have hin' := innermostAt_eq hs' hcov' hord
  have hsame : ∀ {id id' : Nat}, t.innermostAt offset = some id →
      t'.innermostAt offset = some id' → id' = id ∧ Alike offset t t' id := by
    intro id id' hid hid'
    rw [hin] at hid
    rw [hin', hid] at hid'
    exact ⟨(Option.some.inj hid').symm, halike id (List.mem_of_head? hid)⟩
  refine ⟨by rw [hin, hin'], ?_, ?_⟩
  · intro id id' hid hid'
    obtain ⟨rfl, ha⟩ := hsame hid hid'
    exact ha.ancestors.symm
  · intro id id' e hid hid' he hstop
    obtain ⟨rfl, ha⟩ := hsame hid hid'
    rw [elementName?_eq_named?, ha.own _ (named?_of_element? he) hstop]
    rfl

/-- what is around an offset depends on the text before it alone -/
theorem sameContext_front (text : String) (offset : Nat)
    (hb : Text.Boundary 0 text.toList offset) (hs : Spared text offset) :
    SameContext offset (Tree.parse text)
      (Tree.parse (String.ofList (Text.takeWidth offset text.toList))) := by
  obtain ⟨pre, ⟨post, hpost⟩, hoff⟩ := hb
  rw [Nat.zero_add] at hoff
  subst hoff
  have hfront : Text.takeWidth (Text.width pre) text.toList = pre := by
    rw [← hpost, Text.takeWidth_append]
  rw [hfront]
  refine Agree.sameContext ?_ (Tree.sorted_parse _) (Tree.sorted_parse _)
  have hext : (⟨0, pre⟩ : Cursor).extend post = ⟨0, text.toList⟩ := by
    rw [Cursor.extend, hpost]
  have hstop : (⟨0, pre⟩ : Cursor).stop = Text.width pre := Nat.zero_add _
  have hin : ((⟨0, pre⟩ : Cursor).extend post).In 0 text.toList := hext ▸ .refl _
  have hfin : (⟨0, pre⟩ : Cursor).In 0 pre := .refl _
  have hle : (⟨0, pre⟩ : Cursor).stop ≤ Text.width text.toList := by
    rw [hstop, ← hpost, Text.width_append]
    omega
  have key := Builder.agree_extend hin hfin (Builder.placed_empty _)
    (by rw [hext, hstop]; exact hs) hle
  rw [hext, hstop] at key
  rw [Tree.parse, Tree.parse, String.toList_ofList]
  exact key

/-- the cut is in a value that is never closed, before the closing tag of the element around it -/
theorem sameContext_front_value :
    Text.Boundary 0 "<p><b c='x</p>".toList 10 ∧ Spared "<p><b c='x</p>" 10 ∧
      SameContext 10 (Tree.parse "<p><b c='x</p>")
        (Tree.parse (String.ofList (Text.takeWidth 10 "<p><b c='x</p>".toList))) := by
  have hb : Text.Boundary 0 "<p><b c='x</p>".toList 10 :=
    ⟨"<p><b c='x".toList, by decide, by decide⟩
  have hs : Spared "<p><b c='x</p>" 10 := by decide +kernel
  exact ⟨hb, hs, sameContext_front "<p><b c='x</p>" 10 hb hs⟩

end Tree
end ProjectSense
