import ProjectSense.Proofs.Expr.Steps

/-!
# The form of an expression

Whatever a text holds, reading it loses nothing and gives an expression in normal form: texts are
what stands there, the parts of a concatenation cover it and two of them are never texts in a row,
and a list stands at the top alone, its entries one `;` apart.

* `Tokens.reads_parts`, `Tokens.reads_part`, `Tokens.reads_links`: the readers, by recursion on the
  tokens that are left.
* `Tokens.reads_entries`: the entries cover the text.
* `Expr.normal_parse`: every expression is in normal form.
-/

namespace ProjectSense

namespace Expr

/-- may be part of a concatenation -/
def isPart : Expr → Bool
  | .concat .. | .list .. => false
  | .text _ raw => raw ≠ ""
  | _ => true

/-- the expressions cover the text from `start` to `stop` without gap or overlap -/
def Tile (start stop : Nat) : List Expr → Prop
  | [] => start = stop
  | e :: es => e.span.start = start ∧ Tile e.span.stop stop es

theorem Tile.head {start stop : Nat} {es : List Expr} (h : Tile start stop es) :
    ∀ e ∈ es.head?, e.span.start = start := by
  cases es with
  | nil => exact fun e he => by cases he
  | cons first es =>
    rintro e ⟨⟩
    exact h.1

/-- no two texts follow one another -/
def TextsApart : List Expr → Prop
  | e :: f :: es => ¬(e.isText = true ∧ f.isText = true) ∧ TextsApart (f :: es)
  | _ => True

/-- the form of a node below the top, apart from the nodes in it -/
def Normal (base : Nat) (text : List Char) : Expr → Prop
  | .text s raw => s.Holds base text raw.toList
  | .item s _ transforms _ _ => s.Within base text ∧
    (∀ t ∈ transforms, s.start ≤ t.span.start ∧ t.span.stop ≤ s.stop) ∧
    transforms.Pairwise fun a b => a.span.stop ≤ b.span.start
  | .concat s parts => s.Within base text ∧ 2 ≤ parts.length ∧ (∀ p ∈ parts, p.isPart = true) ∧
    TextsApart parts ∧ Tile s.start s.stop parts
  | .list _ _ => False
  | .property s _ _ | .metadata s _ _ _ | .call s _ _ _ => s.Within base text

/-- the node and all nodes in it have their form -/
inductive Sound (base : Nat) (text : List Char) : Expr → Prop
  | intro {e : Expr} (h : e.Normal base text) (hc : ∀ c ∈ e.children, Sound base text c) :
    Sound base text e

/-- the expressions cover the text from `start` to `stop`, with one `;` between two of them -/
def Separated (base : Nat) (text : List Char) (start stop : Nat) : List Expr → Prop
  | [] => False
  | [e] => e.span = ⟨start, stop⟩
  | e :: es => e.span.start = start ∧
    Text.slice base text ⟨e.span.stop, e.span.stop + 1⟩ = [';'] ∧
    Separated base text (e.span.stop + 1) stop es

/-- the entries of a list, or the expression alone -/
def entries : Expr → List Expr
  | .list _ es => es
  | e => [e]

/-- the form of the expression of a whole text -/
structure NormalForm (base : Nat) (text : List Char) (e : Expr) : Prop where
  sound : ∀ entry ∈ e.entries, entry.Sound base text
  list : ∀ s es, e = .list s es → 2 ≤ es.length ∧ s = ⟨base, base + Text.width text⟩
  within : e.span.Within base text
  separated : Separated base text base (base + Text.width text) e.entries
  joined : [';'].intercalate (e.entries.map fun entry => Text.slice base text entry.span) = text

/-! ### Nodes -/

variable {base start stop : Nat} {text : List Char} {e : Expr} {es : List Expr}

/-- every node lies in the text -/
theorem Sound.within (h : e.Sound base text) : e.span.Within base text := by
  obtain ⟨h, -⟩ := h
  cases e with
  | text s raw => exact Span.Holds.within h
  | item s name transforms separator complete => exact h.1
  | concat s parts => exact h.1
  | list s entries => exact h.elim
  | property s name complete => exact h
  | metadata s owner name complete => exact h
  | call s callee calleeSpan name => exact h

theorem sound_text {s : Span} {raw : String} (h : s.Holds base text raw.toList) :
    (Expr.text s raw).Sound base text :=
  ⟨h, fun c hc => by cases hc⟩

/-- a reference that holds no other nodes -/
def isLeaf : Expr → Bool
  | .property .. | .metadata .. | .call .. => true
  | _ => false

theorem sound_leaf (hl : e.isLeaf = true) (h : e.span.Within base text) : e.Sound base text := by
  cases e with
  | property s name complete => exact ⟨h, fun c hc => by cases hc⟩
  | metadata s owner name complete => exact ⟨h, fun c hc => by cases hc⟩
  | call s callee calleeSpan name => exact ⟨h, fun c hc => by cases hc⟩
  | text s raw => cases hl
  | item s name transforms separator complete => cases hl
  | concat s parts => cases hl
  | list s entries => cases hl

theorem isPart_of_isLeaf (h : e.isLeaf = true) : e.isPart = true ∧ e.isText = false := by
  cases e with
  | property | metadata | call => exact ⟨rfl, rfl⟩
  | text | item | concat | list => cases h

theorem Separated.ne_nil (h : Separated base text start stop es) : es ≠ [] := by
  rintro rfl
  exact h

theorem Separated.cons {p : Nat} (he : e.span = ⟨start, p⟩)
    (hsemi : Text.slice base text ⟨p, p + 1⟩ = [';'])
    (h : Separated base text (p + 1) stop es) : Separated base text start stop (e :: es) := by
  cases es with
  | nil => exact h.elim
  | cons f es =>
    refine ⟨by rw [he], ?_, ?_⟩
    · rw [he]; exact hsemi
    · rw [he]; exact h

theorem ofParts_span (h : Tile start stop es) :
    (ofParts start stop es).span = ⟨start, stop⟩ := by
  match es with
  | [] =>
    obtain rfl : start = stop := h
    rw [ofParts_nil]
    rfl
  | [part] =>
    obtain ⟨h1, h2⟩ := h
    obtain rfl : part.span.stop = stop := h2
    rw [ofParts_singleton, ← h1]
  | first :: second :: parts =>
    rw [ofParts_cons_cons]
    rfl

theorem ofParts_sound (h : Tile start stop es) (hs : ∀ e ∈ es, e.Sound base text)
    (hp : ∀ e ∈ es, e.isPart = true) (ha : TextsApart es)
    (hw : (⟨start, stop⟩ : Span).Within base text)
    (hempty : (⟨start, start⟩ : Span).Holds base text []) :
    (ofParts start stop es).Sound base text := by
  match es with
  | [] =>
    rw [ofParts_nil]
    exact sound_text hempty
  | [part] =>
    rw [ofParts_singleton]
    exact hs part List.mem_cons_self
  | first :: second :: parts =>
    rw [ofParts_cons_cons]
    exact ⟨⟨hw, by simp, hp, ha, h⟩, hs⟩

end Expr

namespace Tokens

open ProjectSense.Expr (Sound Tile TextsApart Separated)

variable {ts us : Tokens} {stop : TokenKind} {base start : Nat} {text : List Char}

/-! ### Specifications of the readers -/

/-- `e` is a part that was read from `ts` to `after` -/
structure ReadsPart (base : Nat) (text : List Char) (stop : TokenKind) (ts : Tokens) (e : Expr)
    (after : Tokens) : Prop where
  leads : ts.Leads after
  sound : e.Sound base text
  isPart : e.isPart = true
  span : e.span = ⟨ts.pos, after.pos⟩
  next : e.isText = true → ∀ k, after.kind? = some k → k = stop ∨ k.isOpener = true

/-- `es` are all the parts from `ts` to `after` -/
structure ReadsParts (base : Nat) (text : List Char) (stop : TokenKind) (ts : Tokens)
    (es : List Expr) (after : Tokens) : Prop where
  leads : ts.Leads after
  sound : ∀ e ∈ es, e.Sound base text
  isPart : ∀ e ∈ es, e.isPart = true
  tile : Tile ts.pos after.pos es
  apart : TextsApart es
  head : ∀ e ∈ es.head?, ∃ k, ts.kind? = some k ∧ k ≠ stop ∧
    (e.isText = true → k.isOpener = false)
  last : after.kind? = none ∨ after.kind? = some stop

/-- `es` are transforms that were read in order from `ts` to `after` -/
structure ReadsLinks (base : Nat) (text : List Char) (ts : Tokens) (es : List Expr)
    (after : Tokens) : Prop where
  leads : ts.Leads after
  sound : ∀ e ∈ es, e.Sound base text ∧ ts.pos ≤ e.span.start ∧ e.span.stop ≤ after.pos
  ordered : es.Pairwise fun a b => a.span.stop ≤ b.span.start

theorem ReadsParts.nil (h : ts.kind? = none ∨ ts.kind? = some stop) :
    ReadsParts base text stop ts [] ts :=
  ⟨.refl ts, by simp, by simp, rfl, trivial, by simp, h⟩

theorem ReadsParts.cons {e : Expr} {es : List Expr} {k : TokenKind} {last : Tokens}
    (hk : ts.kind? = some k) (hne : k ≠ stop) (ho : e.isText = true → k.isOpener = false)
    (h : ReadsPart base text stop ts e us) (g : ReadsParts base text stop us es last) :
    ReadsParts base text stop ts (e :: es) last := by
  refine ⟨h.leads.trans g.leads, ?_, ?_, ⟨?_, ?_⟩, ?_, ?_, g.last⟩
  · intro f hf
    rcases List.mem_cons.1 hf with rfl | hf
    · exact h.sound
    · exact g.sound f hf
  · intro f hf
    rcases List.mem_cons.1 hf with rfl | hf
    · exact h.isPart
    · exact g.isPart f hf
  · rw [h.span]
  · rw [h.span]; exact g.tile
  · cases es with
    | nil => trivial
    | cons f es =>
      refine ⟨?_, g.apart⟩
      rintro ⟨he, hf⟩
      -- after a text comes a reference, and no text begins like one
      obtain ⟨k', hk', hne', ho'⟩ := g.head f rfl
      rcases h.next he k' hk' with rfl | hopen
      · exact hne' rfl
      · rw [ho' hf] at hopen; cases hopen
  · rintro f ⟨⟩
    exact ⟨k, hk, hne, ho⟩

theorem ReadsLinks.nil (h : ts.Leads us) : ReadsLinks base text ts [] us :=
  ⟨h, by simp, .nil⟩

theorem ReadsLinks.cons {e : Expr} {es : List Expr} {last : Tokens} {next : Tokens}
    (hs : e.Sound base text) (h1 : ts.Leads us) (he : us.pos ≤ e.span.start)
    (h2 : us.Leads next) (he' : e.span.stop ≤ next.pos)
    (g : ReadsLinks base text next es last) : ReadsLinks base text ts (e :: es) last := by
  have hle1 := h1.le
  have hle2 := h2.le
  have hle3 := g.leads.le
  refine ⟨h1.trans (h2.trans g.leads), ?_, ?_⟩
  · intro f hf
    rcases List.mem_cons.1 hf with rfl | hf
    · exact ⟨hs, by omega, by omega⟩
    · obtain ⟨h3, h4, h5⟩ := g.sound f hf
      exact ⟨h3, by omega, h5⟩
  · refine List.pairwise_cons.2 ⟨fun f hf => ?_, g.ordered⟩
    have := (g.sound f hf).2.1
    omega

theorem ReadsLinks.later {es : List Expr} {last : Tokens} (h : ts.Leads us)
    (g : ReadsLinks base text us es last) : ReadsLinks base text ts es last := by
  have hle := h.le
  refine ⟨h.trans g.leads, ?_, g.ordered⟩
  intro e he
  obtain ⟨h1, h2, h3⟩ := g.sound e he
  exact ⟨h1, by omega, h3⟩

theorem In.empty (h : ts.In base text) : (⟨ts.pos, ts.pos⟩ : Span).Holds base text [] :=
  h.holds (.refl ts)

theorem ReadsParts.ofParts {es : List Expr} (h : ts.In base text)
    (g : ReadsParts base text stop ts es us) :
    (Expr.ofParts ts.pos us.pos es).Sound base text ∧
      (Expr.ofParts ts.pos us.pos es).span = ⟨ts.pos, us.pos⟩ :=
  ⟨Expr.ofParts_sound g.tile g.sound g.isPart g.apart (h.within g.leads) h.empty,
    Expr.ofParts_span g.tile⟩

/-! ### Parts -/

theorem span_property (start : Nat) (ts : Tokens) :
    (property start ts).1.isLeaf = true ∧
      (property start ts).1.span = ⟨start, (property start ts).2.pos⟩ := by
  simp only [property]
  split
  · exact ⟨rfl, rfl⟩
  split
  · split
    · exact ⟨rfl, rfl⟩
    · exact ⟨rfl, rfl⟩
  · exact ⟨rfl, rfl⟩

theorem span_metadata (start : Nat) (ts : Tokens) :
    (metadata start ts).1.isLeaf = true ∧
      (metadata start ts).1.span = ⟨start, (metadata start ts).2.pos⟩ := by
  simp only [metadata]
  split
  · exact ⟨rfl, rfl⟩
  · exact ⟨rfl, rfl⟩

theorem reads_leaf {e : Expr} (h : ts.In base text) (hl : e.isLeaf = true) (hr : ts.Leads us)
    (hs : e.span = ⟨ts.pos, us.pos⟩) : ReadsPart base text stop ts e us := by
  obtain ⟨h1, h2⟩ := Expr.isPart_of_isLeaf hl
  refine ⟨hr, Expr.sound_leaf hl (hs ▸ h.within hr), h1, hs, ?_⟩
  intro ht
  rw [h2] at ht
  cases ht

/-! ### The readers, one step each -/

theorem parts_stop (hk : ts.kind? = none ∨ ts.kind? = some stop) :
    (parts stop ts).value = [] ∧ (parts stop ts).after = ts := by
  rw [parts, dif_pos hk]
  exact ⟨rfl, rfl⟩

theorem parts_next (hk : ¬(ts.kind? = none ∨ ts.kind? = some stop)) :
    (parts stop ts).value =
        (part stop ts.kind? ts.pos (ts.rest.take 1) ts.advance).value ::
          (parts stop (part stop ts.kind? ts.pos (ts.rest.take 1) ts.advance).after).value ∧
      (parts stop ts).after =
        (parts stop (part stop ts.kind? ts.pos (ts.rest.take 1) ts.advance).after).after := by
  rw [parts, dif_neg hk]
  exact ⟨rfl, rfl⟩

theorem part_item (stop : TokenKind) (start : Nat) (head : List Token) (ts : Tokens) :
    (part stop (some .itemOpen) start head ts).value =
        .item ⟨start, (links ts.skipBlanks.word.1 ts.skipBlanks.word.2).after.close.2.pos⟩
          ts.skipBlanks.word.1 (links ts.skipBlanks.word.1 ts.skipBlanks.word.2).value.1
          (links ts.skipBlanks.word.1 ts.skipBlanks.word.2).value.2
          (links ts.skipBlanks.word.1 ts.skipBlanks.word.2).after.close.1 ∧
      (part stop (some .itemOpen) start head ts).after =
        (links ts.skipBlanks.word.1 ts.skipBlanks.word.2).after.close.2 := by
  constructor
  · rw [part]
  · rw [part]

theorem links_quoted (name : Word) (hk : ts.skipBlanks.kind? = some .arrow)
    (hq : ts.skipBlanks.advance.skipBlanks.kind? = some .quote) {quoted : List Expr} {us : Tokens}
    (hv : (parts .quote ts.skipBlanks.advance.skipBlanks.advance).value = quoted)
    (ha : (parts .quote ts.skipBlanks.advance.skipBlanks.advance).after = us) :
    (links name ts).value =
        (Expr.ofParts ts.skipBlanks.advance.skipBlanks.advance.pos us.pos quoted ::
          (links name (us.eat .quote)).value.1, (links name (us.eat .quote)).value.2) ∧
      (links name ts).after = (links name (us.eat .quote)).after := by
  subst hv ha
  rw [links]
  simp only [dif_pos hk, if_pos hq, true_and]

theorem links_call (name : Word) (hk : ts.skipBlanks.kind? = some .arrow)
    (hi : ts.skipBlanks.advance.skipBlanks.kind? = some .ident) :
    (links name ts).value = ((itemCall name ts.skipBlanks.advance.skipBlanks).1 ::
        (links name (itemCall name ts.skipBlanks.advance.skipBlanks).2).value.1,
        (links name (itemCall name ts.skipBlanks.advance.skipBlanks).2).value.2) ∧
      (links name ts).after =
        (links name (itemCall name ts.skipBlanks.advance.skipBlanks).2).after := by
  have hq : ¬ts.skipBlanks.advance.skipBlanks.kind? = some .quote := by
    rw [hi]
    intro h
    cases h
  rw [links]
  simp only [dif_pos hk, if_neg hq, if_pos hi]
  exact ⟨rfl, rfl⟩

theorem links_skip (name : Word) (hk : ts.skipBlanks.kind? = some .arrow)
    (hq : ¬ts.skipBlanks.advance.skipBlanks.kind? = some .quote)
    (hi : ¬ts.skipBlanks.advance.skipBlanks.kind? = some .ident) :
    (links name ts).value = (links name ts.skipBlanks.advance.skipBlanks).value ∧
      (links name ts).after = (links name ts.skipBlanks.advance.skipBlanks).after := by
  rw [links]
  simp only [dif_pos hk, if_neg hq, if_neg hi, true_and]

theorem links_comma (name : Word) (hk : ts.skipBlanks.kind? = some .comma) :
    (links name ts).value = ((links name (separator ts.skipBlanks.advance).2).value.1,
        (links name (separator ts.skipBlanks.advance).2).value.2 <|>
          (separator ts.skipBlanks.advance).1) ∧
      (links name ts).after = (links name (separator ts.skipBlanks.advance).2).after := by
  have ha : ¬ts.skipBlanks.kind? = some .arrow := by
    rw [hk]
    intro h
    cases h
  rw [links]
  simp only [dif_neg ha, dif_pos hk]
  exact ⟨rfl, rfl⟩

theorem links_end (name : Word) (ha : ¬ts.skipBlanks.kind? = some .arrow)
    (hc : ¬ts.skipBlanks.kind? = some .comma) :
    (links name ts).value = ([], none) ∧ (links name ts).after = ts.skipBlanks := by
  rw [links]
  simp only [dif_neg ha, dif_neg hc, true_and]

theorem part_text (stop : TokenKind) (start : Nat) (ts : Tokens) {kind? : Option TokenKind}
    (h1 : kind? ≠ some .propertyOpen) (h2 : kind? ≠ some .metadataOpen)
    (h3 : kind? ≠ some .itemOpen) (head : List Token) :
    (part stop kind? start head ts).value = .text
        ⟨start, (ts.takeWhile fun k => k ≠ stop && !k.isOpener).2.pos⟩
        (String.ofList
          (Token.texts head ++ (ts.takeWhile fun k => k ≠ stop && !k.isOpener).1)) ∧
      (part stop kind? start head ts).after =
        (ts.takeWhile fun k => k ≠ stop && !k.isOpener).2 := by
  rw [part]
  · exact ⟨rfl, rfl⟩
  · exact h1
  · exact h2
  · exact h3

/-- a part that begins with an opener is no text -/
theorem isOpener_of_isText {k : TokenKind} {head : List Token}
    (h : (part stop (some k) start head ts).value.isText = true) : k.isOpener = false := by
  refine Bool.eq_false_iff.2 ?_
  intro ho
  have hnot : (part stop (some k) start head ts).value.isText = false := by
    cases k with
    | propertyOpen =>
      rw [part]
      exact (Expr.isPart_of_isLeaf (span_property start ts).1).2
    | metadataOpen =>
      rw [part]
      exact (Expr.isPart_of_isLeaf (span_metadata start ts).1).2
    | itemOpen =>
      rw [(part_item stop start head ts).1]
      rfl
    | _ => cases ho
  rw [h] at hnot
  cases hnot

/-- a run of text, from its first token on -/
theorem reads_run {head : List Token} (h : ts.In base text) (hp : ts.Passes head us)
    (hne : Token.texts head ≠ []) :
    ReadsPart base text stop ts
      (.text ⟨ts.pos, (us.takeWhile fun k => k ≠ stop && !k.isOpener).2.pos⟩ (String.ofList
        (Token.texts head ++ (us.takeWhile fun k => k ≠ stop && !k.isOpener).1)))
      (us.takeWhile fun k => k ≠ stop && !k.isOpener).2 := by
  have hrun := passes_takeWhile (fun k => k ≠ stop && !k.isOpener) us
  have hall := hp.trans hrun
  refine ⟨hall.leads, Expr.sound_text ?_, ?_, rfl, ?_⟩
  · have := h.holds hall
    rw [Token.texts_append] at this
    rw [String.toList_ofList]
    exact this
  · have hraw : String.ofList
        (Token.texts head ++ (us.takeWhile fun k => k ≠ stop && !k.isOpener).1) ≠ "" := by
      intro heq
      have := congrArg String.toList heq
      rw [String.toList_ofList] at this
      exact hne (List.append_eq_nil_iff.1 this).1
    exact decide_eq_true hraw
  · intro _ k hk
    have := kind?_takeWhile hk
    simp only [Bool.and_eq_false_iff, decide_eq_false_iff_not, Bool.not_eq_false'] at this
    rcases this with hstop | hopen
    · exact Or.inl (Classical.not_not.1 hstop)
    · exact Or.inr hopen

theorem In.texts_head (h : ts.In base text) (hk : ts.kind? ≠ none) :
    Token.texts (ts.rest.take 1) ≠ [] := by
  cases hr : ts.rest with
  | nil => exact absurd (by rw [kind?, hr]; rfl) hk
  | cons t rest =>
    have := (h.lexed t (by rw [hr]; exact List.mem_cons_self)).1
    simpa using this

/-! ### The readers keep to their specifications -/

mutual

theorem reads_parts (stop : TokenKind) (ts : Tokens) (h : ts.In base text) :
    ReadsParts base text stop ts (parts stop ts).value (parts stop ts).after := by
  by_cases hk : ts.kind? = none ∨ ts.kind? = some stop
  · obtain ⟨hv, ha⟩ := parts_stop hk
    rw [hv, ha]
    exact .nil hk
  · obtain ⟨hv, ha⟩ := parts_next hk
    obtain ⟨k, hkind⟩ : ∃ k, ts.kind? = some k :=
      Option.ne_none_iff_exists'.1 fun hn => hk (Or.inl hn)
    have hlt : ts.advance.rest.length < ts.rest.length :=
      length_advance_lt (rest_ne_nil_of_kind? hkind)
    have hle := (part stop ts.kind? ts.pos (ts.rest.take 1) ts.advance).le
    have hfirst := reads_part stop ts.kind? (ts.rest.take 1) ts ts.advance h (passes_advance ts)
      (h.texts_head (by simp [hkind]))
    have hmore := reads_parts stop _ (h.leads hfirst.leads)
    rw [hv, ha]
    refine .cons hkind (fun heq => hk (Or.inr (heq ▸ hkind))) ?_ hfirst hmore
    rw [hkind]
    exact isOpener_of_isText
termination_by 3 * ts.rest.length

theorem reads_part (stop : TokenKind) (kind? : Option TokenKind) (head : List Token)
    (ts us : Tokens) (h : ts.In base text) (hp : ts.Passes head us)
    (hne : Token.texts head ≠ []) :
    ReadsPart base text stop ts (part stop kind? ts.pos head us).value
      (part stop kind? ts.pos head us).after := by
  by_cases h1 : kind? = some .propertyOpen
  · subst h1
    obtain ⟨hl, hs⟩ := span_property ts.pos us
    rw [part]
    exact reads_leaf h hl (hp.leads.trans (leads_property ts.pos us)) hs
  by_cases h2 : kind? = some .metadataOpen
  · subst h2
    obtain ⟨hl, hs⟩ := span_metadata ts.pos us
    rw [part]
    exact reads_leaf h hl (hp.leads.trans (leads_metadata ts.pos us)) hs
  by_cases h3 : kind? = some .itemOpen
  · subst h3
    obtain ⟨hv, ha⟩ := part_item stop ts.pos head us
    have hname := hp.leads.trans ((leads_skipBlanks us).trans (leads_word _))
    have hle : us.skipBlanks.word.2.rest.length ≤ us.rest.length :=
      Nat.le_trans us.skipBlanks.length_word_le us.length_skipBlanks_le
    have hlinks := reads_links us.skipBlanks.word.1 us.skipBlanks.word.2 (h.leads hname)
    have hclose := leads_close (links us.skipBlanks.word.1 us.skipBlanks.word.2).after
    have hall := hname.trans (hlinks.leads.trans hclose)
    have hle1 := hname.le
    have hle2 := hclose.le
    rw [hv, ha]
    refine ⟨hall, ⟨⟨h.within hall, ?_, hlinks.ordered⟩, fun c hc => (hlinks.sound c hc).1⟩, rfl,
      rfl, fun ht => by cases ht⟩
    intro t ht
    obtain ⟨-, h4, h5⟩ := hlinks.sound t ht
    exact ⟨Nat.le_trans hle1 h4, Nat.le_trans h5 hle2⟩
  · obtain ⟨hv, ha⟩ := part_text stop ts.pos us h1 h2 h3 head
    rw [hv, ha]
    exact reads_run h hp hne
termination_by 3 * us.rest.length + 2

theorem reads_links (name : Word) (ts : Tokens) (h : ts.In base text) :
    ReadsLinks base text ts (links name ts).value.1 (links name ts).after := by
  have hskip := leads_skipBlanks ts
  have hlen := ts.length_skipBlanks_le
  by_cases hk : ts.skipBlanks.kind? = some .arrow
  · have hlt := length_advance_lt (rest_ne_nil_of_kind? hk)
    have hlen' := ts.skipBlanks.advance.length_skipBlanks_le
    have htarget := hskip.trans ((leads_advance _).trans (leads_skipBlanks _))
    by_cases hq : ts.skipBlanks.advance.skipBlanks.kind? = some .quote
    · have hlen2 := ts.skipBlanks.advance.skipBlanks.length_advance_le
      have hopen := htarget.trans (leads_advance _)
      have hquoted := reads_parts .quote ts.skipBlanks.advance.skipBlanks.advance (h.leads hopen)
      have hlen3 := (parts .quote ts.skipBlanks.advance.skipBlanks.advance).le
      have hlen4 := (parts .quote ts.skipBlanks.advance.skipBlanks.advance).after.length_eat_le
        .quote
      have heat := leads_eat .quote
        (parts .quote ts.skipBlanks.advance.skipBlanks.advance).after
      have hmore := reads_links name _ (h.leads (hopen.trans (hquoted.leads.trans heat)))
      obtain ⟨hv, ha⟩ := links_quoted name hk hq rfl rfl
      obtain ⟨hs, hspan⟩ := hquoted.ofParts (h.leads hopen)
      rw [hv, ha]
      refine .cons hs hopen ?_ (hquoted.leads.trans heat) ?_ hmore
      · exact Nat.le_of_eq (congrArg Span.start hspan).symm
      · rw [hspan]; exact heat.le
    by_cases hi : ts.skipBlanks.advance.skipBlanks.kind? = some .ident
    · have hlen2 := length_itemCall_le name ts.skipBlanks.advance.skipBlanks
      have hcall := leads_itemCall name ts.skipBlanks.advance.skipBlanks
      have hmore := reads_links name _ (h.leads (htarget.trans hcall))
      obtain ⟨hv, ha⟩ := links_call name hk hi
      rw [hv, ha]
      exact .cons (Expr.sound_leaf rfl ((h.leads htarget).within hcall)) htarget (Nat.le_refl _)
        hcall (Nat.le_refl _) hmore
    · have hmore := reads_links name _ (h.leads htarget)
      obtain ⟨hv, ha⟩ := links_skip name hk hq hi
      rw [hv, ha]
      exact hmore.later htarget
  by_cases hc : ts.skipBlanks.kind? = some .comma
  · have hlt := length_advance_lt (rest_ne_nil_of_kind? hc)
    have hlen2 := length_separator_le ts.skipBlanks.advance
    have hsep := hskip.trans ((leads_advance _).trans (leads_separator _))
    have hmore := reads_links name _ (h.leads hsep)
    obtain ⟨hv, ha⟩ := links_comma name hc
    rw [hv, ha]
    exact hmore.later hsep
  · obtain ⟨hv, ha⟩ := links_end name hk hc
    rw [hv, ha]
    exact .nil hskip
termination_by 3 * ts.rest.length + 1

end

/-! ### Entries -/

theorem In.end_pos (h : ts.In base text) (hk : ts.kind? = none) :
    ts.pos = base + Text.width text := by
  have hnil : ts.rest = [] := by
    cases hr : ts.rest with
    | nil => rfl
    | cons t rest => rw [kind?, hr] at hk; cases hk
  have hstop := h.cursor.stop
  change ts.pos + Text.width (Token.texts ts.rest) = _ at hstop
  rw [hnil] at hstop
  exact hstop

theorem In.passes_slice (h : ts.In base text) (g : ts.Leads us) :
    ts.cursor.Passes (Text.slice base text ⟨ts.pos, us.pos⟩) us.cursor := by
  obtain ⟨taken, g⟩ := g
  rw [(h.holds g).slice_eq]
  exact g.cursor

/-- a semicolon takes one byte -/
theorem In.passes_semicolon (h : ts.In base text) (hk : ts.kind? = some .semicolon) :
    ts.cursor.Passes [';'] ts.advance.cursor ∧ ts.advance.pos = ts.pos + 1 := by
  obtain ⟨t, ht, hkind⟩ := Option.map_eq_some_iff.1 hk
  obtain ⟨rest, hr⟩ := List.head?_eq_some_iff.1 ht
  have htext := (h.lexed t (by rw [hr]; exact List.mem_cons_self)).2 hkind
  have hpass := (passes_advance ts).cursor
  have htake : Token.texts (ts.rest.take 1) = [';'] := by
    rw [hr]
    simpa using htext
  rw [htake] at hpass
  exact ⟨hpass, hpass.pos⟩

/-- what the entries are, from `ts` up to the end of the text -/
structure ReadsEntries (base : Nat) (text : List Char) (ts : Tokens) (es : List Expr)
    (last : Tokens) : Prop where
  leads : ts.Leads last
  pos : last.pos = base + Text.width text
  sound : ∀ e ∈ es, e.Sound base text
  separated : Separated base text ts.pos last.pos es
  joined : ts.cursor.Passes
    ([';'].intercalate (es.map fun entry => Text.slice base text entry.span)) last.cursor

theorem reads_entries (ts : Tokens) (h : ts.In base text) :
    ReadsEntries base text ts (entries ts).1 (entries ts).2 := by
  fun_induction entries ts with
  | case1 ts first after le hparts entry hk hlt more ih =>
    have hfirst := reads_parts .semicolon ts h
    rw [hparts] at hfirst
    obtain ⟨hs, hspan⟩ := hfirst.ofParts h
    have hafter := h.leads hfirst.leads
    have hsemi := leads_advance after
    obtain ⟨hpass, hpos⟩ := hafter.passes_semicolon hk
    have hmore := ih (hafter.leads hsemi)
    have hslice : Text.slice base text ⟨after.pos, after.pos + 1⟩ = [';'] := by
      rw [← hpos]
      exact (hafter.cursor.holds hpass).slice_eq
    refine ⟨hfirst.leads.trans (hsemi.trans hmore.leads), hmore.pos, ?_, ?_, ?_⟩
    · intro e he
      rcases List.mem_cons.1 he with rfl | he
      · exact hs
      · exact hmore.sound e he
    · exact .cons hspan hslice (hpos ▸ hmore.separated)
    · have hentry := h.passes_slice hfirst.leads
      rw [← hspan] at hentry
      have hne : more.1.map (fun entry => Text.slice base text entry.span) ≠ [] := by
        intro hnil
        exact hmore.separated.ne_nil (List.map_eq_nil_iff.1 hnil)
      rw [List.map_cons, List.intercalate_cons_of_ne_nil hne]
      exact (hentry.trans hpass).trans hmore.joined
  | case2 ts first after le hparts entry hk =>
    have hfirst := reads_parts .semicolon ts h
    rw [hparts] at hfirst
    obtain ⟨hs, hspan⟩ := hfirst.ofParts h
    have hnone : after.kind? = none := by
      rcases hfirst.last with hn | hn
      · exact hn
      · exact absurd hn hk
    refine ⟨hfirst.leads, (h.leads hfirst.leads).end_pos hnone, ?_, hspan, ?_⟩
    · intro e he
      obtain rfl := List.mem_singleton.1 he
      exact hs
    · have hentry := h.passes_slice hfirst.leads
      rw [← hspan] at hentry
      rw [List.map_singleton, List.intercalate_singleton]
      exact hentry

end Tokens

namespace Expr

variable {base start stop : Nat} {text : List Char} {e : Expr} {es : List Expr}

/-- an expression below the top is not a list -/
theorem Sound.entries_eq (h : e.Sound base text) : e.entries = [e] := by
  obtain ⟨h, -⟩ := h
  cases e with
  | list s entries => exact h.elim
  | text | property | item | metadata | call | concat => rfl

theorem entries_ofEntries (start stop : Nat) (h : ∀ e ∈ es, e.Sound base text) :
    (ofEntries start stop es).entries = es := by
  match es with
  | [] =>
    rw [ofEntries_nil]
    rfl
  | [entry] =>
    rw [ofEntries_singleton]
    exact (h entry List.mem_cons_self).entries_eq
  | first :: second :: entries =>
    rw [ofEntries_cons_cons]
    rfl

theorem span_ofEntries (h : Separated base text start stop es) :
    (ofEntries start stop es).span = ⟨start, stop⟩ := by
  match es with
  | [] => exact h.elim
  | [entry] =>
    rw [ofEntries_singleton]
    exact h
  | first :: second :: entries =>
    rw [ofEntries_cons_cons]
    rfl

/-- one entry alone makes no list, and there is at least one -/
theorem two_le_of_ofEntries {s : Span} {es' : List Expr} (hs : ∀ e ∈ es, e.Sound base text)
    (h : Separated base text start stop es) (hl : ofEntries start stop es = .list s es') :
    2 ≤ es'.length := by
  match es with
  | [] => exact h.elim
  | [entry] =>
    obtain ⟨hn, -⟩ := hs entry List.mem_cons_self
    rw [ofEntries_singleton] at hl
    subst hl
    exact hn.elim
  | first :: second :: entries =>
    rw [ofEntries_cons_cons] at hl
    obtain ⟨-, rfl⟩ := Expr.list.inj hl
    simp

/-- whatever a text holds, reading it loses nothing and gives a normal form -/
theorem normal_parse (text : String) (base : Nat) :
    (Expr.parse text base).NormalForm base text.toList := by
  have hin := Tokens.in_lex text.toList base
  have h := Tokens.reads_entries _ hin
  have hwhole := hin.within h.leads
  have hsep := h.separated
  have hjoined := h.joined
  have hpos := h.pos
  rw [parse]
  generalize Tokens.entries ⟨base, Token.lex text.toList⟩ = found at *
  have hentries := entries_ofEntries base found.2.pos h.sound
  have hspan := span_ofEntries hsep
  constructor
  · rw [hentries]
    exact h.sound
  · intro s es hlist
    refine ⟨two_le_of_ofEntries h.sound hsep hlist, ?_⟩
    rw [hlist] at hspan
    exact hpos ▸ hspan
  · rw [hspan]
    exact hwhole
  · rw [hentries, ← hpos]
    exact hsep
  · rw [hentries]
    have hrest := hjoined.rest
    have hw := hjoined.pos
    change Token.texts (Token.lex text.toList) = _ at hrest
    change found.2.pos = base + _ at hw
    rw [Token.texts_lex] at hrest
    have hnil : found.2.cursor.rest = [] := by
      have := congrArg Text.width hrest
      rw [Text.width_append] at this
      exact Text.width_eq_zero.1 (by omega)
    rw [hnil, List.append_nil] at hrest
    exact hrest.symm

end Expr
end ProjectSense
