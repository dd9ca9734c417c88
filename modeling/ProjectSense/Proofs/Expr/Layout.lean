import ProjectSense.Proofs.Expr.Nodes

/-!
# How nodes lie in an expression

Every node lies inside the one around it, nodes side by side follow one another, and there is no
place in a sequence that none of its nodes touches.  A reference that is complete ends in its
parenthesis, after all that is in it; one that is not goes on to the end of the text.

* `Expr.Spread.ordered`, `Expr.Spread.touched`: nodes that follow one another.
* `Tokens.closeIn_found`, `Tokens.closeIn_missed`: the closing parenthesis.
* `Expr.laid_parse`: all nodes of an expression.
-/

namespace ProjectSense

open Text (width)

namespace Expr

/-- tells of a reference whether its closing parenthesis is there -/
def complete? : Expr → Option Bool
  | .property _ _ complete | .item _ _ _ _ complete | .metadata _ _ _ complete => some complete
  | _ => none

/-- nodes side by side: parts, or entries -/
def isSequence : Expr → Bool
  | .concat .. | .list .. => true
  | _ => false

/-- where the node begins and ends -/
structure Delimited (base : Nat) (text : List Char) (e : Expr) : Prop where
  wide : e.isSequence = false → e.isText = false → e.span.start < e.span.stop
  closed : e.complete? = some true → ∃ inside, e.span.Holds base text (inside ++ [')'])
  unclosed : e.complete? = some false → e.span.stop = base + width text
  before : e.isSequence = false → ∀ c ∈ e.children, e.span.start < c.span.start
  after : e.complete? = some true → ∀ c ∈ e.children, c.span.stop < e.span.stop

/-- where the node begins and ends, and how its children lie in it -/
structure Laid (base : Nat) (text : List Char) (e : Expr) : Prop
    extends Delimited base text e where
  within : e.span.Within base text
  inside : ∀ c ∈ e.children, e.span.start ≤ c.span.start ∧ c.span.stop ≤ e.span.stop
  ordered : e.children.Pairwise fun a b => a.span.stop ≤ b.span.start
  filled : e.isSequence = true → ∀ offset, e.span.touches offset = true →
    ∃ c ∈ e.children, c.span.touches offset = true
  parts : ∀ s ps, e = .concat s ps → ∀ p ∈ ps, p.isPart = true ∧ p.span.start < p.span.stop

variable {base start stop offset gap : Nat} {text : List Char} {e : Expr} {es : List Expr}

/-! ### Nodes that follow one another -/

/-- the expressions follow one another from `start` to `stop`, with `gap` between two of them -/
inductive Spread (gap : Nat) : Nat → Nat → List Expr → Prop
  | last {start stop : Nat} {e : Expr} (h : e.span = ⟨start, stop⟩) : Spread gap start stop [e]
  | next {start stop : Nat} {e : Expr} {es : List Expr} (h : e.span.start = start)
    (hs : Spread gap (e.span.stop + gap) stop es) : Spread gap start stop (e :: es)

theorem Tile.spread (h : Tile start stop es) (hne : es ≠ []) : Spread 0 start stop es := by
  induction es generalizing start with
  | nil => exact absurd rfl hne
  | cons e es ih =>
    obtain ⟨rfl, hrest⟩ := h
    cases es with
    | nil =>
      obtain rfl : e.span.stop = stop := hrest
      exact .last rfl
    | cons f es => exact .next rfl (ih hrest (by simp))

theorem Separated.spread (h : Separated base text start stop es) : Spread 1 start stop es := by
  induction es generalizing start with
  | nil => exact h.elim
  | cons e es ih =>
    cases es with
    | nil => exact .last h
    | cons f es =>
      obtain ⟨hstart, -, hrest⟩ := h
      exact .next hstart (ih hrest)

theorem Spread.inside (hv : ∀ e ∈ es, e.span.start ≤ e.span.stop) (h : Spread gap start stop es) :
    start ≤ stop ∧ ∀ e ∈ es, start ≤ e.span.start ∧ e.span.stop ≤ stop := by
  induction h with
  | @last start stop e h =>
    have hle := hv e List.mem_cons_self
    rw [h] at hle
    exact ⟨hle, List.forall_mem_singleton.2 (by rw [h]; exact ⟨Nat.le_refl _, Nat.le_refl _⟩)⟩
  | @next start stop e es h hs ih =>
    obtain ⟨hfirst, hrest⟩ := List.forall_mem_cons.1 hv
    obtain ⟨hle, hes⟩ := ih hrest
    refine ⟨by omega, List.forall_mem_cons.2 ⟨by omega, fun f hf => ?_⟩⟩
    have := hes f hf
    omega

theorem Spread.ordered (hv : ∀ e ∈ es, e.span.start ≤ e.span.stop) (h : Spread gap start stop es) :
    es.Pairwise fun a b => a.span.stop + gap ≤ b.span.start := by
  induction h with
  | last h => exact List.pairwise_singleton _ _
  | next h hs ih =>
    obtain ⟨-, hrest⟩ := List.forall_mem_cons.1 hv
    exact List.pairwise_cons.2 ⟨fun f hf => ((hs.inside hrest).2 f hf).1, ih hrest⟩

/-- an offset in a gap of one byte is on one end of it -/
theorem Spread.touched (hgap : gap ≤ 1) (h : Spread gap start stop es) (h1 : start ≤ offset)
    (h2 : offset ≤ stop) : ∃ e ∈ es, e.span.touches offset = true := by
  induction h with
  | @last start stop e h =>
    refine ⟨e, List.mem_cons_self, ?_⟩
    rw [h]
    exact Span.touches_iff.2 ⟨h1, h2⟩
  | @next start stop e es h hs ih =>
    by_cases hin : offset ≤ e.span.stop
    · exact ⟨e, List.mem_cons_self, Span.touches_iff.2 ⟨by omega, hin⟩⟩
    · obtain ⟨f, hf, ht⟩ := ih (by omega) h2
      exact ⟨f, List.mem_cons_of_mem _ hf, ht⟩

end Expr

namespace Tokens

open ProjectSense.Expr (Delimited)

variable {ts us vs : Tokens} {base depth pos start : Nat} {quoted complete : Bool}
  {text : List Char} {head taken rest : List Token}

/-! ### Closing parentheses -/

/-- looking for a closing parenthesis leads past it, or to the end if there is none -/
inductive Closes (ts : Tokens) : Bool × Tokens → Prop
  | found {us : Tokens} {taken : List Token} {paren : Token} (hk : paren.kind = .rightParen)
    (hp : ts.Passes (taken ++ [paren]) us) : Closes ts (true, us)
  | missed {us : Tokens} (hl : ts.Leads us) (he : us.rest = []) : Closes ts (false, us)

theorem Closes.later {closed : Bool × Tokens} (h : ts.Leads us) (g : us.Closes closed) :
    ts.Closes closed := by
  obtain ⟨taken, h⟩ := h
  cases g with
  | found hk hp =>
    have hall := h.trans hp
    rw [← List.append_assoc] at hall
    exact .found hk hall
  | missed hl he => exact .missed (h.leads.trans hl) he

theorem Closes.leads {closed : Bool × Tokens} (h : ts.Closes closed) : ts.Leads closed.2 := by
  cases h with
  | found hk hp => exact hp.leads
  | missed hl he => exact hl

theorem closes_closeIn (depth : Nat) (quoted : Bool) (pos : Nat) (rest : List Token) :
    (⟨pos, rest⟩ : Tokens).Closes (closeIn depth quoted pos rest) := by
  have hstep : ∀ pos t rest, (⟨pos, t :: rest⟩ : Tokens).Passes [t] ⟨pos + width t.text, rest⟩ :=
    fun pos t rest => ⟨rfl, by simp⟩
  fun_induction closeIn depth quoted pos rest with
  | case1 => exact .missed (.refl _) rfl
  | case7 quoted pos t rest pos' hq hk =>
    exact @Closes.found _ _ [] t hk (hstep pos t rest)
  | case2 | case3 | case4 | case5 | case6 | case8 | case9 | case10 =>
    rename_i ih
    exact ih.later (hstep _ _ _).leads

theorem closes_close (ts : Tokens) : ts.Closes ts.close := closes_closeIn 0 false ts.pos ts.rest

/-- a closing parenthesis is one character -/
theorem text_of_rightParen {t : Token} (h : t ∈ Token.lex text) (hk : t.kind = .rightParen) :
    t.text = [')'] := by
  have hformed := Token.formed_of_mem_lex h
  rw [Token.Formed, hk] at hformed
  exact hformed

/-- what was opened at `ts` ends in its closing parenthesis -/
theorem Closes.holds (h : ts.Lexed base text) (g : ts.Closes (true, us)) :
    ∃ inside, (⟨ts.pos, us.pos⟩ : Span).Holds base text (inside ++ [')']) := by
  cases g with
  | @found _ taken paren hk hp =>
    have hmem : paren ∈ Token.lex text := h.mem paren (by rw [hp.rest]; simp)
    have hholds := h.toIn.holds hp
    rw [Token.texts_append, Token.texts_cons, text_of_rightParen hmem hk] at hholds
    exact ⟨_, hholds⟩

theorem Closes.lt (h : ts.Lexed base text) (g : ts.Closes (true, us)) : ts.pos < us.pos := by
  obtain ⟨inside, hholds⟩ := g.holds h
  obtain ⟨-, -, -, -, hstop⟩ := hholds.split
  have hwide : 0 < width (inside ++ [')']) := Text.width_pos (by simp)
  change us.pos = ts.pos + _ at hstop
  omega

/-- what was opened and not closed ends with the text -/
theorem Closes.stop (h : ts.Lexed base text) (g : ts.Closes (false, us)) :
    us.pos = base + width text := by
  cases g with
  | missed hl he =>
    refine (h.leads hl).toIn.end_pos ?_
    rw [kind?, he]
    rfl

/-! ### References -/

theorem Passes.lt (h : ts.Passes head us) (hne : Token.texts head ≠ []) : ts.pos < us.pos :=
  h.cursor.lt hne

theorem closes_property (start : Nat) (ts : Tokens)
    (h : (property start ts).1.complete? = some complete) :
    ts.Closes (complete, (property start ts).2) := by
  have hinner := leads_skipBlanks ts
  simp only [property] at h ⊢
  split at h
  · cases h
  · next h1 =>
    rw [if_neg h1]
    split at h
    · next h2 =>
      rw [if_pos h2]
      split at h
      · cases h
      · next h3 =>
        rw [if_neg h3]
        cases h
        exact (closes_close _).later (hinner.trans ((leads_word _).trans (leads_skipBlanks _)))
    · next h2 =>
      rw [if_neg h2]
      cases h
      exact (closes_close _).later hinner

theorem closes_metadata (start : Nat) (ts : Tokens)
    (h : (metadata start ts).1.complete? = some complete) :
    ts.Closes (complete, (metadata start ts).2) := by
  have hfirst := (leads_skipBlanks ts).trans (leads_word _)
  simp only [metadata] at h ⊢
  split at h
  · next h1 =>
    rw [if_pos h1]
    cases h
    exact (closes_close _).later (hfirst.trans ((leads_advance _).trans ((leads_word _).trans
      (leads_skipBlanks _))))
  · next h1 =>
    rw [if_neg h1]
    cases h
    exact (closes_close _).later (hfirst.trans (leads_skipBlanks _))

/-- a reference that was opened by `head` and holds no nodes -/
theorem delimited_leaf {e : Expr} (h : ts.Lexed base text) (hp : ts.Passes head us)
    (hne : Token.texts head ≠ []) (hl : e.isLeaf = true) (hr : us.Leads vs)
    (hs : e.span = ⟨ts.pos, vs.pos⟩)
    (hc : ∀ complete, e.complete? = some complete → us.Closes (complete, vs)) :
    Delimited base text e := by
  have hlt := hp.lt hne
  have hle := hr.le
  have hchildren : e.children = [] := by
    cases e with
    | property | metadata | call => rfl
    | text | item | concat | list => cases hl
  refine ⟨fun _ _ => ?_, fun hk => ?_, fun hk => ?_, ?_, ?_⟩
  · rw [hs]
    exact Nat.lt_of_lt_of_le hlt hle
  · rw [hs]
    exact ((hc true hk).later hp.leads).holds h
  · rw [hs]
    exact ((hc false hk).later hp.leads).stop h
  · simp [hchildren]
  · simp [hchildren]

/-- an item, whose transforms stand between its name and its closing parenthesis -/
theorem delimited_item {transforms : List Expr} (h : ts.Lexed base text) (hp : ts.Passes head us)
    (hne : Token.texts head ≠ [])
    (hr : ReadsLinks base text us.skipBlanks.word.2 transforms vs) (name : Word)
    (separator : Option String) : Delimited base text
      (.item ⟨ts.pos, vs.close.2.pos⟩ name transforms separator vs.close.1) := by
  have hlt := hp.lt hne
  have hname := (leads_skipBlanks us).trans (leads_word us.skipBlanks)
  have hleads := hp.leads.trans (hname.trans hr.leads)
  have hle1 := hname.le
  have hle2 := hr.leads.le
  have hle3 := (leads_close vs).le
  have hclose : ∀ complete, vs.close.1 = complete → vs.Closes (complete, vs.close.2) := by
    rintro _ rfl
    exact closes_close vs
  refine ⟨fun _ _ => ?_, fun hk => ?_, fun hk => ?_, fun _ t ht => ?_, fun hk t ht => ?_⟩
  · change ts.pos < vs.close.2.pos
    omega
  · exact ((hclose true (Option.some.inj hk)).later hleads).holds h
  · exact ((hclose false (Option.some.inj hk)).later hleads).stop h
  · have hstart := (hr.sound t ht).2.1
    change ts.pos < t.span.start
    omega
  · have hstop := (hr.sound t ht).2.2
    exact Nat.lt_of_le_of_lt hstop ((hclose true (Option.some.inj hk)).lt (h.leads hleads))

/-- a call on items begins with its name -/
theorem lt_itemCall (h : ts.In base text) (hk : ts.kind? = some .ident) (item : Word) :
    ts.pos < (itemCall item ts).2.pos := by
  have hlt := (passes_advance ts).lt (h.texts_head (by simp [hk]))
  have hword : ts.word.2 = ts.advance := by
    obtain ⟨pos, rest⟩ := ts
    cases rest with
    | nil => cases hk
    | cons t rest =>
      obtain ⟨kind, text⟩ := t
      obtain rfl : kind = .ident := Option.some.inj hk
      rfl
  have hle : ts.word.2.pos ≤ (itemCall item ts).2.pos := by
    simp only [itemCall]
    split
    · exact ((leads_advance _).trans (leads_close _)).le
    · exact Nat.le_refl _
  rw [hword] at hle
  omega

/-- every node that is read is delimited -/
theorem makes_delimited (base : Nat) (text : List Char) :
    Makes base text (Delimited base text) where
  literal _ := ⟨by simp [Expr.isText], nofun, nofun, fun _ _ => nofun, nofun⟩
  property h hp hne := by
    obtain ⟨hl, hs⟩ := span_property _ _
    exact delimited_leaf h hp hne hl (leads_property _ _) hs fun _ => closes_property _ _
  metadata h hp hne := by
    obtain ⟨hl, hs⟩ := span_metadata _ _
    exact delimited_leaf h hp hne hl (leads_metadata _ _) hs fun _ => closes_metadata _ _
  call {named target} _ h hk := by
    have hlt := lt_itemCall h.toIn hk named.word.1
    exact ⟨fun _ _ => hlt, nofun, nofun, fun _ _ => nofun, nofun⟩
  item h hp hne hr := delimited_item h hp hne hr _ _
  concat _ := ⟨nofun, nofun, nofun, nofun, nofun⟩

end Tokens
namespace Expr

variable {base : Nat} {text : List Char} {e : Expr}

/-! ### All nodes -/

theorem Sound.valid (h : e.Sound base text) : e.span.start ≤ e.span.stop := h.within.le

/-- a part of a concatenation takes a character at least -/
theorem wide_of_isPart (h : e.Sound base text) (hd : Delimited base text e)
    (hp : e.isPart = true) : e.span.start < e.span.stop := by
  cases e with
  | text s raw =>
    obtain ⟨hholds, -⟩ := h
    obtain ⟨-, -, -, -, hstop⟩ := Span.Holds.split hholds
    have hne : raw.toList ≠ [] := by
      intro hnil
      exact of_decide_eq_true hp (String.toList_injective hnil)
    have := Text.width_pos hne
    change s.start < s.stop
    omega
  | property | item | metadata | call => exact hd.wide rfl rfl
  | concat | list => cases hp

theorem laid_concat {s : Span} {parts : List Expr} (h : (Expr.concat s parts).Sound base text)
    (hd : (Expr.concat s parts).All (Delimited base text)) :
    Laid base text (.concat s parts) := by
  have hwithin := h.within
  obtain ⟨⟨-, htwo, hpart, -, htile⟩, hsound⟩ := h
  have hne : parts ≠ [] := by
    rintro rfl
    exact absurd htwo (by decide)
  have hspread := htile.spread hne
  have hvalid : ∀ p ∈ parts, p.span.start ≤ p.span.stop := fun p hp => (hsound p hp).valid
  refine ⟨hd.head, hwithin, (hspread.inside hvalid).2, hspread.ordered hvalid, ?_, ?_⟩
  · intro _ offset ht
    obtain ⟨h1, h2⟩ := Span.touches_iff.1 ht
    exact hspread.touched (Nat.zero_le 1) h1 h2
  · rintro _ _ ⟨⟩ p hp
    exact ⟨hpart p hp, wide_of_isPart (hsound p hp) (hd.children p hp).head (hpart p hp)⟩

theorem laid_of_sound (h : e.Sound base text) (hd : e.All (Delimited base text)) :
    e.All (Laid base text) := by
  induction h with
  | @intro e hn hc ih =>
    refine ⟨?_, fun c hmem => ih c hmem (hd.children c hmem)⟩
    have hwithin := Sound.within ⟨hn, hc⟩
    cases e with
    | text | property | metadata | call =>
      exact ⟨hd.head, hwithin, nofun, .nil, nofun, nofun⟩
    | item s name transforms separator complete =>
      exact ⟨hd.head, hwithin, hn.2.1, hn.2.2, nofun, nofun⟩
    | concat s parts => exact laid_concat ⟨hn, hc⟩ hd
    | list s entries => exact hn.elim

/-- the entries of an expression stand one `;` apart -/
theorem spread_parse (text : String) (base : Nat) :
    Spread 1 base (base + width text.toList) (parse text base).entries ∧
      ∀ entry ∈ (parse text base).entries, entry.span.start ≤ entry.span.stop := by
  have hnormal := normal_parse text base
  exact ⟨hnormal.separated.spread, fun entry hmem => (hnormal.sound entry hmem).valid⟩

/-- every node of an expression lies as it should -/
theorem laid_parse (text : String) (base : Nat) :
    (parse text base).All (Laid base text.toList) := by
  have hnormal := normal_parse text base
  have hentries : ∀ entry ∈ (parse text base).entries, entry.All (Laid base text.toList) :=
    fun entry hmem => laid_of_sound (hnormal.sound entry hmem)
      (all_parse (Tokens.makes_delimited base text.toList) entry hmem)
  obtain ⟨hspread, hvalid⟩ := spread_parse text base
  have hlist := hnormal.list
  have hwithin := hnormal.within
  generalize parse text base = e at *
  cases e with
  | list s es =>
    obtain ⟨-, rfl⟩ := hlist s es rfl
    refine ⟨⟨⟨nofun, nofun, nofun, nofun, nofun⟩, hwithin, (hspread.inside hvalid).2, ?_, ?_,
      nofun⟩, hentries⟩
    · exact (hspread.ordered hvalid).imp fun h => Nat.le_of_succ_le h
    · intro _ offset ht
      obtain ⟨h1, h2⟩ := Span.touches_iff.1 ht
      exact hspread.touched (Nat.le_refl 1) h1 h2
  | text | property | item | metadata | call | concat => exact hentries _ List.mem_cons_self

/-- what is in a node lies inside it -/
theorem All.inside {n : Expr} {path : List Nat} (h : e.All (Laid base text))
    (hn : e.nodeAt? path = some n) : e.span.start ≤ n.span.start ∧ n.span.stop ≤ e.span.stop := by
  induction path generalizing e with
  | nil =>
    obtain rfl := Option.some.inj hn
    exact ⟨Nat.le_refl _, Nat.le_refl _⟩
  | cons place path ih =>
    obtain ⟨child, hchild, hn⟩ := nodeAt?_cons.1 hn
    have hmem := List.mem_of_getElem? hchild
    obtain ⟨h1, h2⟩ := h.head.inside child hmem
    obtain ⟨h3, h4⟩ := ih (h.children child hmem) hn
    exact ⟨Nat.le_trans h1 h3, Nat.le_trans h4 h2⟩

end Expr
end ProjectSense
