import ProjectSense.Proofs.Text.Place
import ProjectSense.Proofs.Expr.Lexing
import ProjectSense.Expr.Parser

/-!
# What reading an expression takes

Every step passes some tokens, and their texts are the part of the text that was passed.

* `Token.text_of_semicolon`: a semicolon token is the one character.
* `Tokens.In.holds`: what was passed stands between the positions before and after.
* `Tokens.leads_property`, `Tokens.leads_metadata`, `Tokens.leads_itemCall`: references.
-/

namespace ProjectSense

namespace Token

theorem text_of_semicolon {t : Token} {cs : List Char} (h : t ∈ lex cs)
    (hk : t.kind = .semicolon) : t.text = [';'] := by
  have hformed := formed_of_mem_lex h
  rw [Formed, hk] at hformed
  exact hformed

end Token

namespace Tokens

open Text (width)

variable {ts us vs : Tokens} {taken more : List Token} {base : Nat} {text : List Char}

/-! ### Reading on -/

/-- the place of the first token in the text -/
def cursor (ts : Tokens) : Cursor := ⟨ts.pos, Token.texts ts.rest⟩

/-- passing the tokens `taken` leads from `ts` to `us` -/
structure Passes (ts : Tokens) (taken : List Token) (us : Tokens) : Prop where
  rest : ts.rest = taken ++ us.rest
  pos : us.pos = ts.pos + width (Token.texts taken)

/-- reading on leads from `ts` to `us` -/
def Leads (ts us : Tokens) : Prop := ∃ taken, ts.Passes taken us

/-- the tokens stand in the text that begins at `base`, as the lexer gives them -/
structure In (base : Nat) (text : List Char) (ts : Tokens) : Prop where
  cursor : ts.cursor.In base text
  lexed : ∀ t ∈ ts.rest, t.text ≠ [] ∧ (t.kind = .semicolon → t.text = [';'])

theorem Passes.refl (ts : Tokens) : ts.Passes [] ts := ⟨rfl, rfl⟩

theorem Passes.trans (h : ts.Passes taken us) (g : us.Passes more vs) :
    ts.Passes (taken ++ more) vs := by
  constructor
  · rw [h.rest, g.rest, List.append_assoc]
  · rw [g.pos, h.pos, Token.texts_append, Text.width_append, Nat.add_assoc]

theorem Passes.leads (h : ts.Passes taken us) : ts.Leads us := ⟨taken, h⟩

theorem Passes.cursor (h : ts.Passes taken us) :
    ts.cursor.Passes (Token.texts taken) us.cursor := by
  refine ⟨?_, h.pos⟩
  change Token.texts ts.rest = _
  rw [h.rest, Token.texts_append]
  rfl

theorem Leads.refl (ts : Tokens) : ts.Leads ts := ⟨[], .refl ts⟩

theorem Leads.trans (h : ts.Leads us) (g : us.Leads vs) : ts.Leads vs := by
  obtain ⟨taken, h⟩ := h
  obtain ⟨more, g⟩ := g
  exact ⟨_, h.trans g⟩

theorem Leads.cursor (h : ts.Leads us) : ts.cursor.Leads us.cursor := by
  obtain ⟨taken, h⟩ := h
  exact h.cursor.leads

theorem Leads.le (h : ts.Leads us) : ts.pos ≤ us.pos := h.cursor.le

theorem In.leads (h : ts.In base text) (g : ts.Leads us) : us.In base text := by
  refine ⟨h.cursor.leads g.cursor, fun t ht => h.lexed t ?_⟩
  obtain ⟨taken, g⟩ := g
  rw [g.rest]
  exact List.mem_append_right taken ht

theorem In.within (h : ts.In base text) (g : ts.Leads us) :
    (⟨ts.pos, us.pos⟩ : Span).Within base text := h.cursor.within g.cursor

theorem In.holds (h : ts.In base text) (g : ts.Passes taken us) :
    (⟨ts.pos, us.pos⟩ : Span).Holds base text (Token.texts taken) := h.cursor.holds g.cursor

theorem in_lex (text : List Char) (base : Nat) :
    (⟨base, Token.lex text⟩ : Tokens).In base text := by
  refine ⟨?_, fun t ht => ⟨Token.text_ne_nil_of_mem_lex ht, Token.text_of_semicolon ht⟩⟩
  rw [cursor, Token.texts_lex]
  exact .refl _

/-! ### Steps -/

theorem passes_advance (ts : Tokens) : ts.Passes (ts.rest.take 1) ts.advance :=
  ⟨(List.take_append_drop 1 ts.rest).symm, rfl⟩

theorem leads_advance (ts : Tokens) : ts.Leads ts.advance := (passes_advance ts).leads

theorem passes_takeWhile (p : TokenKind → Bool) (ts : Tokens) :
    ts.Passes (ts.rest.takeWhile (p ·.kind)) (ts.takeWhile p).2 :=
  ⟨List.takeWhile_append_dropWhile.symm, rfl⟩

theorem leads_takeWhile (p : TokenKind → Bool) (ts : Tokens) : ts.Leads (ts.takeWhile p).2 :=
  (passes_takeWhile p ts).leads

theorem kind?_takeWhile {p : TokenKind → Bool} {ts : Tokens} {k : TokenKind}
    (h : (ts.takeWhile p).2.kind? = some k) : p k = false := by
  obtain ⟨t, ht, rfl⟩ := Option.map_eq_some_iff.1 h
  have := List.head?_dropWhile_not (p ·.kind) ts.rest
  rw [show (ts.rest.dropWhile (p ·.kind)).head? = some t from ht] at this
  simpa using this

theorem leads_skipBlanks (ts : Tokens) : ts.Leads ts.skipBlanks := leads_takeWhile _ ts

theorem leads_eat (kind : TokenKind) (ts : Tokens) : ts.Leads (ts.eat kind) := by
  unfold eat
  split
  · exact leads_advance ts
  · exact .refl ts

theorem leads_word (ts : Tokens) : ts.Leads ts.word.2 := by
  unfold word
  split
  · exact leads_advance ts
  · exact .refl ts

theorem leads_closeIn (depth : Nat) (quoted : Bool) (pos : Nat) (rest : List Token) :
    (⟨pos, rest⟩ : Tokens).Leads (closeIn depth quoted pos rest).2 := by
  induction rest generalizing depth quoted pos with
  | nil => exact .refl _
  | cons t rest ih =>
    have hstep : (⟨pos, t :: rest⟩ : Tokens).Leads ⟨pos + width t.text, rest⟩ :=
      ⟨[t], rfl, by simp⟩
    rw [closeIn]
    split
    · exact hstep.trans (ih ..)
    · split
      case h_5 =>
        split
        · exact hstep
        · exact hstep.trans (ih ..)
      all_goals exact hstep.trans (ih ..)

theorem leads_close (ts : Tokens) : ts.Leads ts.close.2 := leads_closeIn 0 false ts.pos ts.rest

/-! ### References -/

theorem leads_staticCall (start : Nat) (ts : Tokens) : ts.Leads (staticCall start ts).2 := by
  have h := (leads_takeWhile (fun k => k = .ident || k = .dot) ts).trans
    (leads_eat .rightBracket _)
  simp only [staticCall]
  refine Leads.trans ?_ (leads_close _)
  split
  · exact h.trans ((leads_advance _).trans (leads_word _))
  · exact h

theorem leads_property (start : Nat) (ts : Tokens) : ts.Leads (property start ts).2 := by
  have h := leads_skipBlanks ts
  simp only [property]
  split
  · exact h.trans ((leads_advance _).trans (leads_staticCall _ _))
  split
  · have h2 := h.trans ((leads_word _).trans (leads_skipBlanks _))
    split
    · exact h2.trans ((leads_advance _).trans ((leads_word _).trans (leads_close _)))
    · exact h2.trans (leads_close _)
  · exact h.trans (leads_close _)

theorem leads_metadata (start : Nat) (ts : Tokens) : ts.Leads (metadata start ts).2 := by
  have h := (leads_skipBlanks ts).trans (leads_word _)
  simp only [metadata]
  split
  · exact h.trans ((leads_advance _).trans ((leads_word _).trans
      ((leads_skipBlanks _).trans (leads_close _))))
  · exact h.trans ((leads_skipBlanks _).trans (leads_close _))

theorem leads_itemCall (item : Word) (ts : Tokens) : ts.Leads (itemCall item ts).2 := by
  have h := leads_word ts
  simp only [itemCall]
  split
  · exact h.trans ((leads_advance _).trans (leads_close _))
  · exact h

theorem leads_separator (ts : Tokens) : ts.Leads (separator ts).2 := by
  have h := leads_skipBlanks ts
  simp only [separator]
  split
  · exact h.trans ((leads_advance _).trans ((leads_takeWhile _ _).trans (leads_eat _ _)))
  · exact h

end Tokens
end ProjectSense
