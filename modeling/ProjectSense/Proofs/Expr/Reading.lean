import ProjectSense.Proofs.Expr.Normal

/-!
# What is read off the front of a text

A reader that has the tokens of a text takes those of its front and is left with the tokens of what
follows.

* `Tokens.word_ofText`, `Tokens.close_ofText`: a name, and what a closing parenthesis ends.
* `Tokens.parts_run`: a run of literal text.
* `Expr.parse_literal`: a text without openers and `;` is one literal.
-/

namespace ProjectSense

namespace Token

/-! ### Parentheses that match -/

/-- the parentheses match, with `depth` open in front; those in single quotes do not count, and
`quoted` tells that a quote is open in front -/
def balanced (depth : Nat) (quoted : Bool) : List Char → Bool
  | [] => depth = 0 && !quoted
  | c :: cs =>
    if c = '\'' then balanced depth (!quoted) cs
    else if quoted then balanced depth quoted cs
    else if c = '(' then balanced (depth + 1) quoted cs
    else if c = ')' then depth ≠ 0 && balanced (depth - 1) quoted cs
    else balanced depth quoted cs

variable {cs rest : List Char} {depth : Nat} {quoted : Bool}

/-- nothing but quotes and parentheses counts -/
theorem balanced_append_of_not_sign (h : ∀ c ∈ cs, isSign c = false) :
    balanced depth quoted (cs ++ rest) = balanced depth quoted rest := by
  induction cs with
  | nil => rfl
  | cons c cs ih =>
    obtain ⟨hc, hcs⟩ := List.forall_mem_cons.1 h
    have h1 : c ≠ '\'' := by rintro rfl; cases hc
    have h2 : c ≠ '(' := by rintro rfl; cases hc
    have h3 : c ≠ ')' := by rintro rfl; cases hc
    rw [List.cons_append, balanced, if_neg h1, if_neg h2, if_neg h3, ite_self, ih hcs]

/-- a text that is balanced is so in front of a closing parenthesis -/
theorem balanced_paren (h : balanced depth quoted cs = true) :
    balanced (depth + 1) quoted (cs ++ [')']) = true := by
  fun_induction balanced depth quoted cs with
  | case1 depth quoted =>
    simp only [Bool.and_eq_true, decide_eq_true_eq, Bool.not_eq_true'] at h
    obtain ⟨rfl, rfl⟩ := h
    rfl
  | case2 depth quoted cs ih => simpa [balanced] using ih h
  | case3 depth c cs h1 ih => simpa [balanced, h1] using ih h
  | case4 depth quoted cs hq h1 ih => simpa [balanced, hq] using ih h
  | case5 depth quoted cs hq h1 h2 ih =>
    simp only [Bool.and_eq_true, decide_eq_true_eq] at h
    obtain ⟨h3, h4⟩ := h
    have := ih h4
    rw [Nat.sub_add_cancel (Nat.pos_of_ne_zero h3)] at this
    simpa [balanced, hq] using this
  | case6 depth quoted c cs h1 hq h2 h3 ih => simpa [balanced, h1, hq, h2, h3] using ih h

/-- a text in parentheses -/
theorem balanced_enclosed (h : balanced 0 false cs = true) :
    balanced 0 false ('(' :: (cs ++ [')'])) = true := by
  simpa [balanced] using balanced_paren h

end Token

namespace Tokens

open Text (width)
open Token (Formed IsIdent balanced lex)

variable {ts : Tokens} {pos depth : Nat} {quoted : Bool} {stop k : TokenKind}
  {s cs name text rest : List Char}

/-- the tokens of a text that begins at `pos` -/
def ofText (pos : Nat) (cs : List Char) : Tokens := ⟨pos, lex cs⟩

@[simp] theorem pos_ofText (pos : Nat) (cs : List Char) : (ofText pos cs).pos = pos := rfl

/-! ### What a closing parenthesis ends -/

/-- what a token does to the parentheses and quotes that are open, its characters do -/
theorem closeIn_cons {t : Token} (ht : t.Formed)
    (h : balanced depth quoted (t.text ++ cs) = true) :
    ∃ depth' quoted', balanced depth' quoted' cs = true ∧
      ∀ n pos rest, closeIn (n + depth) quoted pos (t :: rest) =
        closeIn (n + depth') quoted' (pos + width t.text) rest := by
  obtain ⟨k, text⟩ := t
  cases quoted with
  | true =>
    cases k with
    | quote =>
      obtain rfl : text = ['\''] := ht
      exact ⟨depth, false, h, fun n pos rest => rfl⟩
    | ident | blank | plain | stray =>
      exact ⟨depth, true, (Token.balanced_append_of_not_sign ht) ▸ h, fun n pos rest => rfl⟩
    | _ =>
      obtain rfl : text = _ := ht
      exact ⟨depth, true, h, fun n pos rest => rfl⟩
  | false =>
    cases k with
    | rightParen =>
      obtain rfl : text = [')'] := ht
      have h' : (decide (depth ≠ 0) && balanced (depth - 1) false cs) = true := h
      simp only [Bool.and_eq_true, decide_eq_true_eq] at h'
      refine ⟨depth - 1, false, h'.2, fun n pos rest => ?_⟩
      have hne : n + depth ≠ 0 := by omega
      have hsub : n + depth - 1 = n + (depth - 1) := by omega
      have hstep : closeIn (n + depth) false pos (⟨.rightParen, [')']⟩ :: rest) =
          if n + depth = 0 then (true, ⟨pos + width [')'], rest⟩)
          else closeIn (n + depth - 1) false (pos + width [')']) rest := rfl
      exact hstep.trans ((if_neg hne).trans (by rw [hsub]))
    | ident | blank | plain | stray =>
      exact ⟨depth, false, (Token.balanced_append_of_not_sign ht) ▸ h, fun n pos rest => rfl⟩
    | propertyOpen | itemOpen | metadataOpen | leftParen =>
      obtain rfl : text = _ := ht
      exact ⟨depth + 1, false, h, fun n pos rest => rfl⟩
    | quote =>
      obtain rfl : text = ['\''] := ht
      exact ⟨depth, true, h, fun n pos rest => rfl⟩
    | _ =>
      obtain rfl : text = _ := ht
      exact ⟨depth, false, h, fun n pos rest => rfl⟩

/-- text whose parentheses match is passed whole -/
theorem closeIn_balanced {run rest : List Token} (hrun : ∀ t ∈ run, t.Formed) (n pos : Nat)
    (h : balanced depth quoted (Token.texts run) = true) :
    closeIn (n + depth) quoted pos (run ++ rest) =
      closeIn n false (pos + width (Token.texts run)) rest := by
  induction run generalizing depth quoted pos with
  | nil =>
    obtain ⟨rfl, rfl⟩ : depth = 0 ∧ quoted = false := by simpa [balanced] using h
    rfl
  | cons t run ih =>
    obtain ⟨ht, hrun⟩ := List.forall_mem_cons.1 hrun
    obtain ⟨depth', quoted', h1, h2⟩ := closeIn_cons ht h
    rw [List.cons_append, h2, ih hrun _ h1, Token.texts_cons, Text.width_append, Nat.add_assoc]

/-! ### The front of a text -/

theorem kind?_ofText (h : k.spelling? = some s) (pos : Nat) (rest : List Char) :
    (ofText pos (s ++ rest)).kind? = some k := by
  rw [ofText, Token.lex_spelled h]
  rfl

theorem advance_ofText (h : k.spelling? = some s) (pos : Nat) (rest : List Char) :
    (ofText pos (s ++ rest)).advance = ofText (pos + width s) rest := by
  rw [ofText, Token.lex_spelled h]
  simp [advance, ofText]

theorem kind?_ident (hn : IsIdent name) (hr : ∀ d ∈ rest.head?, Token.continuesName d = false)
    (pos : Nat) : (ofText pos (name ++ rest)).kind? = some .ident := by
  rw [ofText, Token.lex_ident hn hr]
  rfl

theorem word_ofText (hn : IsIdent name) (hr : ∀ d ∈ rest.head?, Token.continuesName d = false)
    (pos : Nat) : (ofText pos (name ++ rest)).word =
      (⟨String.ofList name, ⟨pos, pos + width name⟩⟩, ofText (pos + width name) rest) := by
  rw [ofText, Token.lex_ident hn hr]
  simp [word, advance, ofText]

theorem skipBlanks_of_kind? (h : ts.kind? ≠ some .blank) : ts.skipBlanks = ts := by
  obtain ⟨pos, tokens⟩ := ts
  cases tokens with
  | nil => rfl
  | cons t tokens =>
    have hk : t.kind ≠ .blank := fun hk => h (congrArg some hk)
    simp [skipBlanks, takeWhile, hk]

/-- the closing parenthesis after text whose own parentheses match -/
theorem close_ofText (h : balanced 0 false text = true) (pos : Nat) (rest : List Char) :
    (ofText pos (text ++ ')' :: rest)).close = (true, ofText (pos + width text + 1) rest) := by
  have hlex : lex (text ++ ')' :: rest) = lex text ++ ⟨.rightParen, [')']⟩ :: lex rest :=
    (Token.lex_append (forall_mem_head?_cons (by decide))).trans
      (congrArg (lex text ++ ·) (Token.lex_spelled (k := .rightParen) rfl rest))
  have hbal : balanced 0 false (Token.texts (lex text)) = true := by rwa [Token.texts_lex]
  rw [ofText, hlex, close]
  refine (closeIn_balanced (fun t ht => Token.formed_of_mem_lex ht) 0 pos hbal).trans ?_
  rw [Token.texts_lex]
  rfl

theorem close_rightParen (pos : Nat) (rest : List Char) :
    (ofText pos (')' :: rest)).close = (true, ofText (pos + 1) rest) := by
  have hnil : balanced 0 false [] = true := rfl
  exact close_ofText hnil pos rest

/-! ### Parts -/

/-- a part, and then those after it -/
theorem parts_cons {e : Expr} {after : Tokens} (hk : ts.kind? = some k) (hne : k ≠ stop)
    (hv : (part stop (some k) ts.pos (ts.rest.take 1) ts.advance).value = e)
    (ha : (part stop (some k) ts.pos (ts.rest.take 1) ts.advance).after = after) :
    (parts stop ts).value = e :: (parts stop after).value ∧
      (parts stop ts).after = (parts stop after).after := by
  have hgo : ¬(ts.kind? = none ∨ ts.kind? = some stop) := by
    rw [hk]
    rintro (h | h)
    · cases h
    · exact hne (Option.some.inj h)
  obtain ⟨h1, h2⟩ := parts_next hgo
  rw [hk, hv, ha] at h1
  rw [hk, ha] at h2
  exact ⟨h1, h2⟩

/-- tokens that neither end the reading nor open a reference are one literal -/
theorem parts_run {run rest : List Token} (hne : run ≠ [])
    (hrun : ∀ t ∈ run, t.kind ≠ stop ∧ t.kind.isOpener = false)
    (hrest : ∀ t ∈ rest.head?, t.kind = stop ∨ t.kind.isOpener = true) (pos : Nat) :
    (parts stop ⟨pos, run ++ rest⟩).value =
        .text ⟨pos, pos + width (Token.texts run)⟩ (String.ofList (Token.texts run)) ::
          (parts stop ⟨pos + width (Token.texts run), rest⟩).value ∧
      (parts stop ⟨pos, run ++ rest⟩).after =
        (parts stop ⟨pos + width (Token.texts run), rest⟩).after := by
  cases run with
  | nil => exact absurd rfl hne
  | cons t run =>
    obtain ⟨⟨hstop, hopen⟩, hrun⟩ := List.forall_mem_cons.1 hrun
    have hadvance : (⟨pos, t :: run ++ rest⟩ : Tokens).advance =
        ⟨pos + width t.text, run ++ rest⟩ := by simp [advance]
    have hall : ∀ u ∈ run, (decide (u.kind ≠ stop) && !u.kind.isOpener) = true := by
      intro u hu
      obtain ⟨h1, h2⟩ := hrun u hu
      simp [h1, h2]
    have hnone : rest.takeWhile (fun u => decide (u.kind ≠ stop) && !u.kind.isOpener) = [] ∧
        rest.dropWhile (fun u => decide (u.kind ≠ stop) && !u.kind.isOpener) = rest := by
      cases rest with
      | nil => exact ⟨rfl, rfl⟩
      | cons u rest => rcases hrest u rfl with h | h <;> simp [h]
    have htake : (⟨pos + width t.text, run ++ rest⟩ : Tokens).takeWhile
        (fun k => k ≠ stop && !k.isOpener) =
        (Token.texts run, ⟨pos + width t.text + width (Token.texts run), rest⟩) := by
      simp only [takeWhile, List.takeWhile_append_of_pos hall, List.dropWhile_append_of_pos hall,
        hnone, List.append_nil]
    have hnot : ∀ k' : TokenKind, k'.isOpener = true → some t.kind ≠ some k' := by
      rintro k' hk' heq
      rw [Option.some.inj heq, hk'] at hopen
      cases hopen
    obtain ⟨hv, ha⟩ := part_text stop pos ⟨pos + width t.text, run ++ rest⟩
      (hnot .propertyOpen rfl) (hnot .metadataOpen rfl) (hnot .itemOpen rfl) [t]
    rw [htake] at hv ha
    rw [Token.texts_cons, Text.width_append, ← Nat.add_assoc]
    have hkind : (⟨pos, t :: run ++ rest⟩ : Tokens).kind? = some t.kind := rfl
    refine parts_cons hkind hstop ?_ ?_
    · rw [hadvance]
      simpa using hv
    · rw [hadvance]
      exact ha

/-- the parts up to a token that ends them are the entry -/
theorem entries_last {last : Tokens} (ha : (parts .semicolon ts).after = last)
    (hk : last.kind? ≠ some .semicolon) :
    entries ts = ([Expr.ofParts ts.pos last.pos (parts .semicolon ts).value], last) := by
  subst ha
  rw [entries]
  exact dif_neg hk

theorem entries_more {last : Tokens} (ha : (parts .semicolon ts).after = last)
    (hk : last.kind? = some .semicolon) :
    entries ts = (Expr.ofParts ts.pos last.pos (parts .semicolon ts).value ::
      (entries last.advance).1, (entries last.advance).2) := by
  subst ha
  rw [entries]
  exact dif_pos hk

end Tokens

namespace Expr

open Text (width)

/-- what opens a reference -/
def openers : List (List Char) := [['$', '('], ['@', '('], ['%', '(']]

/-- a token that opens a reference is an opener -/
theorem text_mem_openers {t : Token} (ht : t.Formed) (hk : t.kind.isOpener = true) :
    t.text ∈ openers := by
  rw [Token.Formed] at ht
  cases hkind : t.kind with
  | propertyOpen | itemOpen | metadataOpen =>
    rw [hkind] at ht
    rw [ht]
    decide
  | _ =>
    rw [hkind] at hk
    cases hk

/-- the tokens of a text that holds no opener open nothing -/
theorem isOpener_of_mem_lex {text : List Char} (h : ∀ opener ∈ openers, ¬opener <:+: text)
    {t : Token} (ht : t ∈ Token.lex text) : t.kind.isOpener = false :=
  Bool.eq_false_iff.2 fun hk =>
    h t.text (text_mem_openers (Token.formed_of_mem_lex ht) hk) (Token.infix_of_mem_lex ht)

/-- text that opens no reference and holds no `;` is one literal -/
theorem parse_literal {text : String} (h : ∀ t ∈ Token.lex text.toList,
    t.kind ≠ .semicolon ∧ t.kind.isOpener = false) (base : Nat) :
    parse text base = .text ⟨base, base + width text.toList⟩ text := by
  have htexts := Token.texts_lex text.toList
  generalize hrun : Token.lex text.toList = run at *
  have hend : ∀ pos, (Tokens.parts .semicolon ⟨pos, []⟩).value = [] ∧
      (Tokens.parts .semicolon ⟨pos, []⟩).after = ⟨pos, []⟩ := fun pos =>
    Tokens.parts_stop (Or.inl rfl)
  have hnone : ∀ pos, (⟨pos, []⟩ : Tokens).kind? ≠ some .semicolon := by
    rintro pos ⟨⟩
  rw [parse, hrun]
  by_cases hne : run = []
  · subst hne
    obtain rfl : text = "" := String.toList_inj.1 htexts.symm
    obtain ⟨hv, ha⟩ := hend base
    rw [Tokens.entries_last ha (hnone base), hv]
    rfl
  · have hrest : ∀ t ∈ ([] : List Token).head?, t.kind = .semicolon ∨ t.kind.isOpener = true := by
      simp
    obtain ⟨hv, ha⟩ := Tokens.parts_run hne h hrest base
    obtain ⟨hv', ha'⟩ := hend (base + width (Token.texts run))
    rw [List.append_nil, hv'] at hv
    rw [List.append_nil, ha'] at ha
    rw [Tokens.entries_last ha (hnone _), hv, htexts, String.ofList_toList]
    rfl

end Expr
end ProjectSense
