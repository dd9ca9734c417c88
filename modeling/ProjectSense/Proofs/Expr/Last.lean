import ProjectSense.Proofs.Expr.Open

/-!
# The last entry

What ends an expression is read from tokens of its own.  If its text begins no reference, the entry
is that text, whatever stands in the entries before it.

* `Tokens.entries_last_of`: the last entry and the tokens it is read from.
* `Expr.exists_last_tokens`: these are the tokens of its text.
* `Expr.lastEntry_plain`: a last entry without `$`, `@` and `%`, and what is found at its end.
-/

namespace ProjectSense

open Text (width)

namespace Token

variable {t : Token}

/-- a token that opens a reference has the sign of one -/
theorem mem_of_isOpener (ht : t.Formed) (hk : t.kind.isOpener = true) :
    ∃ c ∈ t.text, c ∈ ['$', '@', '%'] := by
  have hsign : ∀ opener ∈ Expr.openers, ∃ c ∈ opener, c ∈ ['$', '@', '%'] := by
    simp [Expr.openers]
  exact hsign t.text (Expr.text_mem_openers ht hk)

/-- a `;` is a token of its own -/
theorem semicolon_not_mem (ht : t.Formed) (hk : t.kind ≠ .semicolon) : ';' ∉ t.text := by
  rw [Formed] at ht
  cases hkind : t.kind with
  | semicolon => exact absurd hkind hk
  | ident | blank | plain | stray =>
    rw [hkind] at ht
    intro hmem
    cases ht ';' hmem
  | _ =>
    rw [hkind] at ht
    rw [ht]
    decide

end Token

namespace Tokens

variable {ts us : Tokens} {base : Nat} {text : List Char}

/-- the last entry is read up to the end from where it starts, and the others end before that -/
theorem entries_last_of (h : ts.In base text) : ∃ us before, ts.Leads us ∧
    (parts .semicolon us).after = (entries ts).2 ∧ (entries ts).2.kind? = none ∧
    (entries ts).1 =
      before ++ [Expr.ofParts us.pos (entries ts).2.pos (parts .semicolon us).value] ∧
    ∀ e ∈ before, e.span.stop < us.pos := by
  fun_induction entries ts with
  | case1 ts first after le hparts entry hk hlt more ih =>
    have hfirst := reads_parts .semicolon ts h
    rw [hparts] at hfirst
    have hafter : after.In base text := h.leads hfirst.leads
    have hsemi := leads_advance after
    obtain ⟨us, before, hlead, hlast, hend, hmore, hbefore⟩ := ih (hafter.leads hsemi)
    refine ⟨us, entry :: before, hfirst.leads.trans (hsemi.trans hlead), hlast, hend, ?_, ?_⟩
    · rw [show more.1 = _ from hmore]
      rfl
    · have hpos := (hafter.passes_semicolon hk).2
      have hle := hlead.le
      have hstop : entry.span.stop = after.pos := congrArg Span.stop (hfirst.ofParts h).2
      exact List.forall_mem_cons.2 ⟨by omega, hbefore⟩
  | case2 ts first after le hparts entry hk =>
    have hfirst := reads_parts .semicolon ts h
    rw [hparts] at hfirst
    refine ⟨ts, [], .refl ts, by rw [hparts], hfirst.last.resolve_right hk, ?_, by simp⟩
    rw [hparts]
    rfl

/-- tokens that open nothing and are read up to the end are one text -/
theorem parts_plain (hne : us.rest ≠ []) (hplain : ∀ t ∈ us.rest, t.kind.isOpener = false)
    (hend : (parts .semicolon us).after.kind? = none) :
    (∀ t ∈ us.rest, t.kind ≠ .semicolon) ∧ (parts .semicolon us).value =
      [.text ⟨us.pos, us.pos + width (Token.texts us.rest)⟩
        (String.ofList (Token.texts us.rest))] := by
  obtain ⟨pos, rest⟩ := us
  -- the first separator, if there is one, ends what is read
  obtain ⟨run, tail, rfl, hrun, hhead⟩ : ∃ run tail, rest = run ++ tail ∧
      (∀ t ∈ run, t.kind ≠ .semicolon) ∧ ∀ t ∈ tail.head?, t.kind = .semicolon := by
    let inside := fun t : Token => decide (t.kind ≠ .semicolon)
    refine ⟨rest.takeWhile inside, rest.dropWhile inside, List.takeWhile_append_dropWhile.symm,
      fun t ht => ?_, fun t ht => ?_⟩
    · exact of_decide_eq_true (List.all_eq_true.1 (List.all_takeWhile (p := inside)) t ht)
    · have hstop := List.head?_dropWhile_not inside rest
      rw [Option.mem_def.1 ht] at hstop
      simpa [inside] using hstop
  have hlit : ∀ t ∈ run, t.kind ≠ .semicolon ∧ t.kind.isOpener = false := fun t ht =>
    ⟨hrun t ht, hplain t (List.mem_append_left tail ht)⟩
  obtain ⟨hvalue, hafter⟩ := parts_literal hlit (fun t ht => .inl (hhead t ht)) pos
  cases tail with
  | cons t tail =>
    have hk : (⟨pos + width (Token.texts run), t :: tail⟩ : Tokens).kind? = some .semicolon :=
      congrArg some (hhead t rfl)
    rw [hafter, (parts_stop (.inr hk)).2, hk] at hend
    cases hend
  | nil =>
    have hnone : (⟨pos + width (Token.texts run), []⟩ : Tokens).kind? = none := rfl
    rw [(parts_stop (.inl hnone)).1, List.append_nil, List.append_nil, literalParts,
      if_neg (by simpa using hne)] at hvalue
    rw [List.append_nil]
    exact ⟨hrun, hvalue⟩

end Tokens

namespace Expr

variable {text : String} {base offset : Nat} {before entry : List Char}

theorem findIn_append_of_stop_lt {es fs : List Expr} (h : ∀ e ∈ es, e.span.stop < offset) :
    findIn offset (es ++ fs) = findIn offset fs := by
  induction es with
  | nil => rfl
  | cons e es ih =>
    obtain ⟨he, hes⟩ := List.forall_mem_cons.1 h
    rw [List.cons_append, findIn_cons_of_stop_lt he, ih hes]

theorem Sound.ne_list {e : Expr} {cs : List Char} (h : e.Sound base cs) (s : Span)
    (entries : List Expr) : e ≠ .list s entries := by
  rintro rfl
  obtain ⟨h, -⟩ := h
  exact h.elim

theorem ofEntries_concat {start stop : Nat} {es : List Expr} (h : es ≠ []) (e : Expr) :
    ofEntries start stop (es ++ [e]) = .list ⟨start, stop⟩ (es ++ [e]) := by
  match es with
  | [] => exact absurd rfl h
  | [first] => exact ofEntries_cons_cons start stop first e []
  | first :: second :: es => exact ofEntries_cons_cons start stop first second (es ++ [e])

theorem lastEntry_ofEntries {start stop : Nat} {e : Expr}
    (he : ∀ s entries, e ≠ .list s entries) (es : List Expr) :
    (ofEntries start stop (es ++ [e])).lastEntry = e := by
  by_cases h : es = []
  · subst h
    cases e with
    | list s entries => exact absurd rfl (he s entries)
    | _ => rfl
  · rw [ofEntries_concat h, lastEntry, List.getLast?_concat]
    rfl

/-- where the last entry is text and the others end earlier, text is found or the whole list -/
theorem findAt_ofEntries_text {start stop : Nat} {es : List Expr} {e f : Expr}
    (he : e.isText = true) (h : ∀ e ∈ es, e.span.stop < offset)
    (hf : (ofEntries start stop (es ++ [e])).findAt offset = some f) :
    f.isText = true ∨ ∃ s entries, f = .list s entries := by
  have htext : ∀ g, e.findAt offset = some g → g.isText = true := by
    intro g hg
    cases e with
    | text s raw =>
      rw [findAt] at hg
      split at hg
      · rw [← Option.some.inj hg]
        rfl
      · cases hg
    | _ => cases he
  by_cases hnil : es = []
  · subst hnil
    exact .inl (htext f hf)
  · rw [ofEntries_concat hnil, findAt, findIn_append_of_stop_lt h, findIn_singleton] at hf
    split at hf
    · cases hfound : e.findAt offset with
      | none =>
        rw [hfound] at hf
        exact .inr ⟨_, _, (Option.some.inj hf).symm⟩
      | some g =>
        rw [hfound] at hf
        exact .inl (Option.some.inj hf ▸ htext g hfound)
    · cases hf

/-- an expression ends with an entry that is read from tokens of its own: if it begins where a text
does, they are the tokens of that text -/
theorem exists_last_tokens (htext : text.toList = before ++ entry)
    (hstart : (parse text base).lastEntry.span.start = base + width before) :
    ∃ us es stop, parse text base =
        ofEntries base stop (es ++ [ofParts us.pos stop (Tokens.parts .semicolon us).value]) ∧
      Token.texts us.rest = entry ∧ (∀ t ∈ us.rest, t.Formed) ∧
      (Tokens.parts .semicolon us).after.kind? = none ∧
      ∀ e ∈ es, e.span.stop < base + width before := by
  have hin := Tokens.in_lex text.toList base
  obtain ⟨us, es, ⟨taken, hpass⟩, hlast, hend, hes, hbefore⟩ := Tokens.entries_last_of hin
  have hus := hin.leads ⟨taken, hpass⟩
  have hread := Tokens.reads_parts .semicolon us hus
  rw [hlast] at hread
  obtain ⟨hsound, hspan⟩ := hread.ofParts hus
  have hparse : parse text base = ofEntries base
      (Tokens.entries ⟨base, Token.lex text.toList⟩).2.pos
      (Tokens.entries ⟨base, Token.lex text.toList⟩).1 := rfl
  rw [hes] at hparse
  rw [hparse, lastEntry_ofEntries hsound.ne_list es, hspan, hpass.pos] at hstart
  have hwidth : width (Token.texts taken) = width before := Nat.add_left_cancel hstart
  have htexts : Token.texts us.rest = entry := by
    have hcut : Token.texts taken ++ Token.texts us.rest = before ++ entry := by
      rw [← Token.texts_append, ← hpass.rest, ← htext]
      exact Token.texts_lex text.toList
    have hrest := Text.dropWidth_append (Token.texts taken) (Token.texts us.rest)
    rw [hcut, hwidth, Text.dropWidth_append] at hrest
    exact hrest.symm
  refine ⟨us, es, _, hparse, htexts, fun t ht => ?_, hlast ▸ hend, fun e he => ?_⟩
  · exact Token.formed_of_mem_lex (hpass.rest ▸ List.mem_append_right taken ht)
  · rw [← hwidth]
    exact lt_of_lt_of_eq (hbefore e he) hpass.pos

/-- text at the end that begins no reference is one entry; at its end nothing but text is found, or
the list as a whole -/
theorem lastEntry_plain (htext : text.toList = before ++ entry) (hne : entry ≠ [])
    (hstart : (parse text base).lastEntry.span.start = base + width before)
    (hplain : ∀ c ∈ entry, c ∉ ['$', '@', '%']) :
    ';' ∉ entry ∧ ∀ offset f, base + width text.toList ≤ offset →
      (parse text base).findAt offset = some f →
        f.isText = true ∨ ∃ s es, f = .list s es := by
  obtain ⟨us, es, stop, hparse, htexts, hformed, hend, hbefore⟩ := exists_last_tokens htext hstart
  have hmem : ∀ t ∈ us.rest, ∀ c ∈ t.text, c ∈ entry := fun t ht c hc =>
    htexts ▸ List.mem_flatMap_of_mem ht hc
  have hopen : ∀ t ∈ us.rest, t.kind.isOpener = false := by
    intro t ht
    refine Bool.eq_false_iff.2 fun hk => ?_
    obtain ⟨c, hc, hsign⟩ := Token.mem_of_isOpener (hformed t ht) hk
    exact hplain c (hmem t ht c hc) hsign
  have hrest : us.rest ≠ [] := by
    intro hnil
    rw [hnil] at htexts
    exact hne htexts.symm
  obtain ⟨hsemi, hvalue⟩ := Tokens.parts_plain hrest hopen hend
  refine ⟨fun hc => ?_, fun offset f hoffset hf => ?_⟩
  · rw [← htexts] at hc
    obtain ⟨t, ht, hct⟩ := List.mem_flatMap.1 hc
    exact Token.semicolon_not_mem (hformed t ht) (hsemi t ht) hct
  · rw [hparse, hvalue] at hf
    refine findAt_ofEntries_text rfl (fun e he => ?_) hf
    have hstop := hbefore e he
    rw [htext, Text.width_append] at hoffset
    omega

end Expr
end ProjectSense
