import ProjectSense.Proofs.Expr.Reading

/-!
# Open references

A text that ends in an opener, or in an opener and a name, ends in a reference that is still open.
Whatever stands before it, if it opens no reference, an offset at the end of the text is on that
reference.

* `Tokens.parts_open`: an opener and a name at the end are an open reference.
* `Tokens.findIn_entries`: the last entry of a list is found at its end.
* `Expr.findAt_open`: the node at the end of such a text.
-/

namespace ProjectSense

/-- what opens a reference -/
inductive Opener where
  | property
  | item
  | metadata
deriving DecidableEq, Repr

namespace Opener

def kind : Opener → TokenKind
  | property => .propertyOpen
  | item => .itemOpen
  | metadata => .metadataOpen

def text : Opener → List Char
  | property => ['$', '(']
  | item => ['@', '(']
  | metadata => ['%', '(']

theorem spelling?_kind (o : Opener) : o.kind.spelling? = some o.text := by
  cases o <;> rfl

theorem isBorder_of_head? (o : Opener) (cs : List Char) :
    ∀ c ∈ (o.text ++ cs).head?, Token.isBorder c = true := by
  cases o <;> rintro c ⟨⟩ <;> rfl

/-- an open reference of this kind, from `start` to `stop`, with nothing but a name in it -/
inductive Opens (start stop : Nat) (name : Word) : Opener → Expr → Prop
  | property : Opens start stop name property (.property ⟨start, stop⟩ name false)
  | item : Opens start stop name item (.item ⟨start, stop⟩ name [] none false)
  | metadata : Opens start stop name metadata (.metadata ⟨start, stop⟩ none name false)

theorem Opens.isText {start stop : Nat} {name : Word} {o : Opener} {r : Expr}
    (h : o.Opens start stop name r) : r.isText = false := by
  cases h <;> rfl

end Opener

namespace Expr

variable {offset start stop : Nat} {e r : Expr} {es : List Expr}

/-! ### Finding what ends at an offset -/

theorem findIn_singleton (offset : Nat) (e : Expr) : findIn offset [e] = findAt offset e := by
  rw [findIn, findIn]
  cases findAt offset e <;> rfl

theorem findAt_ofParts (h : findIn offset es = some r)
    (ht : (⟨start, stop⟩ : Span).touches offset = true) :
    (ofParts start stop es).findAt offset = some r := by
  match es with
  | [] => cases h
  | [part] => rwa [ofParts_singleton, ← findIn_singleton]
  | first :: second :: parts =>
    rw [ofParts_cons_cons, findAt, if_pos ht, h]
    rfl

theorem findAt_ofEntries (h : findIn offset es = some r)
    (ht : (⟨start, stop⟩ : Span).touches offset = true) :
    (ofEntries start stop es).findAt offset = some r := by
  match es with
  | [] => cases h
  | [entry] => rwa [ofEntries_singleton, ← findIn_singleton]
  | first :: second :: entries =>
    rw [ofEntries_cons_cons, findAt, if_pos ht, h]
    rfl

theorem findAt_of_stop_lt (h : e.span.stop < offset) : e.findAt offset = none := by
  have hout : ¬e.span.touches offset = true := by
    rw [Span.touches_iff]
    omega
  rw [findAt_eq, if_neg hout]

theorem findIn_cons_of_stop_lt (h : e.span.stop < offset) :
    findIn offset (e :: es) = findIn offset es := by
  rw [findIn, findAt_of_stop_lt h]
  cases findIn offset es <;> rfl

/-- what is no text is found, also where text before it is touched -/
theorem findIn_text_cons {s : Span} {raw : String} (h : findIn offset es = some r)
    (hr : r.isText = false) : findIn offset (.text s raw :: es) = some r := by
  rw [findIn, h, findAt]
  split
  · rw [later, hr]
    rfl
  · rfl

theorem findAt_opens {name : Word} {o : Opener} (h : o.Opens start offset name r)
    (hle : start ≤ offset) : r.findAt offset = some r := by
  have htouch : (⟨start, offset⟩ : Span).touches offset = true :=
    Span.touches_iff.2 ⟨hle, Nat.le_refl _⟩
  cases h with
  | property | metadata => rw [findAt, if_pos htouch]
  | item =>
    rw [findAt, if_pos htouch]
    rfl

end Expr

namespace Tokens

open Text (width)
open Token (lex)

variable {pos offset : Nat} {word : List Char} {r : Expr} {run tail : List Token}

/-! ### An open reference at the end -/

/-- the tokens of a name that is the end of a text, or is still to be typed -/
def nameTokens (word : List Char) : List Token := if word = [] then [] else [⟨.ident, word⟩]

/-- a name at the end of a text -/
def nameAt (pos : Nat) (word : List Char) : Word :=
  ⟨String.ofList word, ⟨pos, pos + width word⟩⟩

theorem lex_name (hw : word = [] ∨ Token.IsIdent word) : lex word = nameTokens word := by
  rcases hw with rfl | hw
  · simp [lex, nameTokens]
  · have hne : word ≠ [] := by rintro rfl; exact hw
    have hlex : lex (word ++ []) = ⟨.ident, word⟩ :: lex [] := Token.lex_ident hw (by simp)
    rw [List.append_nil] at hlex
    rw [hlex, nameTokens, if_neg hne, lex]

theorem word_open (pos : Nat) (word : List Char) :
    (⟨pos, nameTokens word⟩ : Tokens).skipBlanks.word =
      (nameAt pos word, ⟨pos + width word, []⟩) := by
  rw [nameTokens]
  split
  · next h =>
    subst h
    rfl
  · simp [skipBlanks, takeWhile, Tokens.word, advance, nameAt]

theorem property_open (start pos : Nat) (word : List Char) :
    property start ⟨pos, nameTokens word⟩ =
      (.property ⟨start, pos + width word⟩ (nameAt pos word) false, ⟨pos + width word, []⟩) := by
  rw [nameTokens]
  split
  · next h =>
    subst h
    rfl
  · simp [property, skipBlanks, takeWhile, Tokens.word, advance, nameAt, kind?, close, closeIn]

theorem metadata_open (start pos : Nat) (word : List Char) :
    metadata start ⟨pos, nameTokens word⟩ =
      (.metadata ⟨start, pos + width word⟩ none (nameAt pos word) false,
        ⟨pos + width word, []⟩) := by
  rw [metadata, word_open]
  rfl

theorem part_open (o : Opener) (stop : TokenKind) (start pos : Nat) (head : List Token)
    (word : List Char) : ∃ r, o.Opens start (pos + width word) (nameAt pos word) r ∧
      (part stop (some o.kind) start head ⟨pos, nameTokens word⟩).value = r ∧
      (part stop (some o.kind) start head ⟨pos, nameTokens word⟩).after =
        ⟨pos + width word, []⟩ := by
  cases o with
  | property =>
    refine ⟨_, .property, ?_, ?_⟩
    · rw [Opener.kind, part]
      exact congrArg Prod.fst (property_open start pos word)
    · rw [Opener.kind, part]
      exact congrArg Prod.snd (property_open start pos word)
  | metadata =>
    refine ⟨_, .metadata, ?_, ?_⟩
    · rw [Opener.kind, part]
      exact congrArg Prod.fst (metadata_open start pos word)
    · rw [Opener.kind, part]
      exact congrArg Prod.snd (metadata_open start pos word)
  | item =>
    refine ⟨_, .item, ?_⟩
    obtain ⟨hv, ha⟩ := part_item stop start head ⟨pos, nameTokens word⟩
    have hnone : ∀ k, ¬(⟨pos + width word, []⟩ : Tokens).skipBlanks.kind? = some k := by
      rintro k ⟨⟩
    obtain ⟨hl, hr⟩ := links_end (nameAt pos word) (hnone .arrow) (hnone .comma)
    rw [Opener.kind, hv, ha, word_open, hl, hr]
    exact ⟨rfl, rfl⟩

/-- an opener at the end, with what was typed of the name, is read as an open reference -/
theorem parts_open (o : Opener) (pos : Nat) (word : List Char) : ∃ r,
    o.Opens pos (pos + width (o.text ++ word)) (nameAt (pos + width o.text) word) r ∧
      (parts .semicolon ⟨pos, ⟨o.kind, o.text⟩ :: nameTokens word⟩).value = [r] ∧
      (parts .semicolon ⟨pos, ⟨o.kind, o.text⟩ :: nameTokens word⟩).after =
        ⟨pos + width (o.text ++ word), []⟩ := by
  obtain ⟨r, hr, hv, ha⟩ := part_open o .semicolon pos (pos + width o.text) [⟨o.kind, o.text⟩] word
  have hadvance : (⟨pos, ⟨o.kind, o.text⟩ :: nameTokens word⟩ : Tokens).advance =
      ⟨pos + width o.text, nameTokens word⟩ := by
    simp [advance]
  have hkind : (⟨pos, ⟨o.kind, o.text⟩ :: nameTokens word⟩ : Tokens).kind? = some o.kind := rfl
  have hne : o.kind ≠ .semicolon := by cases o <;> rintro ⟨⟩
  rw [Text.width_append, ← Nat.add_assoc]
  rw [← hadvance] at hv ha
  obtain ⟨h1, h2⟩ := parts_cons hkind hne hv ha
  have hend : (⟨pos + width o.text + width word, []⟩ : Tokens).kind? = none := rfl
  obtain ⟨h3, h4⟩ := parts_stop (.inl hend)
  exact ⟨r, hr, by rw [h1, h3], by rw [h2, h4]⟩

/-! ### Lists that end in an open reference -/

/-- a run of literal text as parts, none if it is empty -/
def literalParts (pos : Nat) (run : List Token) : List Expr :=
  if run = [] then []
  else [.text ⟨pos, pos + width (Token.texts run)⟩ (String.ofList (Token.texts run))]

theorem parts_literal {stop : TokenKind}
    (hrun : ∀ t ∈ run, t.kind ≠ stop ∧ t.kind.isOpener = false)
    (hrest : ∀ t ∈ tail.head?, t.kind = stop ∨ t.kind.isOpener = true) (pos : Nat) :
    (parts stop ⟨pos, run ++ tail⟩).value = literalParts pos run ++
        (parts stop ⟨pos + width (Token.texts run), tail⟩).value ∧
      (parts stop ⟨pos, run ++ tail⟩).after =
        (parts stop ⟨pos + width (Token.texts run), tail⟩).after := by
  rw [literalParts]
  split
  · next h =>
    subst h
    exact ⟨rfl, rfl⟩
  · next h => exact parts_run h hrun hrest pos

theorem span_literalParts (pos : Nat) (run : List Token) :
    (Expr.ofParts pos (pos + width (Token.texts run)) (literalParts pos run)).span.stop =
      pos + width (Token.texts run) := by
  rw [literalParts]
  split
  · next h =>
    subst h
    rfl
  · rfl

theorem findIn_literalParts (run : List Token) (pos : Nat) (h : r.findAt offset = some r)
    (hr : r.isText = false) : Expr.findIn offset (literalParts pos run ++ [r]) = some r := by
  rw [← Expr.findIn_singleton] at h
  rw [literalParts]
  split
  · exact h
  · exact Expr.findIn_text_cons h hr

/-- literal text up to a separator is an entry -/
theorem entries_literal {semicolon : Token} {rest : List Token}
    (hrun : ∀ t ∈ run, t.kind ≠ .semicolon ∧ t.kind.isOpener = false)
    (hk : semicolon.kind = .semicolon) (pos : Nat) :
    entries ⟨pos, run ++ semicolon :: rest⟩ =
      (Expr.ofParts pos (pos + width (Token.texts run)) (literalParts pos run) ::
        (entries ⟨pos + width (Token.texts run) + width semicolon.text, rest⟩).1,
        (entries ⟨pos + width (Token.texts run) + width semicolon.text, rest⟩).2) := by
  have hrest : ∀ t ∈ (semicolon :: rest).head?, t.kind = .semicolon ∨ t.kind.isOpener = true := by
    rintro t ⟨⟩
    exact .inl hk
  have hkind : (⟨pos + width (Token.texts run), semicolon :: rest⟩ : Tokens).kind? =
      some .semicolon := congrArg some hk
  obtain ⟨hv, ha⟩ := parts_literal hrun hrest pos
  obtain ⟨hv', ha'⟩ := parts_stop (.inr hkind)
  rw [hv', List.append_nil] at hv
  rw [ha'] at ha
  have hadvance : (⟨pos + width (Token.texts run), semicolon :: rest⟩ : Tokens).advance =
      ⟨pos + width (Token.texts run) + width semicolon.text, rest⟩ := by
    simp [advance]
  rw [entries_more ha hkind, hv, hadvance]

/-- the entries before the last end before the offset, and the last ends in what is found -/
theorem findIn_entries (hrun : ∀ t ∈ run, t.kind.isOpener = false)
    (htail : ∀ t ∈ tail.head?, t.kind.isOpener = true) (hr : r.findAt offset = some r)
    (htext : r.isText = false) (hlt : pos + width (Token.texts run) < offset)
    (hv : (parts .semicolon ⟨pos + width (Token.texts run), tail⟩).value = [r])
    (ha : (parts .semicolon ⟨pos + width (Token.texts run), tail⟩).after = ⟨offset, []⟩) :
    Expr.findIn offset (entries ⟨pos, run ++ tail⟩).1 = some r ∧
      (entries ⟨pos, run ++ tail⟩).2.pos = offset := by
  induction hn : run.length using Nat.strongRecOn generalizing pos run with
  | _ n ih =>
    cases hfind : run.find? (·.kind = .semicolon) with
    | none =>
      -- the last entry
      have hlast : ∀ t ∈ run, t.kind ≠ .semicolon ∧ t.kind.isOpener = false := fun t ht =>
        ⟨by simpa using List.find?_eq_none.1 hfind t ht, hrun t ht⟩
      have hle : pos ≤ offset := by omega
      obtain ⟨h1, h2⟩ := parts_literal hlast (fun t ht => .inr (htail t ht)) pos
      rw [ha] at h2
      rw [entries_last h2 (by rintro ⟨⟩), h1, hv, Expr.findIn_singleton]
      exact ⟨Expr.findAt_ofParts (findIn_literalParts run pos hr htext)
        (Span.touches_iff.2 ⟨hle, Nat.le_refl _⟩), rfl⟩
    | some semicolon =>
      -- an entry that ends at a separator, and those after it
      obtain ⟨hkind, first, more, rfl, hfirst⟩ := List.find?_eq_some_iff_append.1 hfind
      have hentry : ∀ t ∈ first, t.kind ≠ .semicolon ∧ t.kind.isOpener = false := fun t ht =>
        ⟨by simpa using hfirst t ht, hrun t (List.mem_append_left _ ht)⟩
      have hmore : ∀ t ∈ more, t.kind.isOpener = false := fun t ht =>
        hrun t (List.mem_append_right _ (List.mem_cons_of_mem _ ht))
      have hwidth : pos + width (Token.texts (first ++ semicolon :: more)) =
          pos + width (Token.texts first) + width semicolon.text + width (Token.texts more) := by
        simp only [Token.texts_append, Token.texts_cons, Text.width_append]
        omega
      rw [hwidth] at hlt hv ha
      have hbefore : (Expr.ofParts pos (pos + width (Token.texts first))
          (literalParts pos first)).span.stop < offset := by
        rw [span_literalParts]
        omega
      have hlen : more.length < n := by
        rw [← hn, List.length_append, List.length_cons]
        omega
      rw [List.append_assoc, List.cons_append,
        entries_literal hentry (of_decide_eq_true hkind), Expr.findIn_cons_of_stop_lt hbefore]
      exact ih more.length hlen hmore hlt hv ha rfl

end Tokens

namespace Expr

open Text (width)

/-- a text that ends in an opener and what was typed of a name has the open reference at its end,
if nothing before opens one -/
theorem findAt_open {before word : List Char} (o : Opener)
    (hbefore : ∀ opener ∈ openers, ¬opener <:+: before)
    (hword : word = [] ∨ Token.IsIdent word) (base : Nat) : ∃ start name r,
      o.Opens start (base + width (before ++ (o.text ++ word))) name r ∧
      (parse (String.ofList (before ++ (o.text ++ word))) base).findAt
        (base + width (before ++ (o.text ++ word))) = some r := by
  have hlex : Token.lex (before ++ (o.text ++ word)) =
      Token.lex before ++ ⟨o.kind, o.text⟩ :: Tokens.nameTokens word := by
    rw [Token.lex_append (o.isBorder_of_head? word), Token.lex_spelled o.spelling?_kind,
      Tokens.lex_name hword]
  have hrun : ∀ t ∈ Token.lex before, t.kind.isOpener = false := fun t ht =>
    isOpener_of_mem_lex hbefore ht
  have htail : ∀ t ∈ ((⟨o.kind, o.text⟩ : Token) :: Tokens.nameTokens word).head?,
      t.kind.isOpener = true := by
    rintro t ⟨⟩
    cases o <;> rfl
  have hpos : 0 < width o.text := by cases o <;> decide
  have hstop : base + width (Token.texts (Token.lex before)) + width (o.text ++ word) =
      base + width (before ++ (o.text ++ word)) := by
    rw [Token.texts_lex, Text.width_append before, Nat.add_assoc]
  have hlt : base + width (Token.texts (Token.lex before)) <
      base + width (before ++ (o.text ++ word)) := by
    rw [← hstop, Text.width_append]
    omega
  obtain ⟨r, hr, hv, ha⟩ :=
    Tokens.parts_open o (base + width (Token.texts (Token.lex before))) word
  rw [hstop] at hr ha
  obtain ⟨hfind, hend⟩ := Tokens.findIn_entries hrun htail
    (findAt_opens hr (Nat.le_of_lt hlt)) hr.isText hlt hv ha
  refine ⟨_, _, r, hr, ?_⟩
  rw [parse, String.toList_ofList, hlex]
  exact findAt_ofEntries hfind (Span.touches_iff.2 ⟨Nat.le_add_right _ _, Nat.le_of_eq hend.symm⟩)

end Expr
end ProjectSense
