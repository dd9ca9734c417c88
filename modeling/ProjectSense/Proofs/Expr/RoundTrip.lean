import ProjectSense.Proofs.Expr.Reading

/-!
# Reading written expressions

Everything that an expression can be is written down as a `Phrase`: literal text and references, of
which an item's may hold phrases again.  What was written is read back as it was.

* `Tokens.phrase_written`, `Tokens.ref_written`, `Tokens.links_written`: a written part is read for
  what it is and passed whole, whatever follows.
* `Expr.parse_written`: the entries of a written list are read as a list of what they are.
-/

namespace ProjectSense

open Text (width)

namespace Written

/-! ### What can be written -/

/-- the name of a property, an item, metadata or a function, or a part of a class's -/
structure Ident where
  text : List Char
  isIdent : Token.IsIdent text

/-- what a function is called with: the parentheses outside quotes match, and quotes are closed -/
structure Arguments where
  text : List Char
  balanced : Token.balanced 0 false text = true

/-- what an item's values are joined with -/
structure Separator where
  text : List Char
  noQuote : '\'' ∉ text

/-- the name of a class with the namespaces in front -/
structure ClassName where
  first : Ident
  more : List Ident

def ClassName.text (c : ClassName) : List Char :=
  c.first.text ++ c.more.flatMap fun n => '.' :: n.text

mutual
/-- literal text and references that follow one another -/
inductive Phrase where
  | nil
  | literal (text : List Char) (rest : Phrase)
  | reference (r : Ref) (rest : Phrase)

inductive Ref where
  | property (name : Ident)
  | metadata (name : Ident)
  | metadataOf (item name : Ident)
  | item (name : Ident) (links : Links) (separator : Option Separator)
  /-- a function on the value of a property -/
  | call (property name : Ident) (args : Arguments)
  | staticCall (klass : ClassName) (name : Ident) (args : Arguments)

/-- what is done to the items of a reference, one after the other -/
inductive Links where
  | nil
  | quoted (phrase : Phrase) (rest : Links)
  | call (name : Ident) (args : Arguments) (rest : Links)
end

/-! ### Writing -/

/-- a name with what it is called with -/
def renderCall (name : Ident) (args : Arguments) : List Char :=
  name.text ++ '(' :: (args.text ++ [')'])

def renderSeparator : Option Separator → List Char
  | none => []
  | some s => ',' :: ' ' :: '\'' :: (s.text ++ ['\''])

mutual
def Phrase.render : Phrase → List Char
  | .nil => []
  | .literal text rest => text ++ rest.render
  | .reference r rest => r.render ++ rest.render

def Ref.render : Ref → List Char
  | .property name => '$' :: '(' :: (name.text ++ [')'])
  | .metadata name => '%' :: '(' :: (name.text ++ [')'])
  | .metadataOf item name => '%' :: '(' :: (item.text ++ '.' :: (name.text ++ [')']))
  | .item name links separator =>
    '@' :: '(' :: (name.text ++ (links.render ++ (renderSeparator separator ++ [')'])))
  | .call property name args =>
    '$' :: '(' :: (property.text ++ '.' :: (renderCall name args ++ [')']))
  | .staticCall klass name args =>
    '$' :: '(' :: '[' :: (klass.text ++ ']' :: ':' :: ':' :: (renderCall name args ++ [')']))

def Links.render : Links → List Char
  | .nil => []
  | .quoted phrase rest => '-' :: '>' :: '\'' :: (phrase.render ++ '\'' :: rest.render)
  | .call name args rest => '-' :: '>' :: (renderCall name args ++ rest.render)
end

/-- the entries with `;` between them -/
def render (entries : List Phrase) : List Char := [';'].intercalate (entries.map Phrase.render)

/-! ### Literal text that can be written as it is -/

/-- not empty, without openers, and without the character that ends the reading -/
def IsLiteral (stop : Char) (text : List Char) : Prop :=
  text ≠ [] ∧ stop ∉ text ∧ ∀ opener ∈ Expr.openers, ¬opener <:+: text

/-- a literal text comes first -/
def Phrase.startsLiteral : Phrase → Bool
  | .literal _ _ => true
  | _ => false

mutual
/-- no literal text ends the reading or opens a reference, and none follows another -/
def Phrase.WellFormed (stop : Char) : Phrase → Prop
  | .nil => True
  | .literal text rest => IsLiteral stop text ∧ rest.startsLiteral = false ∧ rest.WellFormed stop
  | .reference r rest => r.WellFormed ∧ rest.WellFormed stop

def Ref.WellFormed : Ref → Prop
  | .item _ links _ => links.WellFormed
  | _ => True

def Links.WellFormed : Links → Prop
  | .nil => True
  | .quoted phrase rest => phrase.WellFormed '\'' ∧ rest.WellFormed
  | .call _ _ rest => rest.WellFormed
end

instance (stop : Char) (text : List Char) : Decidable (IsLiteral stop text) :=
  inferInstanceAs (Decidable (_ ∧ _ ∧ _))

mutual
def Phrase.decidableWellFormed (stop : Char) : (p : Phrase) → Decidable (p.WellFormed stop)
  | .nil => .isTrue trivial
  | .literal _ rest =>
    have := rest.decidableWellFormed stop
    inferInstanceAs (Decidable (_ ∧ _ ∧ _))
  | .reference r rest =>
    have := r.decidableWellFormed
    have := rest.decidableWellFormed stop
    inferInstanceAs (Decidable (_ ∧ _))

def Ref.decidableWellFormed : (r : Ref) → Decidable r.WellFormed
  | .item _ links _ => links.decidableWellFormed
  | .property _ | .metadata _ | .metadataOf _ _ | .call _ _ _ | .staticCall _ _ _ => .isTrue trivial

def Links.decidableWellFormed : (l : Links) → Decidable l.WellFormed
  | .nil => .isTrue trivial
  | .quoted phrase rest =>
    have := phrase.decidableWellFormed '\''
    have := rest.decidableWellFormed
    inferInstanceAs (Decidable (_ ∧ _))
  | .call _ _ rest => rest.decidableWellFormed
end

instance (stop : Char) : DecidablePred (Phrase.WellFormed stop) := Phrase.decidableWellFormed stop

/-! ### What it means -/

/-- the name where it stands -/
def Ident.word (n : Ident) (pos : Nat) : Word :=
  ⟨String.ofList n.text, ⟨pos, pos + width n.text⟩⟩

mutual
/-- the nodes of a phrase that begins at `pos` -/
def Phrase.exprs (pos : Nat) : Phrase → List Expr
  | .nil => []
  | .literal text rest =>
    .text ⟨pos, pos + width text⟩ (String.ofList text) :: rest.exprs (pos + width text)
  | .reference r rest => r.expr pos :: rest.exprs (pos + width r.render)

/-- the node of a reference that begins at `pos`: complete, up to its closing parenthesis -/
def Ref.expr (pos : Nat) : Ref → Expr
  | .property name =>
    .property ⟨pos, pos + width (Ref.property name).render⟩ (name.word (pos + 2)) true
  | .metadata name =>
    .metadata ⟨pos, pos + width (Ref.metadata name).render⟩ none (name.word (pos + 2)) true
  | .metadataOf item name =>
    .metadata ⟨pos, pos + width (Ref.metadataOf item name).render⟩
      (some (item.word (pos + 2))) (name.word (pos + 2 + width item.text + 1)) true
  | .item name links separator =>
    .item ⟨pos, pos + width (Ref.item name links separator).render⟩ (name.word (pos + 2))
      (links.exprs (name.word (pos + 2)) (pos + 2 + width name.text))
      (separator.map fun s => String.ofList s.text) true
  | .call property name args =>
    .call ⟨pos, pos + width (Ref.call property name args).render⟩
      (.property (String.ofList property.text)) (property.word (pos + 2)).span
      (name.word (pos + 2 + width property.text + 1))
  | .staticCall klass name args =>
    .call ⟨pos, pos + width (Ref.staticCall klass name args).render⟩
      (.klass (String.ofList klass.text)) ⟨pos + 3, pos + 3 + width klass.text⟩
      (name.word (pos + 3 + width klass.text + 3))

/-- the transforms and calls on an item; a call ends at its closing parenthesis -/
def Links.exprs (item : Word) (pos : Nat) : Links → List Expr
  | .nil => []
  | .quoted phrase rest =>
    Expr.ofParts (pos + 3) (pos + 3 + width phrase.render) (phrase.exprs (pos + 3)) ::
      rest.exprs item (pos + 3 + width phrase.render + 1)
  | .call name args rest =>
    .call ⟨pos + 2, pos + 2 + width (renderCall name args)⟩ (.item item.text) item.span
        (name.word (pos + 2)) ::
      rest.exprs item (pos + 2 + width (renderCall name args))
end

/-- the entries of a list that begins at `pos`, one `;` between two of them -/
def entryExprs (pos : Nat) : List Phrase → List Expr
  | [] => []
  | p :: ps => Expr.ofParts pos (pos + width p.render) (p.exprs pos) ::
    entryExprs (pos + width p.render + 1) ps

end Written

namespace Tokens

open Written

variable {rest : List Char}

/-! ### References with nothing in them -/

theorem kind?_name (n : Ident) (hr : ∀ d ∈ rest.head?, Token.continuesName d = false)
    (pos : Nat) : (ofText pos (n.text ++ rest)).kind? = some .ident :=
  kind?_ident n.isIdent hr pos

theorem word_name (n : Ident) (hr : ∀ d ∈ rest.head?, Token.continuesName d = false)
    (pos : Nat) : (ofText pos (n.text ++ rest)).word =
      (n.word pos, ofText (pos + width n.text) rest) :=
  word_ofText n.isIdent hr pos

theorem skipBlanks_name (n : Ident) (hr : ∀ d ∈ rest.head?, Token.continuesName d = false)
    (pos : Nat) : (ofText pos (n.text ++ rest)).skipBlanks = ofText pos (n.text ++ rest) :=
  skipBlanks_of_kind? (by rw [kind?_name n hr]; simp)

/-- a character that is a token of its own -/
theorem kind?_sign {k : TokenKind} {c : Char} (h : k.spelling? = some [c]) (pos : Nat)
    (rest : List Char) : (ofText pos (c :: rest)).kind? = some k :=
  kind?_ofText h pos rest

theorem skipBlanks_sign {k : TokenKind} {c : Char} (h : k.spelling? = some [c]) (pos : Nat)
    (rest : List Char) : (ofText pos (c :: rest)).skipBlanks = ofText pos (c :: rest) := by
  refine skipBlanks_of_kind? ?_
  rw [kind?_sign h]
  rintro ⟨⟩
  cases h

theorem advance_sign {k : TokenKind} {c : Char} (h : k.spelling? = some [c]) (pos : Nat)
    (rest : List Char) : (ofText pos (c :: rest)).advance = ofText (pos + 1) rest := by
  have hsize : width [c] = 1 := by
    cases k <;> cases h <;> rfl
  rw [← hsize]
  exact advance_ofText h pos rest

theorem not_continues {c : Char} (h : Token.continuesName c = false) :
    ∀ d ∈ (c :: rest).head?, Token.continuesName d = false :=
  forall_mem_head?_cons h

theorem property_written (n : Ident) (start pos : Nat) (rest : List Char) :
    property start (ofText pos (n.text ++ ')' :: rest)) =
      (.property ⟨start, pos + width n.text + 1⟩ (n.word pos) true,
        ofText (pos + width n.text + 1) rest) := by
  have hr : ∀ d ∈ (')' :: rest).head?, Token.continuesName d = false := not_continues rfl
  simp [property, skipBlanks_name n hr, kind?_name n hr, word_name n hr,
    skipBlanks_sign (k := .rightParen) rfl, kind?_sign (k := .rightParen) rfl, close_rightParen]

theorem metadata_written (n : Ident) (start pos : Nat) (rest : List Char) :
    metadata start (ofText pos (n.text ++ ')' :: rest)) =
      (.metadata ⟨start, pos + width n.text + 1⟩ none (n.word pos) true,
        ofText (pos + width n.text + 1) rest) := by
  have hr : ∀ d ∈ (')' :: rest).head?, Token.continuesName d = false := not_continues rfl
  simp [metadata, skipBlanks_name n hr, word_name n hr, skipBlanks_sign (k := .rightParen) rfl,
    kind?_sign (k := .rightParen) rfl, close_rightParen]

theorem metadataOf_written (item n : Ident) (start pos : Nat) (rest : List Char) :
    metadata start (ofText pos (item.text ++ '.' :: (n.text ++ ')' :: rest))) =
      (.metadata ⟨start, pos + width item.text + 1 + width n.text + 1⟩ (some (item.word pos))
        (n.word (pos + width item.text + 1)) true,
        ofText (pos + width item.text + 1 + width n.text + 1) rest) := by
  have hdot : ∀ d ∈ ('.' :: (n.text ++ ')' :: rest)).head?, Token.continuesName d = false :=
    not_continues rfl
  have hr : ∀ d ∈ (')' :: rest).head?, Token.continuesName d = false := not_continues rfl
  simp [metadata, skipBlanks_name item hdot, word_name item hdot, kind?_sign (k := .dot) rfl,
    advance_sign (k := .dot) rfl, word_name n hr, skipBlanks_sign (k := .rightParen) rfl,
    close_rightParen]

/-! ### Calls -/

theorem width_renderCall (n : Ident) (args : Arguments) :
    width (renderCall n args) = width n.text + 1 + width args.text + 1 := by
  simp [renderCall, Char.utf8Size]
  omega

/-- the arguments and the parenthesis that ends a reference -/
theorem close_arguments (args : Arguments) (pos : Nat) (rest : List Char) :
    (ofText pos ('(' :: (args.text ++ ')' :: ')' :: rest))).close =
      (true, ofText (pos + 1 + width args.text + 1 + 1) rest) := by
  have h := close_ofText (Token.balanced_enclosed args.balanced) pos rest
  have hwidth : pos + width ('(' :: (args.text ++ [')'])) + 1 =
      pos + 1 + width args.text + 1 + 1 := by
    simp [Char.utf8Size]
    omega
  rw [hwidth] at h
  simpa using h

theorem call_written (p n : Ident) (args : Arguments) (start pos : Nat) (rest : List Char) :
    property start (ofText pos (p.text ++ '.' :: (renderCall n args ++ ')' :: rest))) =
      (.call ⟨start, pos + width p.text + 1 + width (renderCall n args) + 1⟩
        (.property (String.ofList p.text)) (p.word pos).span (n.word (pos + width p.text + 1)),
        ofText (pos + width p.text + 1 + width (renderCall n args) + 1) rest) := by
  have htext : renderCall n args ++ ')' :: rest =
      n.text ++ '(' :: (args.text ++ ')' :: ')' :: rest) := by simp [renderCall]
  have hdot : ∀ d ∈ ('.' :: (n.text ++ '(' :: (args.text ++ ')' :: ')' :: rest))).head?,
      Token.continuesName d = false := not_continues rfl
  have hparen : ∀ d ∈ ('(' :: (args.text ++ ')' :: ')' :: rest)).head?,
      Token.continuesName d = false := not_continues rfl
  rw [htext, width_renderCall]
  simp [property, skipBlanks_name p hdot, kind?_name p hdot, word_name p hdot,
    skipBlanks_sign (k := .dot) rfl, kind?_sign (k := .dot) rfl, advance_sign (k := .dot) rfl,
    word_name n hparen, close_arguments, Ident.word, Nat.add_assoc]

theorem itemCall_written (item : Word) (n : Ident) (args : Arguments) (pos : Nat)
    (rest : List Char) : itemCall item (ofText pos (renderCall n args ++ rest)) =
      (.call ⟨pos, pos + width (renderCall n args)⟩ (.item item.text) item.span (n.word pos),
        ofText (pos + width (renderCall n args)) rest) := by
  have htext : renderCall n args ++ rest = n.text ++ '(' :: (args.text ++ ')' :: rest) := by
    simp [renderCall]
  have hparen : ∀ d ∈ ('(' :: (args.text ++ ')' :: rest)).head?, Token.continuesName d = false :=
    not_continues rfl
  rw [htext, width_renderCall]
  simp [itemCall, word_name n hparen, kind?_sign (k := .leftParen) rfl,
    advance_sign (k := .leftParen) rfl, close_ofText args.balanced, Nat.add_assoc]

/-- the tokens of a text whose kinds satisfy `p`, up to a character that is a token without -/
theorem takeWhile_sign {p : TokenKind → Bool} {k : TokenKind} {c : Char}
    (h : k.spelling? = some [c]) (hc : Token.isBorder c = true) (hk : p k = false)
    {text : List Char} (hp : ∀ t ∈ Token.lex text, p t.kind = true) (pos : Nat)
    (rest : List Char) : (ofText pos (text ++ c :: rest)).takeWhile p =
      (text, ofText (pos + width text) (c :: rest)) := by
  have hborder : ∀ d ∈ (c :: rest).head?, Token.isBorder d = true := forall_mem_head?_cons hc
  have hsign : Token.lex (c :: rest) = ⟨k, [c]⟩ :: Token.lex rest := Token.lex_spelled h rest
  simp only [ofText, takeWhile, Token.lex_append hborder, List.takeWhile_append_of_pos hp,
    List.dropWhile_append_of_pos hp, hsign, List.takeWhile_cons, List.dropWhile_cons, hk]
  simp [Token.texts_lex]

theorem kinds_className (n : Ident) (more : List Ident) :
    ∀ t ∈ Token.lex (ClassName.mk n more).text, t.kind = .ident ∨ t.kind = .dot := by
  induction more generalizing n with
  | nil =>
    have hend : ∀ d ∈ ([] : List Char).head?, Token.continuesName d = false := by simp
    have htext : (ClassName.mk n []).text = n.text ++ [] := rfl
    rw [htext, Token.lex_ident n.isIdent hend]
    simp [Token.lex]
  | cons m more ih =>
    have htext : (ClassName.mk n (m :: more)).text =
        n.text ++ '.' :: (ClassName.mk m more).text := by simp [ClassName.text]
    have hdot : Token.lex ('.' :: (ClassName.mk m more).text) =
        ⟨.dot, ['.']⟩ :: Token.lex (ClassName.mk m more).text :=
      Token.lex_spelled (k := .dot) rfl _
    rw [htext, Token.lex_ident n.isIdent (not_continues rfl), hdot]
    intro t ht
    rcases List.mem_cons.1 ht with rfl | ht
    · exact Or.inl rfl
    rcases List.mem_cons.1 ht with rfl | ht
    · exact Or.inr rfl
    · exact ih m t ht

theorem staticCall_written (klass : ClassName) (n : Ident) (args : Arguments) (start pos : Nat)
    (rest : List Char) :
    property start
        (ofText pos ('[' :: (klass.text ++ ']' :: ':' :: ':' ::
          (renderCall n args ++ ')' :: rest)))) =
      (.call ⟨start, pos + 1 + width klass.text + 3 + width (renderCall n args) + 1⟩
        (.klass (String.ofList klass.text)) ⟨pos + 1, pos + 1 + width klass.text⟩
        (n.word (pos + 1 + width klass.text + 3)),
        ofText (pos + 1 + width klass.text + 3 + width (renderCall n args) + 1) rest) := by
  have htext : renderCall n args ++ ')' :: rest =
      n.text ++ '(' :: (args.text ++ ')' :: ')' :: rest) := by simp [renderCall]
  have hparen : ∀ d ∈ ('(' :: (args.text ++ ')' :: ')' :: rest)).head?,
      Token.continuesName d = false := not_continues rfl
  have hcolons : ∀ pos cs, (ofText pos (':' :: ':' :: cs)).kind? = some .colons :=
    kind?_ofText (k := .colons) rfl
  have hafter : ∀ pos cs, (ofText pos (':' :: ':' :: cs)).advance = ofText (pos + 2) cs :=
    advance_ofText (k := .colons) rfl
  have hkinds : ∀ t ∈ Token.lex klass.text, (t.kind = .ident || t.kind = .dot) = true := by
    intro t ht
    simpa using kinds_className klass.first klass.more t ht
  have hklass : ∀ cs, (ofText (pos + 1) (klass.text ++ ']' :: cs)).takeWhile
      (fun k => k = .ident || k = .dot) =
        (klass.text, ofText (pos + 1 + width klass.text) (']' :: cs)) :=
    takeWhile_sign (k := .rightBracket) rfl (by decide) rfl hkinds (pos + 1)
  rw [htext, width_renderCall]
  simp [property, staticCall, skipBlanks_sign (k := .leftBracket) rfl,
    kind?_sign (k := .leftBracket) rfl, advance_sign (k := .leftBracket) rfl, hklass, eat,
    kind?_sign (k := .rightBracket) rfl, advance_sign (k := .rightBracket) rfl, hcolons, hafter,
    word_name n hparen, close_arguments, Nat.add_assoc]

/-! ### Items -/

theorem separator_written (s : Separator) (pos : Nat) (rest : List Char) :
    separator (ofText pos (' ' :: '\'' :: (s.text ++ '\'' :: rest))) =
      (some (String.ofList s.text), ofText (pos + 2 + width s.text + 1) rest) := by
  have hlex : Token.lex [' '] = [⟨.blank, [' ']⟩] := by
    have hfound : Token.classify ' ' none = (.blank, .whileHolds Token.isSpace) := rfl
    simp [Token.lex, hfound, Token.Extent.split]
  have hblank : (ofText pos (' ' :: '\'' :: (s.text ++ '\'' :: rest))).skipBlanks =
      ofText (pos + 1) ('\'' :: (s.text ++ '\'' :: rest)) := by
    have hkinds : ∀ t ∈ Token.lex [' '], decide (t.kind = .blank) = true := by simp [hlex]
    have hskip : (ofText pos ([' '] ++ '\'' :: (s.text ++ '\'' :: rest))).takeWhile
        (· = .blank) = ([' '], ofText (pos + 1) ('\'' :: (s.text ++ '\'' :: rest))) :=
      takeWhile_sign (k := .quote) rfl (by decide) rfl hkinds pos _
    exact congrArg Prod.snd hskip
  have hkinds : ∀ t ∈ Token.lex s.text, decide (t.kind ≠ .quote) = true := by
    intro t ht
    have hformed := Token.formed_of_mem_lex ht
    refine decide_eq_true fun hk => ?_
    rw [Token.Formed, hk] at hformed
    exact s.noQuote ((Token.infix_of_mem_lex ht).subset (hformed ▸ List.mem_singleton_self _))
  have htext : (ofText (pos + 2) (s.text ++ '\'' :: rest)).takeWhile (· ≠ .quote) =
      (s.text, ofText (pos + 2 + width s.text) ('\'' :: rest)) :=
    takeWhile_sign (k := .quote) rfl (by decide) rfl hkinds (pos + 2) rest
  simp only [separator, hblank, kind?_sign (k := .quote) rfl, if_pos,
    advance_sign (k := .quote) rfl]
  rw [htext]
  simp [eat, kind?_sign (k := .quote) rfl, advance_sign (k := .quote) rfl]

/-- after the links of an item: its separator and the closing parenthesis -/
theorem links_separator (name : Word) (s? : Option Separator) (pos : Nat) (rest : List Char) :
    (links name (ofText pos (renderSeparator s? ++ ')' :: rest))).value =
        ([], s?.map fun s => String.ofList s.text) ∧
      (links name (ofText pos (renderSeparator s? ++ ')' :: rest))).after =
        ofText (pos + width (renderSeparator s?)) (')' :: rest) := by
  have hend : ∀ pos, (links name (ofText pos (')' :: rest))).value = ([], none) ∧
      (links name (ofText pos (')' :: rest))).after = ofText pos (')' :: rest) := by
    intro pos
    have hskip := skipBlanks_sign (k := .rightParen) rfl pos rest
    have hparen := kind?_sign (k := .rightParen) rfl pos rest
    have harrow : ¬(ofText pos (')' :: rest)).skipBlanks.kind? = some .arrow := by
      rw [hskip, hparen]
      simp
    have hcomma : ¬(ofText pos (')' :: rest)).skipBlanks.kind? = some .comma := by
      rw [hskip, hparen]
      simp
    have h := links_end name harrow hcomma
    rwa [hskip] at h
  cases s? with
  | none => exact hend pos
  | some s =>
    have htext : renderSeparator (some s) ++ ')' :: rest =
        ',' :: ' ' :: '\'' :: (s.text ++ '\'' :: ')' :: rest) := by simp [renderSeparator]
    have hwidth : pos + width (renderSeparator (some s)) = pos + 1 + 2 + width s.text + 1 := by
      simp [renderSeparator, Char.utf8Size]
      omega
    rw [htext, hwidth]
    have hskip := skipBlanks_sign (k := .comma) rfl pos
      (' ' :: '\'' :: (s.text ++ '\'' :: ')' :: rest))
    have hcomma := kind?_sign (k := .comma) rfl pos
      (' ' :: '\'' :: (s.text ++ '\'' :: ')' :: rest))
    rw [← hskip] at hcomma
    obtain ⟨hv, ha⟩ := links_comma name hcomma
    rw [hskip, advance_sign (k := .comma) rfl, separator_written, (hend _).1] at hv
    rw [hskip, advance_sign (k := .comma) rfl, separator_written, (hend _).2] at ha
    exact ⟨hv, ha⟩

/-! ### Where a reading ends -/

/-- the kind of token that ends a reading, and the character it is -/
structure Stops (stop : TokenKind) (c : Char) : Prop where
  spelled : stop.spelling? = some [c]
  border : Token.isBorder c = true

variable {stop : TokenKind} {c : Char} {pos : Nat}

theorem Stops.isOpener (h : Stops stop c) : stop.isOpener = false := by
  have hs := h.spelled
  cases stop <;> first | rfl | cases hs

/-- what begins with a token that is no literal text -/
def Ended (stop : TokenKind) (rest : List Char) : Prop :=
  (∀ d ∈ rest.head?, Token.isBorder d = true) ∧
    ∀ t ∈ (Token.lex rest).head?, t.kind = stop ∨ t.kind.isOpener = true

theorem Stops.ended (h : Stops stop c) (hr : ∀ d ∈ rest.head?, d = c) : Ended stop rest := by
  cases rest with
  | nil => exact ⟨by simp, by simp [Token.lex]⟩
  | cons d rest =>
    obtain rfl := hr d rfl
    refine ⟨forall_mem_head?_cons h.border, ?_⟩
    rw [show Token.lex (d :: rest) = ⟨stop, [d]⟩ :: Token.lex rest from
      Token.lex_spelled h.spelled rest]
    rintro t ⟨⟩
    exact Or.inl rfl

theorem Stops.kind? (h : Stops stop c) (hr : ∀ d ∈ rest.head?, d = c) (pos : Nat) :
    (ofText pos rest).kind? = none ∨ (ofText pos rest).kind? = some stop := by
  cases rest with
  | nil => exact Or.inl (by simp [ofText, Token.lex, Tokens.kind?])
  | cons d rest =>
    obtain rfl := hr d rfl
    exact Or.inr (kind?_sign h.spelled pos rest)

/-- a reference begins with its opener -/
theorem exists_opener (r : Ref) : ∃ (k : TokenKind) (d : Char) (s body : List Char),
    k.isOpener = true ∧ k.spelling? = some (d :: s) ∧ Token.isBorder d = true ∧
      r.render = d :: (s ++ body) := by
  cases r with
  | property | call | staticCall => exact ⟨.propertyOpen, '$', ['('], _, rfl, rfl, rfl, rfl⟩
  | metadata | metadataOf => exact ⟨.metadataOpen, '%', ['('], _, rfl, rfl, rfl, rfl⟩
  | item => exact ⟨.itemOpen, '@', ['('], _, rfl, rfl, rfl, rfl⟩

theorem ended_render {p : Phrase} (hp : p.startsLiteral = false) (hr : Ended stop rest) :
    Ended stop (p.render ++ rest) := by
  cases p with
  | nil => exact hr
  | literal text p => cases hp
  | reference r p =>
    obtain ⟨k, d, s, body, hk, hs, hborder, hrender⟩ := exists_opener r
    have htext : (Phrase.reference r p).render ++ rest =
        d :: s ++ (body ++ (p.render ++ rest)) := by simp [Phrase.render, hrender]
    rw [htext]
    refine ⟨forall_mem_head?_cons hborder, ?_⟩
    rw [Token.lex_spelled hs]
    rintro t ⟨⟩
    exact Or.inr hk

/-- literal text is read up to what is none -/
theorem literal_written (hs : Stops stop c) {text : List Char} (ht : IsLiteral c text)
    (hr : Ended stop rest) (pos : Nat) :
    (parts stop (ofText pos (text ++ rest))).value =
        .text ⟨pos, pos + width text⟩ (String.ofList text) ::
          (parts stop (ofText (pos + width text) rest)).value ∧
      (parts stop (ofText pos (text ++ rest))).after =
        (parts stop (ofText (pos + width text) rest)).after := by
  obtain ⟨hne, hstop, hopen⟩ := ht
  have hrun : ∀ t ∈ Token.lex text, t.kind ≠ stop ∧ t.kind.isOpener = false := by
    intro t ht
    have hformed := Token.formed_of_mem_lex ht
    refine ⟨?_, Expr.isOpener_of_mem_lex hopen ht⟩
    rintro rfl
    rw [Token.Formed, hs.spelled] at hformed
    exact hstop ((Token.infix_of_mem_lex ht).subset (hformed ▸ List.mem_singleton_self _))
  have hlex : Token.lex text ≠ [] := by
    intro h
    have := Token.texts_lex text
    rw [h] at this
    exact hne this.symm
  have h := parts_run hlex hrun hr.2 pos
  rw [Token.texts_lex, ← Token.lex_append hr.1] at h
  exact h

/-- a link begins with its arrow -/
theorem arrow_written (pos : Nat) (rest : List Char)
    (hk : (ofText (pos + 2) rest).kind? ≠ some .blank) :
    (ofText pos ('-' :: '>' :: rest)).skipBlanks.kind? = some .arrow ∧
      (ofText pos ('-' :: '>' :: rest)).skipBlanks.advance.skipBlanks = ofText (pos + 2) rest := by
  have hkind : (ofText pos ('-' :: '>' :: rest)).kind? = some .arrow :=
    kind?_ofText (k := .arrow) rfl pos rest
  have hadvance : (ofText pos ('-' :: '>' :: rest)).advance = ofText (pos + 2) rest :=
    advance_ofText (k := .arrow) rfl pos rest
  have hskip : (ofText pos ('-' :: '>' :: rest)).skipBlanks = ofText pos ('-' :: '>' :: rest) :=
    skipBlanks_of_kind? (by rw [hkind]; simp)
  rw [hskip, hadvance, skipBlanks_of_kind? hk]
  exact ⟨hkind, rfl⟩

theorem transform_written (name : Word) {body : List Char} {quoted : List Expr} {last : Nat}
    (hv : (parts .quote (ofText (pos + 3) body)).value = quoted)
    (ha : (parts .quote (ofText (pos + 3) body)).after = ofText last ('\'' :: rest)) :
    (links name (ofText pos ('-' :: '>' :: '\'' :: body))).value =
        (Expr.ofParts (pos + 3) last quoted :: (links name (ofText (last + 1) rest)).value.1,
          (links name (ofText (last + 1) rest)).value.2) ∧
      (links name (ofText pos ('-' :: '>' :: '\'' :: body))).after =
        (links name (ofText (last + 1) rest)).after := by
  have hquote : ∀ pos cs, (ofText pos ('\'' :: cs)).kind? = some .quote :=
    kind?_sign (k := .quote) rfl
  have heat : (ofText last ('\'' :: rest)).eat .quote = ofText (last + 1) rest := by
    rw [eat, if_pos (hquote _ _), advance_sign (k := .quote) rfl]
  have hinner : (ofText (pos + 2) ('\'' :: body)).advance = ofText (pos + 3) body :=
    advance_sign (k := .quote) rfl _ _
  obtain ⟨harrow, htarget⟩ := arrow_written pos ('\'' :: body) (by rw [hquote]; simp)
  have h := links_quoted name harrow (by rw [htarget, hquote]) rfl rfl
  rwa [htarget, hinner, ha, hv, heat] at h

theorem link_written (name : Word) (n : Ident) (args : Arguments) (pos : Nat)
    (rest : List Char) :
    (links name (ofText pos ('-' :: '>' :: (renderCall n args ++ rest)))).value =
        (.call ⟨pos + 2, pos + 2 + width (renderCall n args)⟩ (.item name.text) name.span
            (n.word (pos + 2)) ::
          (links name (ofText (pos + 2 + width (renderCall n args)) rest)).value.1,
          (links name (ofText (pos + 2 + width (renderCall n args)) rest)).value.2) ∧
      (links name (ofText pos ('-' :: '>' :: (renderCall n args ++ rest)))).after =
        (links name (ofText (pos + 2 + width (renderCall n args)) rest)).after := by
  have hident : (ofText (pos + 2) (renderCall n args ++ rest)).kind? = some .ident := by
    rw [renderCall, List.append_assoc]
    exact kind?_name n (not_continues rfl) _
  obtain ⟨harrow, htarget⟩ := arrow_written pos (renderCall n args ++ rest)
    (by rw [hident]; simp)
  have h := links_call name harrow (by rw [htarget, hident])
  rwa [htarget, itemCall_written] at h

theorem stops_quote : Stops .quote '\'' := ⟨rfl, by decide⟩

/-- what stands after an item's name and goes on until its parenthesis is no part of the name -/
theorem not_continues_links (l : Links) (s? : Option Separator) (rest : List Char) :
    ∀ d ∈ (l.render ++ (renderSeparator s? ++ ')' :: rest)).head?,
      Token.continuesName d = false := by
  cases l with
  | quoted | call => exact not_continues rfl
  | nil => cases s? <;> exact not_continues rfl

/-- a reference comes first, which is read as `e`; reading goes on at `after` -/
def ReadsRef (stop : TokenKind) (pos : Nat) (text : List Char) (e : Expr) (after : Tokens) : Prop :=
  ∃ k, k.isOpener = true ∧ (ofText pos text).kind? = some k ∧ ∀ head,
    (part stop (some k) pos head (ofText pos text).advance).value = e ∧
      (part stop (some k) pos head (ofText pos text).advance).after = after

theorem readsRef_property {text : List Char} (body : List Char)
    (htext : text = '$' :: '(' :: body) {e : Expr} {after : Tokens} {pos : Nat}
    (h : property pos (ofText (pos + 2) body) = (e, after)) :
    ReadsRef stop pos text e after := by
  subst htext
  refine ⟨.propertyOpen, rfl, kind?_ofText (k := .propertyOpen) rfl _ body, fun head => ?_⟩
  have hadvance : (ofText pos ('$' :: '(' :: body)).advance = ofText (pos + 2) body :=
    advance_ofText (k := .propertyOpen) rfl pos body
  rw [hadvance, part]
  exact ⟨congrArg Prod.fst h, congrArg Prod.snd h⟩

theorem readsRef_metadata {text : List Char} (body : List Char)
    (htext : text = '%' :: '(' :: body) {e : Expr} {after : Tokens} {pos : Nat}
    (h : metadata pos (ofText (pos + 2) body) = (e, after)) :
    ReadsRef stop pos text e after := by
  subst htext
  refine ⟨.metadataOpen, rfl, kind?_ofText (k := .metadataOpen) rfl _ body, fun head => ?_⟩
  have hadvance : (ofText pos ('%' :: '(' :: body)).advance = ofText (pos + 2) body :=
    advance_ofText (k := .metadataOpen) rfl pos body
  rw [hadvance, part]
  exact ⟨congrArg Prod.fst h, congrArg Prod.snd h⟩

theorem readsRef_item (stop : TokenKind) {text tail : List Char} (n : Ident)
    (hn : ∀ d ∈ tail.head?, Token.continuesName d = false)
    (htext : text = '@' :: '(' :: (n.text ++ tail)) {pos last : Nat}
    {found : List Expr × Option String}
    (hv : (links (n.word (pos + 2)) (ofText (pos + 2 + width n.text) tail)).value = found)
    (ha : (links (n.word (pos + 2)) (ofText (pos + 2 + width n.text) tail)).after =
      ofText last (')' :: rest)) :
    ReadsRef stop pos text (.item ⟨pos, last + 1⟩ (n.word (pos + 2)) found.1 found.2 true)
      (ofText (last + 1) rest) := by
  subst htext
  refine ⟨.itemOpen, rfl, kind?_ofText (k := .itemOpen) rfl _ _, fun head => ?_⟩
  have hadvance : (ofText pos ('@' :: '(' :: (n.text ++ tail))).advance =
      ofText (pos + 2) (n.text ++ tail) := advance_ofText (k := .itemOpen) rfl pos _
  rw [hadvance]
  obtain ⟨h1, h2⟩ := part_item stop pos head (ofText (pos + 2) (n.text ++ tail))
  rw [skipBlanks_name n hn, word_name n hn, ha, close_rightParen] at h1 h2
  rw [hv] at h1
  exact ⟨h1, h2⟩

-- by recursion on what was written: the readers recur on tokens, but every call of theirs reads a
-- part of it before any `rest`
mutual
/-- a written phrase is read for what it is, up to the token that ends the reading -/
theorem phrase_written : ∀ p : Phrase, ∀ {stop : TokenKind} {c : Char}, Stops stop c →
    p.WellFormed c → ∀ (pos : Nat) {rest : List Char}, (∀ d ∈ rest.head?, d = c) →
      (parts stop (ofText pos (p.render ++ rest))).value = p.exprs pos ∧
        (parts stop (ofText pos (p.render ++ rest))).after = ofText (pos + width p.render) rest
  | .nil, _, _, hs, _, pos, _, hr => parts_stop (hs.kind? hr pos)
  | .literal text p, _, _, hs, h, pos, rest, hr => by
    obtain ⟨ht, hp, h⟩ := h
    obtain ⟨hv, ha⟩ := literal_written hs ht (ended_render hp (hs.ended hr)) pos
    obtain ⟨hv', ha'⟩ := phrase_written p hs h (pos + width text) hr
    have htext : (Phrase.literal text p).render ++ rest = text ++ (p.render ++ rest) :=
      List.append_assoc ..
    rw [htext, hv, ha, hv', ha', Phrase.render, Text.width_append, Nat.add_assoc]
    exact ⟨rfl, rfl⟩
  | .reference r p, stop, _, hs, h, pos, rest, hr => by
    obtain ⟨href, h⟩ := h
    obtain ⟨k, hk, hkind, hread⟩ := ref_written r href stop pos (p.render ++ rest)
    obtain ⟨hv', ha'⟩ := phrase_written p hs h (pos + width r.render) hr
    have htext : (Phrase.reference r p).render ++ rest = r.render ++ (p.render ++ rest) :=
      List.append_assoc ..
    have hne : k ≠ stop := by
      rintro rfl
      exact Bool.noConfusion (hk.symm.trans hs.isOpener)
    obtain ⟨hv, ha⟩ := parts_cons hkind hne (hread _).1 (hread _).2
    rw [htext, hv, ha, hv', ha', Phrase.render, Text.width_append, Nat.add_assoc]
    exact ⟨rfl, rfl⟩

/-- a written reference is read for what it is, up to its closing parenthesis -/
theorem ref_written : ∀ r : Ref, r.WellFormed → ∀ (stop : TokenKind) (pos : Nat)
    (rest : List Char),
      ReadsRef stop pos (r.render ++ rest) (r.expr pos) (ofText (pos + width r.render) rest)
  | .property n, _, stop, pos, rest => by
    have hwidth : pos + width (Ref.property n).render = pos + 2 + width n.text + 1 := by
      simp [Ref.render, Char.utf8Size]
      omega
    refine readsRef_property (n.text ++ ')' :: rest) (by simp [Ref.render]) ?_
    rw [property_written, Ref.expr, hwidth]
  | .metadata n, _, stop, pos, rest => by
    have hwidth : pos + width (Ref.metadata n).render = pos + 2 + width n.text + 1 := by
      simp [Ref.render, Char.utf8Size]
      omega
    refine readsRef_metadata (n.text ++ ')' :: rest) (by simp [Ref.render]) ?_
    rw [metadata_written, Ref.expr, hwidth]
  | .metadataOf i n, _, stop, pos, rest => by
    have hwidth : pos + width (Ref.metadataOf i n).render =
        pos + 2 + width i.text + 1 + width n.text + 1 := by
      simp [Ref.render, Char.utf8Size]
      omega
    refine readsRef_metadata (i.text ++ '.' :: (n.text ++ ')' :: rest))
      (by simp [Ref.render]) ?_
    rw [metadataOf_written, Ref.expr, hwidth]
  | .call p n args, _, stop, pos, rest => by
    have hwidth : pos + width (Ref.call p n args).render =
        pos + 2 + width p.text + 1 + width (renderCall n args) + 1 := by
      simp [Ref.render, Char.utf8Size]
      omega
    refine readsRef_property (p.text ++ '.' :: (renderCall n args ++ ')' :: rest))
      (by simp [Ref.render]) ?_
    rw [call_written, Ref.expr, hwidth]
  | .staticCall klass n args, _, stop, pos, rest => by
    have hwidth : pos + width (Ref.staticCall klass n args).render =
        pos + 2 + 1 + width klass.text + 3 + width (renderCall n args) + 1 := by
      simp [Ref.render, Char.utf8Size]
      omega
    refine readsRef_property
      ('[' :: (klass.text ++ ']' :: ':' :: ':' :: (renderCall n args ++ ')' :: rest)))
      (by simp [Ref.render]) ?_
    rw [staticCall_written, Ref.expr, hwidth]
  | .item n l s?, h, stop, pos, rest => by
    have hname := not_continues_links l s? rest
    have hwidth : pos + width (Ref.item n l s?).render =
        pos + 2 + width n.text + width l.render + width (renderSeparator s?) + 1 := by
      simp [Ref.render, Char.utf8Size]
      omega
    obtain ⟨hv, ha⟩ := links_written (n.word (pos + 2)) l h (pos + 2 + width n.text)
      (renderSeparator s? ++ ')' :: rest)
    obtain ⟨hv', ha'⟩ := links_separator (n.word (pos + 2)) s?
      (pos + 2 + width n.text + width l.render) rest
    rw [hv', List.append_nil] at hv
    rw [ha'] at ha
    have htext : (Ref.item n l s?).render ++ rest =
        '@' :: '(' :: (n.text ++ (l.render ++ (renderSeparator s? ++ ')' :: rest))) := by
      simp [Ref.render]
    have h := readsRef_item stop n hname htext hv ha
    rw [← hwidth] at h
    exact h

/-- written links are read for what they are, and then what follows them -/
theorem links_written (name : Word) : ∀ l : Links, l.WellFormed → ∀ (pos : Nat)
    (rest : List Char),
    (links name (ofText pos (l.render ++ rest))).value =
        (l.exprs name pos ++ (links name (ofText (pos + width l.render) rest)).value.1,
          (links name (ofText (pos + width l.render) rest)).value.2) ∧
      (links name (ofText pos (l.render ++ rest))).after =
        (links name (ofText (pos + width l.render) rest)).after
  | .nil, _, _, _ => ⟨rfl, rfl⟩
  | .quoted phrase l, h, pos, rest => by
    obtain ⟨hp, h⟩ := h
    have hquote : ∀ d ∈ ('\'' :: (l.render ++ rest)).head?, d = '\'' := by
      rintro d ⟨⟩
      rfl
    obtain ⟨hv, ha⟩ := phrase_written phrase stops_quote hp (pos + 3) hquote
    obtain ⟨hv', ha'⟩ := links_written name l h (pos + 3 + width phrase.render + 1) rest
    have htext : (Links.quoted phrase l).render ++ rest =
        '-' :: '>' :: '\'' :: (phrase.render ++ '\'' :: (l.render ++ rest)) := by
      simp [Links.render]
    have hwidth : pos + width (Links.quoted phrase l).render =
        pos + 3 + width phrase.render + 1 + width l.render := by
      simp [Links.render, Char.utf8Size]
      omega
    obtain ⟨h1, h2⟩ := transform_written name hv ha
    rw [htext, hwidth, h1, h2, hv', ha']
    exact ⟨rfl, rfl⟩
  | .call n args l, h, pos, rest => by
    obtain ⟨hv', ha'⟩ := links_written name l h (pos + 2 + width (renderCall n args)) rest
    have htext : (Links.call n args l).render ++ rest =
        '-' :: '>' :: (renderCall n args ++ (l.render ++ rest)) := by simp [Links.render]
    have hwidth : pos + width (Links.call n args l).render =
        pos + 2 + width (renderCall n args) + width l.render := by
      simp [Links.render, Char.utf8Size]
      omega
    obtain ⟨h1, h2⟩ := link_written name n args pos (l.render ++ rest)
    rw [htext, hwidth, h1, h2, hv', ha']
    exact ⟨rfl, rfl⟩
end

theorem stops_semicolon : Stops .semicolon ';' := ⟨rfl, by decide⟩

/-- a written list is read entry by entry -/
theorem entries_written (pos : Nat) (p : Phrase) (ps : List Phrase)
    (h : ∀ q ∈ p :: ps, q.WellFormed ';') :
    entries (ofText pos (render (p :: ps))) =
      (entryExprs pos (p :: ps), ofText (pos + width (render (p :: ps))) []) := by
  induction ps generalizing pos p with
  | nil =>
    have hend : ∀ d ∈ ([] : List Char).head?, d = ';' := by simp
    have hnone : (ofText (pos + width p.render) []).kind? ≠ some .semicolon := by
      simp [ofText, Token.lex, Tokens.kind?]
    have htext : render [p] = p.render ++ [] := by simp [render, List.intercalate]
    obtain ⟨hv, ha⟩ := phrase_written p stops_semicolon (h p List.mem_cons_self) pos hend
    rw [htext, entries_last ha hnone, hv, Text.width_append, Text.width_nil]
    rfl
  | cons q ps ih =>
    have hend : ∀ d ∈ (';' :: render (q :: ps)).head?, d = ';' := by
      rintro d ⟨⟩
      rfl
    have hkind : (ofText (pos + width p.render) (';' :: render (q :: ps))).kind? =
        some .semicolon := kind?_sign (k := .semicolon) rfl _ _
    have hadvance : (ofText (pos + width p.render) (';' :: render (q :: ps))).advance =
        ofText (pos + width p.render + 1) (render (q :: ps)) :=
      advance_sign (k := .semicolon) rfl _ _
    have htext : render (p :: q :: ps) = p.render ++ ';' :: render (q :: ps) := by
      simp [render, List.intercalate]
    have hwidth : pos + width (render (p :: q :: ps)) =
        pos + width p.render + 1 + width (render (q :: ps)) := by
      rw [htext]
      simp [Char.utf8Size]
      omega
    obtain ⟨hp, hq⟩ := List.forall_mem_cons.1 h
    obtain ⟨hv, ha⟩ := phrase_written p stops_semicolon hp pos hend
    rw [hwidth, htext, entries_more ha hkind, hadvance, ih _ q hq, hv]
    rfl

end Tokens

/-- Every list that can be written is read for what it is: literal texts and references where they
stand, each reference complete up to its own closing parenthesis, and one entry for each that was
written, whatever `;` there are inside references. -/
theorem Expr.parse_written (entries : List Written.Phrase) (hne : entries ≠ [])
    (h : ∀ p ∈ entries, p.WellFormed ';') (base : Nat) :
    Expr.parse (String.ofList (Written.render entries)) base =
      Expr.ofEntries base (base + width (Written.render entries))
        (Written.entryExprs base entries) := by
  obtain ⟨p, ps, rfl⟩ := List.exists_cons_of_ne_nil hne
  have hread := Tokens.entries_written base p ps h
  rw [Tokens.ofText] at hread
  rw [Expr.parse, String.toList_ofList, hread]
  rfl

/-- a transform that holds a `;` and a call whose arguments hold one in quotes -/
theorem Expr.parse_written_nested :
    let x : Written.Ident := ⟨['X'], by decide⟩
    let args : Written.Arguments := ⟨"(';)')".toList, by decide⟩
    let entries : List Written.Phrase :=
      [.literal ['a'] (.reference (.item x (.quoted (.reference (.metadata x) (.literal [';'] .nil))
        (.call x args .nil)) (some ⟨[';'], by decide⟩)) .nil), .nil]
    (entries ≠ [] ∧ ∀ p ∈ entries, p.WellFormed ';') ∧
      Expr.parse (String.ofList (Written.render entries)) 3 =
        Expr.ofEntries 3 (3 + width (Written.render entries)) (Written.entryExprs 3 entries) := by
  intro x args entries
  have hne : entries ≠ [] := by simp [entries]
  have h : ∀ p ∈ entries, p.WellFormed ';' := by
    decide
  exact ⟨⟨hne, h⟩, Expr.parse_written entries hne h 3⟩

end ProjectSense
