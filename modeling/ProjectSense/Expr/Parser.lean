import ProjectSense.Expr.Token
import ProjectSense.Expr.Basic

/-!
# Reading expressions

Reading never fails: a reference that is still being typed becomes a node that is not complete, so
that what the cursor is in is known.

* `Expr.ofParts_nil`, `Expr.ofParts_singleton`, `Expr.ofParts_cons_cons`: the node of parts.
* `Expr.ofEntries_singleton`, `Expr.ofEntries_cons_cons`: the node of entries.
* `Expr.parse`: the expression of a text that begins at an offset.
-/

namespace ProjectSense

/-- the tokens not yet read and the offset at which they start -/
structure Tokens where
  pos : Nat
  rest : List Token
deriving DecidableEq, Repr

namespace Expr

/-- one node for the parts read from `start` to `stop` -/
def ofParts (start stop : Nat) : List Expr → Expr
  | [] => emptyText start
  | [part] => part
  | parts => .concat ⟨start, stop⟩ parts

@[simp] theorem ofParts_nil (start stop : Nat) : ofParts start stop [] = emptyText start := rfl

@[simp] theorem ofParts_singleton (start stop : Nat) (part : Expr) :
    ofParts start stop [part] = part := rfl

@[simp] theorem ofParts_cons_cons (start stop : Nat) (first second : Expr) (parts : List Expr) :
    ofParts start stop (first :: second :: parts) =
      .concat ⟨start, stop⟩ (first :: second :: parts) := rfl

end Expr

namespace Tokens

/-- the position after the first token -/
def advance (ts : Tokens) : Tokens :=
  ⟨ts.pos + Text.width (Token.texts (ts.rest.take 1)), ts.rest.drop 1⟩

/-- passes the tokens while their kinds satisfy `p` -/
def takeWhile (p : TokenKind → Bool) (ts : Tokens) : List Char × Tokens :=
  let taken := Token.texts (ts.rest.takeWhile (p ·.kind))
  (taken, ⟨ts.pos + Text.width taken, ts.rest.dropWhile (p ·.kind)⟩)

def skipBlanks (ts : Tokens) : Tokens := (ts.takeWhile (· = .blank)).2

/-- the kind of the next token -/
def kind? (ts : Tokens) : Option TokenKind := ts.rest.head?.map (·.kind)

/-- passes the next token if it has the kind -/
def eat (kind : TokenKind) (ts : Tokens) : Tokens :=
  if ts.kind? = some kind then ts.advance else ts

/-- the name that comes next, empty if none does -/
def word (ts : Tokens) : Word × Tokens :=
  match ts.rest with
  | ⟨.ident, text⟩ :: _ =>
    (⟨String.ofList text, ⟨ts.pos, ts.advance.pos⟩⟩, ts.advance)
  | _ => (⟨"", .empty ts.pos⟩, ts)

/-- passes everything up to the parenthesis that closes the one at hand; quoted text is passed
whole.  `depth` more are open, and `quoted` tells that a quote is. -/
def closeIn (depth : Nat) (quoted : Bool) (pos : Nat) : List Token → Bool × Tokens
  | [] => (false, ⟨pos, []⟩)
  | t :: ts =>
    let pos' := pos + Text.width t.text
    if quoted then closeIn depth (t.kind ≠ .quote) pos' ts
    else match t.kind with
      | .propertyOpen | .itemOpen | .metadataOpen | .leftParen => closeIn (depth + 1) false pos' ts
      | .rightParen => if depth = 0 then (true, ⟨pos', ts⟩) else closeIn (depth - 1) false pos' ts
      | .quote => closeIn depth true pos' ts
      | _ => closeIn depth false pos' ts

/-- passes everything up to the closing parenthesis; tells whether there was one -/
def close (ts : Tokens) : Bool × Tokens := closeIn 0 false ts.pos ts.rest

theorem length_advance_le (ts : Tokens) : ts.advance.rest.length ≤ ts.rest.length := by
  simp [advance]

theorem length_advance_lt {ts : Tokens} (h : ts.rest ≠ []) :
    ts.advance.rest.length < ts.rest.length := by
  have := List.length_pos_iff.2 h
  simp [advance]; omega

theorem length_takeWhile_le (p : TokenKind → Bool) (ts : Tokens) :
    (ts.takeWhile p).2.rest.length ≤ ts.rest.length :=
  (List.dropWhile_sublist _).length_le

theorem length_skipBlanks_le (ts : Tokens) : ts.skipBlanks.rest.length ≤ ts.rest.length :=
  length_takeWhile_le _ ts

theorem length_eat_le (kind : TokenKind) (ts : Tokens) :
    (ts.eat kind).rest.length ≤ ts.rest.length := by
  unfold eat; split
  · exact length_advance_le ts
  · exact Nat.le_refl _

theorem length_word_le (ts : Tokens) : ts.word.2.rest.length ≤ ts.rest.length := by
  unfold word; split
  · exact length_advance_le ts
  · exact Nat.le_refl _

theorem length_closeIn_le (depth : Nat) (quoted : Bool) (pos : Nat) (ts : List Token) :
    (closeIn depth quoted pos ts).2.rest.length ≤ ts.length := by
  induction ts generalizing depth quoted pos with
  | nil => simp [closeIn]
  | cons t ts ih =>
    rw [closeIn]
    split
    · exact Nat.le_succ_of_le (ih ..)
    · split
      case h_5 =>
        split
        · exact Nat.le_succ _
        · exact Nat.le_succ_of_le (ih ..)
      all_goals exact Nat.le_succ_of_le (ih ..)

theorem length_close_le (ts : Tokens) : ts.close.2.rest.length ≤ ts.rest.length :=
  length_closeIn_le ..

/-- a static call, from after its `[`, whose reference opened at `start` -/
def staticCall (start : Nat) (ts : Tokens) : Expr × Tokens :=
  let klass := ts.takeWhile fun k => k = .ident || k = .dot
  let bracket := klass.2.eat .rightBracket
  let name :=
    if bracket.kind? = some .colons then bracket.advance.word
    else (⟨"", .empty bracket.pos⟩, bracket)
  let closed := name.2.close.2
  (.call ⟨start, closed.pos⟩ (.klass (String.ofList klass.1)) ⟨ts.pos, klass.2.pos⟩ name.1, closed)

/-- a property reference or a call on one, from after its opener at `start` -/
def property (start : Nat) (ts : Tokens) : Expr × Tokens :=
  let inner := ts.skipBlanks
  if inner.kind? = some .leftBracket then staticCall start inner.advance
  else if inner.kind? = some .ident then
    let name := inner.word
    let next := name.2.skipBlanks
    if next.kind? = some .dot then
      let called := next.advance.word
      let closed := called.2.close.2
      (.call ⟨start, closed.pos⟩ (.property name.1.text) name.1.span called.1, closed)
    else
      let closed := next.close
      (.property ⟨start, closed.2.pos⟩ name.1 closed.1, closed.2)
  else
    let closed := inner.close
    (.property ⟨start, closed.2.pos⟩ ⟨"", .empty inner.pos⟩ closed.1, closed.2)

/-- a metadata reference, from after its opener at `start` -/
def metadata (start : Nat) (ts : Tokens) : Expr × Tokens :=
  let first := ts.skipBlanks.word
  if first.2.kind? = some .dot then
    let second := first.2.advance.word
    let closed := second.2.skipBlanks.close
    (.metadata ⟨start, closed.2.pos⟩ (some first.1) second.1 closed.1, closed.2)
  else
    let closed := first.2.skipBlanks.close
    (.metadata ⟨start, closed.2.pos⟩ none first.1 closed.1, closed.2)

/-- a call on the items before, from its name on -/
def itemCall (item : Word) (ts : Tokens) : Expr × Tokens :=
  let name := ts.word
  let closed := if name.2.kind? = some .leftParen then name.2.advance.close.2 else name.2
  (.call ⟨ts.pos, closed.pos⟩ (.item item.text) item.span name.1, closed)

/-- the separator after a comma, if a quoted one comes next -/
def separator (ts : Tokens) : Option String × Tokens :=
  let inner := ts.skipBlanks
  if inner.kind? = some .quote then
    let quoted := inner.advance.takeWhile (· ≠ .quote)
    (some (String.ofList quoted.1), quoted.2.eat .quote)
  else (none, inner)

theorem length_staticCall_le (start : Nat) (ts : Tokens) :
    (staticCall start ts).2.rest.length ≤ ts.rest.length := by
  have h1 := ts.length_takeWhile_le fun k => k = .ident || k = .dot
  have h2 := (ts.takeWhile fun k => k = .ident || k = .dot).2.length_eat_le .rightBracket
  simp only [staticCall]
  refine Nat.le_trans (Tokens.length_close_le _) ?_
  split
  · exact Nat.le_trans (Tokens.length_word_le _) (Nat.le_trans (Tokens.length_advance_le _)
      (Nat.le_trans h2 h1))
  · exact Nat.le_trans h2 h1

theorem length_property_le (start : Nat) (ts : Tokens) :
    (property start ts).2.rest.length ≤ ts.rest.length := by
  have h1 := ts.length_skipBlanks_le
  simp only [property]
  split
  · exact Nat.le_trans (length_staticCall_le ..) (Nat.le_trans (Tokens.length_advance_le _) h1)
  split
  · have h2 := Nat.le_trans ts.skipBlanks.word.2.length_skipBlanks_le
      (Nat.le_trans ts.skipBlanks.length_word_le h1)
    split
    · exact Nat.le_trans (Tokens.length_close_le _) (Nat.le_trans (Tokens.length_word_le _)
        (Nat.le_trans (Tokens.length_advance_le _) h2))
    · exact Nat.le_trans (Tokens.length_close_le _) h2
  · exact Nat.le_trans (Tokens.length_close_le _) h1

theorem length_metadata_le (start : Nat) (ts : Tokens) :
    (metadata start ts).2.rest.length ≤ ts.rest.length := by
  have h1 := Nat.le_trans ts.skipBlanks.length_word_le ts.length_skipBlanks_le
  simp only [metadata]
  split
  · exact Nat.le_trans (Tokens.length_close_le _) (Nat.le_trans (Tokens.length_skipBlanks_le _)
      (Nat.le_trans (Tokens.length_word_le _) (Nat.le_trans (Tokens.length_advance_le _) h1)))
  · exact Nat.le_trans (Tokens.length_close_le _)
      (Nat.le_trans (Tokens.length_skipBlanks_le _) h1)

theorem length_itemCall_le (item : Word) (ts : Tokens) :
    (itemCall item ts).2.rest.length ≤ ts.rest.length := by
  have h1 := ts.length_word_le
  simp only [itemCall]
  split
  · exact Nat.le_trans (Tokens.length_close_le _) (Nat.le_trans (Tokens.length_advance_le _) h1)
  · exact h1

theorem length_separator_le (ts : Tokens) :
    (separator ts).2.rest.length ≤ ts.rest.length := by
  have h1 := ts.length_skipBlanks_le
  simp only [separator]
  split
  · exact Nat.le_trans (Tokens.length_eat_le _ _) (Nat.le_trans (Tokens.length_takeWhile_le _ _)
      (Nat.le_trans (Tokens.length_advance_le _) h1))
  · exact h1

theorem rest_ne_nil_of_kind? {ts : Tokens} {kind : TokenKind} (h : ts.kind? = some kind) :
    ts.rest ≠ [] := by
  intro hn; simp [kind?, hn] at h

/-- what was read, the tokens after it, and that these are at most `limit` -/
structure Read (α : Type) (limit : Nat) where
  value : α
  after : Tokens
  le : after.rest.length ≤ limit

/-- a reading step that never goes back -/
def Read.of {α : Type} {limit : Nat} (r : α × Tokens) (h : r.2.rest.length ≤ limit) :
    Read α limit := ⟨r.1, r.2, h⟩

mutual
/-- the literal texts and references up to a token of kind `stop`, or to the end -/
def parts (stop : TokenKind) (ts : Tokens) : Read (List Expr) ts.rest.length :=
  if hk : ts.kind? = none ∨ ts.kind? = some stop then ⟨[], ts, Nat.le_refl _⟩
  else
    have hlt : ts.advance.rest.length < ts.rest.length :=
      length_advance_lt (by intro hn; simp [kind?, hn] at hk)
    match part stop ts.kind? ts.pos (ts.rest.take 1) ts.advance with
    | ⟨first, after, le⟩ =>
      match parts stop after with
      | ⟨more, last, le'⟩ => ⟨first :: more, last, by omega⟩
termination_by 3 * ts.rest.length

/-- the text or reference that begins at `start` with the token `head`, of kind `kind?` -/
def part (stop : TokenKind) (kind? : Option TokenKind) (start : Nat) (head : List Token)
    (ts : Tokens) : Read Expr ts.rest.length :=
  match kind? with
  | some .propertyOpen => .of (property start ts) (length_property_le start ts)
  | some .metadataOpen => .of (metadata start ts) (length_metadata_le start ts)
  | some .itemOpen =>
    match h : ts.skipBlanks.word with
    | (name, named) =>
      have h1 : named.rest.length ≤ ts.rest.length := by
        have := ts.skipBlanks.length_word_le
        have := ts.length_skipBlanks_le
        simp only [h] at *; omega
      match links name named with
      | ⟨(transforms, separator), tail, le⟩ =>
        let closed := tail.close
        ⟨.item ⟨start, closed.2.pos⟩ name transforms separator closed.1, closed.2,
          Nat.le_trans tail.length_close_le (Nat.le_trans le h1)⟩
  | _ =>
    let run := ts.takeWhile fun k => k ≠ stop && !k.isOpener
    ⟨.text ⟨start, run.2.pos⟩ (String.ofList (Token.texts head ++ run.1)), run.2,
      length_takeWhile_le _ ts⟩
termination_by 3 * ts.rest.length + 2

/-- the transforms and the separator after an item's name -/
def links (name : Word) (ts : Tokens) : Read (List Expr × Option String) ts.rest.length :=
  match hn : ts.skipBlanks with
  | next =>
    have h1 : next.rest.length ≤ ts.rest.length := hn ▸ ts.length_skipBlanks_le
    if hk : next.kind? = some .arrow then
      have hlt := length_advance_lt (rest_ne_nil_of_kind? hk)
      match ht : next.advance.skipBlanks with
      | target =>
        have h2 : target.rest.length ≤ next.advance.rest.length :=
          ht ▸ next.advance.length_skipBlanks_le
        if target.kind? = some .quote then
          have h3 := target.length_advance_le
          match parts .quote target.advance with
          | ⟨quoted, after, le⟩ =>
            have h4 := after.length_eat_le .quote
            match links name (after.eat .quote) with
            | ⟨(more, separator), last, le'⟩ =>
              ⟨(Expr.ofParts target.advance.pos after.pos quoted :: more, separator), last,
                by omega⟩
        else if target.kind? = some .ident then
          match Read.of (itemCall name target) (length_itemCall_le name target) with
          | ⟨call, after, le⟩ =>
            match links name after with
            | ⟨(more, separator), last, le'⟩ => ⟨(call :: more, separator), last, by omega⟩
        else
          match links name target with
          | ⟨found, last, le'⟩ => ⟨found, last, by omega⟩
    else if hc : next.kind? = some .comma then
      have hlt := length_advance_lt (rest_ne_nil_of_kind? hc)
      match Read.of (separator next.advance) (length_separator_le next.advance) with
      | ⟨separator, after, le⟩ =>
        match links name after with
        | ⟨(more, later), last, le'⟩ => ⟨(more, later <|> separator), last, by omega⟩
    else ⟨([], none), next, h1⟩
termination_by 3 * ts.rest.length + 1
end

/-- the entries of a list, each from `ts` up to the next `;` -/
def entries (ts : Tokens) : List Expr × Tokens :=
  match parts .semicolon ts with
  | ⟨first, after, _⟩ =>
    let entry := Expr.ofParts ts.pos after.pos first
    if h : after.kind? = some .semicolon then
      have _ := length_advance_lt (rest_ne_nil_of_kind? h)
      let more := entries after.advance
      (entry :: more.1, more.2)
    else ([entry], after)
termination_by ts.rest.length

end Tokens

namespace Expr

/-- one entry stands for itself -/
def ofEntries (start stop : Nat) : List Expr → Expr
  | [entry] => entry
  | entries => .list ⟨start, stop⟩ entries

@[simp] theorem ofEntries_nil (start stop : Nat) :
    ofEntries start stop [] = .list ⟨start, stop⟩ [] := rfl

@[simp] theorem ofEntries_singleton (start stop : Nat) (entry : Expr) :
    ofEntries start stop [entry] = entry := rfl

@[simp] theorem ofEntries_cons_cons (start stop : Nat) (first second : Expr)
    (entries : List Expr) : ofEntries start stop (first :: second :: entries) =
      .list ⟨start, stop⟩ (first :: second :: entries) := rfl

/-- the expression of a text whose first byte is at `base` -/
def parse (text : String) (base : Nat) : Expr :=
  let found := Tokens.entries ⟨base, Token.lex text.toList⟩
  ofEntries base found.2.pos found.1

end Expr
end ProjectSense
