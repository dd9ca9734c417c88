import ProjectSense.Proofs.Checked.Slice
import ProjectSense.Proofs.Expr.Normal

/-!
# Reading expressions by indices

The reader of expressions once more, as a program that holds the tokens with their spans and the
index of the next one.  Texts are cut out of the source after the offset of its first byte has been
taken off the ends of their spans.

* `Checked.source?_eq`: the tokens stand where the lexer finds them.
* `Checked.parts?_eq`, `Checked.part?_eq`, `Checked.links?_eq`: the readers, by recursion on the
  tokens that are left.
* `Checked.parse?_eq`: every expression of a short text is read.
-/

namespace ProjectSense.Checked

open Text (width)

/-! ### Tokens and their places -/

/-- a token and where it stands -/
structure Piece where
  kind : TokenKind
  text : List Char
  span : Span

/-- a text whose first byte is at `base`, and its tokens -/
structure Source where
  base : Nat
  text : List Char
  pieces : List Piece

/-- cuts the tokens out of the text, the first of them `start` bytes after its beginning -/
def pieces? (base : Nat) (text : List Char) (start : Nat) : List Token → Option (List Piece)
  | [] => some []
  | t :: ts => do
    let stop := start + width t.text
    let found ← slice? start stop text
    let span ← span? (base + start) (base + stop)
    let more ← pieces? base text stop ts
    some (⟨t.kind, found, span⟩ :: more)

def source? (text : List Char) (base : Nat) : Option Source := do
  let pieces ← pieces? base text 0 (Token.lex text)
  some ⟨base, text, pieces⟩

/-! ### The reader -/

namespace Source

variable (src : Source)

def kind? (p : Nat) : Option TokenKind := src.pieces[p]?.map (·.kind)

/-- the end of the last token read; the start of the first one if none was -/
def offset? (p : Nat) : Option Nat :=
  if p = 0 then some ((src.pieces.head?.map (·.span.start)).getD src.base)
  else src.pieces[p - 1]?.map (·.span.stop)

/-- the text of a span -/
def cut? (s : Span) : Option (List Char) := do
  let start ← sub? s.start src.base
  let stop ← sub? s.stop src.base
  slice? start stop src.text

/-- passes the next token if it has the kind -/
def eat (kind : TokenKind) (p : Nat) : Nat := if src.kind? p = some kind then p + 1 else p

/-- passes the tokens while their kinds satisfy `holds` -/
def skip (holds : TokenKind → Bool) (p : Nat) : Nat :=
  p + ((src.pieces.drop p).takeWhile (holds ·.kind)).length

def skipBlanks (p : Nat) : Nat := src.skip (· = .blank) p

/-- a name still to be typed -/
def missing? (p : Nat) : Option (Word × Nat) := do
  let pos ← src.offset? p
  some (⟨"", .empty pos⟩, p)

/-- the name that comes next, empty if none does -/
def name? (p : Nat) : Option (Word × Nat) :=
  if src.kind? p = some .ident then do
    let piece ← src.pieces[p]?
    some (⟨String.ofList piece.text, piece.span⟩, p + 1)
  else src.missing? p

/-- passes everything up to the parenthesis that closes the last of `depth` open ones -/
def closeIn? (depth : Nat) (quoted : Bool) (p : Nat) : List Piece → Option (Bool × Nat)
  | [] => some (false, p)
  | piece :: pieces =>
    if quoted then closeIn? depth (piece.kind ≠ .quote) (p + 1) pieces
    else match piece.kind with
      | .propertyOpen | .itemOpen | .metadataOpen | .leftParen =>
        closeIn? (depth + 1) false (p + 1) pieces
      | .rightParen => do
        let depth ← sub? depth 1
        if depth = 0 then some (true, p + 1) else closeIn? depth false (p + 1) pieces
      | .quote => closeIn? depth true (p + 1) pieces
      | _ => closeIn? depth false (p + 1) pieces

/-- passes everything up to the closing parenthesis; tells whether there was one -/
def close? (p : Nat) : Option (Bool × Nat) := closeIn? 1 false p (src.pieces.drop p)

/-- the node that was read from the offset `start` on -/
def node? (start p : Nat) (node : Span → Expr) : Option (Expr × Nat) := do
  let stop ← src.offset? p
  let span ← span? start stop
  some (node span, p)

/-- the node up to the closing parenthesis; `node` learns whether there was one -/
def closed? (start p : Nat) (node : Bool → Span → Expr) : Option (Expr × Nat) := do
  let (complete, after) ← src.close? p
  src.node? start after (node complete)

def staticCall? (start p : Nat) : Option (Expr × Nat) := do
  let first ← src.offset? p
  let after := src.skip (fun k => k = .ident || k = .dot) p
  let last ← src.offset? after
  let klassSpan ← span? first last
  let klass ← src.cut? klassSpan
  let bracket := src.eat .rightBracket after
  let (name, after) ←
    if src.kind? bracket = some .colons then src.name? (bracket + 1) else src.missing? bracket
  src.closed? start after fun _ span => .call span (.klass (String.ofList klass)) klassSpan name

def property? (start p : Nat) : Option (Expr × Nat) := do
  let inner := src.skipBlanks p
  if src.kind? inner = some .leftBracket then src.staticCall? start (inner + 1)
  else if src.kind? inner = some .ident then
    let (name, after) ← src.name? inner
    let next := src.skipBlanks after
    if src.kind? next = some .dot then
      let (called, after) ← src.name? (next + 1)
      src.closed? start after fun _ span => .call span (.property name.text) name.span called
    else src.closed? start next fun complete span => .property span name complete
  else
    let (name, after) ← src.missing? inner
    src.closed? start after fun complete span => .property span name complete

def metadata? (start p : Nat) : Option (Expr × Nat) := do
  let (first, after) ← src.name? (src.skipBlanks p)
  if src.kind? after = some .dot then
    let (second, after) ← src.name? (after + 1)
    src.closed? start (src.skipBlanks after) fun complete span =>
      .metadata span (some first) second complete
  else
    src.closed? start (src.skipBlanks after) fun complete span =>
      .metadata span none first complete

def itemCall? (item : Word) (p : Nat) : Option (Expr × Nat) := do
  let (name, after) ← src.name? p
  let last ←
    if src.kind? after = some .leftParen then (src.close? (after + 1)).map (·.2) else some after
  src.node? name.span.start last fun span => .call span (.item item.text) item.span name

def separator? (p : Nat) : Option (Option String × Nat) := do
  let inner := src.skipBlanks p
  if src.kind? inner = some .quote then
    let start ← src.offset? (inner + 1)
    let after := src.skip (· ≠ .quote) (inner + 1)
    let stop ← src.offset? after
    let span ← span? start stop
    let raw ← src.cut? span
    some (some (String.ofList raw), src.eat .quote after)
  else some (none, inner)

/-- one node for the parts read from `start` on -/
def ofParts? (start p : Nat) : List Expr → Option Expr
  | [] => some (.emptyText start)
  | [part] => some part
  | first :: second :: parts => do
    let stop ← src.offset? p
    let span ← span? first.span.start stop
    some (.concat span (first :: second :: parts))

/-- what follows the arrow at `p` and blanks -/
def target (p : Nat) : Nat := src.skipBlanks (src.skipBlanks p + 1)

mutual

/-- the literal texts and references up to a token of kind `stop`, or to the end -/
def parts? (stop : TokenKind) (p : Nat) : Option (List Expr × Nat) :=
  if src.kind? p = none ∨ src.kind? p = some stop then some ([], p)
  else do
    let (first, after) ← part? stop p
    if _h : p < after ∧ after ≤ src.pieces.length then
      let (more, last) ← parts? stop after
      some (first :: more, last)
    else none
termination_by 2 * (src.pieces.length - p) + 1

/-- the text or reference that begins with the next token -/
def part? (stop : TokenKind) (p : Nat) : Option (Expr × Nat) := do
  let piece ← src.pieces[p]?
  let start := piece.span.start
  match piece.kind with
  | .propertyOpen => src.property? start (p + 1)
  | .metadataOpen => src.metadata? start (p + 1)
  | .itemOpen =>
    let (name, named) ← src.name? (src.skipBlanks (p + 1))
    if _h : p < named ∧ named ≤ src.pieces.length then
      let ((transforms, separator), tail) ← links? name named
      src.closed? start tail fun complete span => .item span name transforms separator complete
    else none
  | _ =>
    let last := src.skip (fun k => k ≠ stop && !k.isOpener) (p + 1)
    let stop ← src.offset? last
    let span ← span? start stop
    let raw ← src.cut? span
    some (.text span (String.ofList raw), last)
termination_by 2 * (src.pieces.length - p)

/-- the transforms and the separator after an item's name -/
def links? (name : Word) (p : Nat) : Option ((List Expr × Option String) × Nat) :=
  if src.kind? (src.skipBlanks p) = some .arrow then
    if src.kind? (src.target p) = some .quote then
      if _h : p < src.target p + 1 ∧ src.target p + 1 ≤ src.pieces.length then do
        let start ← src.offset? (src.target p + 1)
        let (quoted, last) ← parts? .quote (src.target p + 1)
        let transform ← src.ofParts? start last quoted
        if _h : p < src.eat .quote last ∧ src.eat .quote last ≤ src.pieces.length then
          let ((more, separator), last) ← links? name (src.eat .quote last)
          some ((transform :: more, separator), last)
        else none
      else none
    else if src.kind? (src.target p) = some .ident then do
      let (call, after) ← src.itemCall? name (src.target p)
      if _h : p < after ∧ after ≤ src.pieces.length then
        let ((more, separator), last) ← links? name after
        some ((call :: more, separator), last)
      else none
    else if _h : p < src.target p ∧ src.target p ≤ src.pieces.length then
      links? name (src.target p)
    else none
  else if src.kind? (src.skipBlanks p) = some .comma then do
    let (separator, after) ← src.separator? (src.skipBlanks p + 1)
    if _h : p < after ∧ after ≤ src.pieces.length then
      let ((more, later), last) ← links? name after
      some ((more, later <|> separator), last)
    else none
  else some (([], none), src.skipBlanks p)
termination_by 2 * (src.pieces.length - p) + 1

end

/-- the entries of a list, each from `p` up to the next `;` -/
def entries? (p : Nat) : Option (List Expr × Nat) := do
  let start ← src.offset? p
  let (first, after) ← src.parts? .semicolon p
  let entry ← src.ofParts? start after first
  if src.kind? after = some .semicolon then
    if _h : p < after + 1 ∧ after + 1 ≤ src.pieces.length then
      let (more, last) ← entries? (after + 1)
      some (entry :: more, last)
    else none
  else some ([entry], after)
termination_by src.pieces.length - p

/-- one entry stands for itself -/
def ofEntries? (start p : Nat) : List Expr → Option Expr
  | [entry] => some entry
  | entries => do
    let stop ← src.offset? p
    let span ← span? start stop
    some (.list span entries)

end Source

/-- the expression of a text whose first byte is at `base` -/
def parse? (text : String) (base : Nat) : Option Expr := do
  let src ← source? text.toList base
  let start ← src.offset? 0
  let (entries, last) ← src.entries? 0
  src.ofEntries? start last entries

/-! ### Indices and positions -/

/-- the tokens with their places, the first of them at `pos` -/
def placed (pos : Nat) : List Token → List Piece
  | [] => []
  | t :: ts => ⟨t.kind, t.text, ⟨pos, pos + width t.text⟩⟩ :: placed (pos + width t.text) ts

theorem length_placed (pos : Nat) (ts : List Token) : (placed pos ts).length = ts.length := by
  induction ts generalizing pos with
  | nil => rfl
  | cons t ts ih => exact congrArg (· + 1) (ih _)

theorem length_takeWhile_placed (holds : TokenKind → Bool) (pos : Nat) (ts : List Token) :
    ((placed pos ts).takeWhile (holds ·.kind)).length = (ts.takeWhile (holds ·.kind)).length := by
  induction ts generalizing pos with
  | nil => rfl
  | cons t ts ih =>
    rw [placed, List.takeWhile_cons, List.takeWhile_cons]
    split
    · exact congrArg (· + 1) (ih _)
    · rfl

/-- tokens that cover a text can be cut out of it -/
theorem pieces?_eq (base : Nat) (ts : List Token) (front : List Char)
    (hw : base + width (front ++ Token.texts ts) < UInt32.size) :
    pieces? base (front ++ Token.texts ts) (width front) ts =
      some (placed (base + width front) ts) := by
  induction ts generalizing front with
  | nil => rfl
  | cons t ts ih =>
    rw [Token.texts_cons] at hw ⊢
    have hwidth : width (front ++ (t.text ++ Token.texts ts)) =
        width front + (width t.text + width (Token.texts ts)) := by
      rw [Text.width_append, Text.width_append]
    have hspan : span? (base + width front) (base + (width front + width t.text)) =
        some ⟨base + width front, base + (width front + width t.text)⟩ :=
      span?_of_le (by omega) (by omega)
    have hmore := ih (front ++ t.text) (by rwa [List.append_assoc])
    rw [List.append_assoc, Text.width_append] at hmore
    simp only [pieces?, slice?_append, hspan, hmore, Option.bind_eq_bind, Option.bind_some, placed,
      Nat.add_assoc]

theorem source?_eq {text : List Char} {base : Nat} (hw : base + width text < UInt32.size) :
    source? text base = some ⟨base, text, placed base (Token.lex text)⟩ := by
  have hpieces := pieces?_eq base (Token.lex text) [] (by rwa [Token.texts_lex])
  rw [Token.texts_lex] at hpieces
  rw [source?]
  exact congrArg (· >>= fun pieces => some (⟨base, text, pieces⟩ : Source)) hpieces

namespace Source

open Tokens (length_advance_lt rest_ne_nil_of_kind?)

/-- the tokens not yet read are those from the index on -/
structure At (src : Source) (ts : Tokens) (p : Nat) : Prop where
  inside : ts.In src.base src.text
  rest : src.pieces.drop p = placed ts.pos ts.rest
  le : p ≤ src.pieces.length
  offset : src.offset? p = some ts.pos

variable {src : Source} {ts us : Tokens} {taken : List Token} {p q start : Nat} {k : TokenKind}

theorem At.left (h : src.At ts p) : p + ts.rest.length = src.pieces.length := by
  have hlength := congrArg List.length h.rest
  rw [List.length_drop, length_placed] at hlength
  have hle := h.le
  omega

/-- whoever leaves tokens behind has moved on -/
theorem At.lt (h : src.At ts p) (g : src.At us q) (hlt : us.rest.length < ts.rest.length) :
    p < q ∧ q ≤ src.pieces.length := by
  have h1 := h.left
  have h2 := g.left
  omega

theorem At.piece (h : src.At ts p) {t : Token} {rest : List Token} (hr : ts.rest = t :: rest) :
    src.pieces[p]? = some ⟨t.kind, t.text, ⟨ts.pos, ts.pos + width t.text⟩⟩ := by
  rw [← List.head?_drop, h.rest, hr]
  rfl

theorem At.kind (h : src.At ts p) : src.kind? p = ts.kind? := by
  rw [Source.kind?, ← List.head?_drop, h.rest, Tokens.kind?]
  cases ts.rest <;> rfl

/-- one token further -/
theorem At.step (h : src.At ts p) {t : Token} {rest : List Token} (hr : ts.rest = t :: rest) :
    src.At ⟨ts.pos + width t.text, rest⟩ (p + 1) := by
  have hpass : ts.Passes [t] ⟨ts.pos + width t.text, rest⟩ := ⟨hr, by simp⟩
  have hleft := h.left
  rw [hr, List.length_cons] at hleft
  refine ⟨h.inside.leads hpass.leads, ?_, by omega, ?_⟩
  · rw [← List.drop_drop, h.rest, hr]
    rfl
  · rw [Source.offset?, if_neg (Nat.succ_ne_zero p), Nat.add_sub_cancel, h.piece hr]
    rfl

theorem At.passes (h : src.At ts p) (g : ts.Passes taken us) :
    src.At us (p + taken.length) := by
  induction taken generalizing ts p with
  | nil =>
    obtain ⟨hrest, hpos⟩ := g
    obtain rfl : us = ts := by
      cases us
      cases ts
      simp_all
    exact h
  | cons t taken ih =>
    obtain ⟨hrest, hpos⟩ := g
    have hmore : (⟨ts.pos + width t.text, taken ++ us.rest⟩ : Tokens).Passes taken us := by
      refine ⟨rfl, ?_⟩
      rw [hpos, Token.texts_cons, Text.width_append, Nat.add_assoc]
    have hlast := ih (h.step hrest) hmore
    rwa [List.length_cons, Nat.add_comm taken.length, ← Nat.add_assoc]

theorem At.advance (h : src.At ts p) (hk : ts.kind? = some k) : src.At ts.advance (p + 1) := by
  obtain ⟨t, rest, hr⟩ := List.exists_cons_of_ne_nil (rest_ne_nil_of_kind? hk)
  have hlast := h.passes (Tokens.passes_advance ts)
  rwa [hr] at hlast

theorem At.skip (h : src.At ts p) (holds : TokenKind → Bool) :
    src.At (ts.takeWhile holds).2 (src.skip holds p) := by
  have hlast := h.passes (Tokens.passes_takeWhile holds ts)
  rwa [Source.skip, h.rest, length_takeWhile_placed]

theorem At.skipBlanks (h : src.At ts p) : src.At ts.skipBlanks (src.skipBlanks p) := h.skip _

theorem At.eat (h : src.At ts p) (kind : TokenKind) : src.At (ts.eat kind) (src.eat kind p) := by
  rw [Source.eat, Tokens.eat, h.kind]
  split
  · next hk => exact h.advance hk
  · exact h

theorem At.missing (h : src.At ts p) : src.missing? p = some (⟨"", .empty ts.pos⟩, p) := by
  rw [missing?, h.offset]
  rfl

theorem At.name (h : src.At ts p) : ∃ q, src.name? p = some (ts.word.1, q) ∧
    src.At ts.word.2 q := by
  rw [name?, h.kind]
  split
  · next hk =>
    obtain ⟨⟨kind, text⟩, rest, hr⟩ := List.exists_cons_of_ne_nil (rest_ne_nil_of_kind? hk)
    obtain rfl : kind = .ident := by
      rw [Tokens.kind?, hr] at hk
      exact Option.some.inj hk
    have hadvance : ts.advance.pos = ts.pos + width text := by
      rw [Tokens.advance, hr]
      simp
    refine ⟨p + 1, ?_, ?_⟩
    · rw [h.piece hr, Tokens.word, hr, hadvance]
      rfl
    · have hafter := h.advance hk
      rwa [Tokens.word, hr]
  · next hk =>
    have hword : ts.word = (⟨"", .empty ts.pos⟩, ts) := by
      unfold Tokens.word
      split
      · next text rest hr =>
        rw [Tokens.kind?, hr] at hk
        exact absurd rfl hk
      · rfl
    rw [hword]
    exact ⟨p, h.missing, h⟩

theorem closeIn?_eq {pos : Nat} {rest : List Token} (depth : Nat) (quoted : Bool)
    (h : src.At ⟨pos, rest⟩ p) : ∃ q, closeIn? (depth + 1) quoted p (placed pos rest) =
      some ((Tokens.closeIn depth quoted pos rest).1, q) ∧
        src.At (Tokens.closeIn depth quoted pos rest).2 q := by
  induction rest generalizing depth quoted pos p with
  | nil => exact ⟨p, rfl, h⟩
  | cons t rest ih =>
    have hstep := h.step rfl
    cases quoted with
    | true => exact ih depth _ hstep
    | false =>
      obtain ⟨kind, text⟩ := t
      cases kind with
      | propertyOpen | itemOpen | metadataOpen | leftParen => exact ih (depth + 1) false hstep
      | rightParen =>
        cases depth with
        | zero => exact ⟨p + 1, rfl, hstep⟩
        | succ depth => exact ih depth false hstep
      | quote => exact ih depth true hstep
      | _ => exact ih depth false hstep

theorem At.close (h : src.At ts p) : ∃ q, src.close? p = some (ts.close.1, q) ∧
    src.At ts.close.2 q := by
  rw [close?, h.rest]
  exact closeIn?_eq 0 false h

/-! ### References -/

/-- the source is short -/
def Short (src : Source) : Prop := src.base + width src.text < UInt32.size

section Short

variable (hw : src.Short)
include hw

theorem At.lt_size (h : src.At ts p) : ts.pos < UInt32.size := by
  have hstop := h.inside.cursor.stop
  have hpos : ts.cursor.pos = ts.pos := rfl
  rw [Short] at hw
  omega

theorem At.span (h : src.At ts p) (hle : start ≤ ts.pos) :
    span? start ts.pos = some ⟨start, ts.pos⟩ :=
  span?_of_le hle (h.lt_size hw)

omit hw in
/-- what was passed can be cut out -/
theorem At.cut (h : src.At ts p) (g : ts.Passes taken us) :
    src.cut? ⟨ts.pos, us.pos⟩ = some (Token.texts taken) := by
  obtain ⟨front, hfront⟩ := h.inside.cursor
  have hpass := g.cursor
  have hstart : ts.pos = src.base + width front := hfront.pos
  have hstop : us.pos = ts.pos + width (Token.texts taken) := hpass.pos
  have htext : src.text = front ++ (Token.texts taken ++ Token.texts us.rest) :=
    hfront.rest.trans (congrArg (front ++ ·) hpass.rest)
  have hslice := slice?_append front (Token.texts taken) (Token.texts us.rest)
  rw [← htext] at hslice
  have h1 : sub? ts.pos src.base = some (width front) := by
    rw [sub?_of_le (by omega)]
    exact congrArg some (by omega)
  have h2 : sub? us.pos src.base = some (width front + width (Token.texts taken)) := by
    rw [sub?_of_le (by omega)]
    exact congrArg some (by omega)
  simp only [cut?, h1, h2, hslice, Option.bind_eq_bind, Option.bind_some]

theorem At.node (h : src.At ts p) (hle : start ≤ ts.pos) (node : Span → Expr) :
    src.node? start p node = some (node ⟨start, ts.pos⟩, p) := by
  simp only [node?, h.offset, h.span hw hle, Option.bind_eq_bind, Option.bind_some]

theorem At.closed (h : src.At ts p) (hle : start ≤ ts.pos) (node : Bool → Span → Expr) :
    ∃ q, src.closed? start p node = some (node ts.close.1 ⟨start, ts.close.2.pos⟩, q) ∧
      src.At ts.close.2 q := by
  obtain ⟨q, hclose, hlast⟩ := h.close
  have hnode := hlast.node hw (Nat.le_trans hle (Tokens.leads_close ts).le) (node ts.close.1)
  refine ⟨q, ?_, hlast⟩
  simp only [closed?, hclose, hnode, Option.bind_eq_bind, Option.bind_some]

theorem staticCall?_eq (h : src.At ts p) (hle : start ≤ ts.pos) :
    ∃ q, src.staticCall? start p = some ((Tokens.staticCall start ts).1, q) ∧
      src.At (Tokens.staticCall start ts).2 q := by
  have hklass := Tokens.passes_takeWhile (fun k => k = .ident || k = .dot) ts
  have hafter := h.skip fun k => k = .ident || k = .dot
  have hbracket := hafter.eat .rightBracket
  have hspan := hafter.span hw hklass.leads.le
  have hcut := h.cut hklass
  have hleads := hklass.leads.trans (Tokens.leads_eat .rightBracket _)
  simp only [staticCall?, h.offset, hafter.offset, hspan, hcut, hbracket.kind,
    Option.bind_eq_bind, Option.bind_some, Tokens.staticCall]
  split
  · next hcolons =>
    obtain ⟨named, hname, hat⟩ := (hbracket.advance hcolons).name
    have hnamed := hleads.trans ((Tokens.leads_advance _).trans (Tokens.leads_word _))
    simp only [hname, Option.bind_some]
    exact hat.closed hw (Nat.le_trans hle hnamed.le) _
  · simp only [hbracket.missing, Option.bind_some]
    exact hbracket.closed hw (Nat.le_trans hle hleads.le) _

theorem property?_eq (h : src.At ts p) (hle : start ≤ ts.pos) :
    ∃ q, src.property? start p = some ((Tokens.property start ts).1, q) ∧
      src.At (Tokens.property start ts).2 q := by
  have hinner := h.skipBlanks
  have hleads := Tokens.leads_skipBlanks ts
  simp only [property?, hinner.kind, Tokens.property]
  split
  · next hbracket =>
    have hopen := hleads.trans (Tokens.leads_advance _)
    exact staticCall?_eq hw (hinner.advance hbracket) (Nat.le_trans hle hopen.le)
  split
  · obtain ⟨named, hname, hat⟩ := hinner.name
    have hnext := hat.skipBlanks
    have hnamed := hleads.trans ((Tokens.leads_word _).trans (Tokens.leads_skipBlanks _))
    simp only [hname, hnext.kind, Option.bind_eq_bind, Option.bind_some]
    split
    · next hdot =>
      obtain ⟨called, hcalled, hat⟩ := (hnext.advance hdot).name
      have hcall := hnamed.trans ((Tokens.leads_advance _).trans (Tokens.leads_word _))
      simp only [hcalled, Option.bind_some]
      exact hat.closed hw (Nat.le_trans hle hcall.le) _
    · exact hnext.closed hw (Nat.le_trans hle hnamed.le) _
  · simp only [hinner.missing, Option.bind_eq_bind, Option.bind_some]
    exact hinner.closed hw (Nat.le_trans hle hleads.le) _

theorem metadata?_eq (h : src.At ts p) (hle : start ≤ ts.pos) :
    ∃ q, src.metadata? start p = some ((Tokens.metadata start ts).1, q) ∧
      src.At (Tokens.metadata start ts).2 q := by
  obtain ⟨named, hname, hat⟩ := h.skipBlanks.name
  have hfirst := (Tokens.leads_skipBlanks ts).trans (Tokens.leads_word _)
  simp only [metadata?, hname, hat.kind, Option.bind_eq_bind, Option.bind_some, Tokens.metadata]
  split
  · next hdot =>
    obtain ⟨second, hsecond, hlast⟩ := (hat.advance hdot).name
    have hleads := hfirst.trans ((Tokens.leads_advance _).trans ((Tokens.leads_word _).trans
      (Tokens.leads_skipBlanks _)))
    simp only [hsecond, Option.bind_some]
    exact hlast.skipBlanks.closed hw (Nat.le_trans hle hleads.le) _
  · have hleads := hfirst.trans (Tokens.leads_skipBlanks _)
    exact hat.skipBlanks.closed hw (Nat.le_trans hle hleads.le) _

theorem itemCall?_eq (h : src.At ts p) (item : Word) :
    ∃ q, src.itemCall? item p = some ((Tokens.itemCall item ts).1, q) ∧
      src.At (Tokens.itemCall item ts).2 q := by
  obtain ⟨named, hname, hat⟩ := h.name
  have hleads := Tokens.leads_word ts
  have hstart : ts.word.1.span.start = ts.pos := by
    unfold Tokens.word
    split <;> rfl
  simp only [itemCall?, hname, hat.kind, hstart, Option.bind_eq_bind, Option.bind_some,
    Tokens.itemCall]
  split
  · next hparen =>
    obtain ⟨q, hclose, hlast⟩ := (hat.advance hparen).close
    have hclosed := hleads.trans ((Tokens.leads_advance _).trans (Tokens.leads_close _))
    refine ⟨q, ?_, hlast⟩
    simp only [hclose, Option.map_some, Option.bind_some]
    exact hlast.node hw hclosed.le _
  · exact ⟨named, hat.node hw hleads.le _, hat⟩

theorem separator?_eq (h : src.At ts p) :
    ∃ q, src.separator? p = some ((Tokens.separator ts).1, q) ∧
      src.At (Tokens.separator ts).2 q := by
  have hinner := h.skipBlanks
  simp only [separator?, hinner.kind, Tokens.separator]
  split
  · next hquote =>
    have hopen := hinner.advance hquote
    have hquoted := Tokens.passes_takeWhile (· ≠ .quote) ts.skipBlanks.advance
    have hafter := hopen.skip (· ≠ .quote)
    have hspan := hafter.span hw hquoted.leads.le
    have hcut := hopen.cut hquoted
    refine ⟨_, ?_, hafter.eat .quote⟩
    simp only [hopen.offset, hafter.offset, hspan, hcut, Option.bind_eq_bind, Option.bind_some]
    rfl
  · exact ⟨_, rfl, hinner⟩

/-- a node for parts that begin where they were read -/
theorem ofParts?_eq {parts : List Expr} (h : src.At us q) (hle : start ≤ us.pos)
    (hfirst : ∀ e ∈ parts.head?, e.span.start = start) :
    src.ofParts? start q parts = some (Expr.ofParts start us.pos parts) := by
  match parts with
  | [] => rw [ofParts?, Expr.ofParts_nil]
  | [part] => rw [ofParts?, Expr.ofParts_singleton]
  | first :: second :: parts =>
    have hstart : first.span.start = start := hfirst first rfl
    have hspan := h.span hw hle
    simp only [ofParts?, h.offset, hstart, hspan, Option.bind_eq_bind, Option.bind_some,
      Expr.ofParts_cons_cons]

/-- one entry stands for itself -/
theorem ofEntries?_eq (entries : List Expr) (h : src.At us q) (hle : start ≤ us.pos) :
    src.ofEntries? start q entries = some (Expr.ofEntries start us.pos entries) := by
  have hspan := h.span hw hle
  match entries with
  | [] =>
    simp only [ofEntries?, h.offset, hspan, Option.bind_eq_bind, Option.bind_some,
      Expr.ofEntries_nil]
  | [entry] => rw [ofEntries?, Expr.ofEntries_singleton]
  | first :: second :: entries =>
    simp only [ofEntries?, h.offset, hspan, Option.bind_eq_bind, Option.bind_some,
      Expr.ofEntries_cons_cons]

end Short

/-! ### The readers -/

mutual

theorem parts?_eq (hw : src.Short) (stop : TokenKind) (ts : Tokens) (p : Nat) (h : src.At ts p) :
    ∃ q, src.parts? stop p = some ((Tokens.parts stop ts).value, q) ∧
      src.At (Tokens.parts stop ts).after q := by
  rw [parts?, h.kind]
  by_cases hk : ts.kind? = none ∨ ts.kind? = some stop
  · rw [if_pos hk, (Tokens.parts_stop hk).1, (Tokens.parts_stop hk).2]
    exact ⟨p, rfl, h⟩
  · obtain ⟨k, hkind⟩ : ∃ k, ts.kind? = some k :=
      Option.ne_none_iff_exists'.1 fun hn => hk (Or.inl hn)
    have hlt : ts.advance.rest.length < ts.rest.length :=
      length_advance_lt (rest_ne_nil_of_kind? hkind)
    have hle := (Tokens.part stop ts.kind? ts.pos (ts.rest.take 1) ts.advance).le
    obtain ⟨q, hpart, hat⟩ := part?_eq hw stop ts p h (by simp [hkind])
    obtain ⟨r, hparts, hlast⟩ := parts?_eq hw stop _ q hat
    rw [if_neg hk, (Tokens.parts_next hk).1, (Tokens.parts_next hk).2]
    refine ⟨r, ?_, hlast⟩
    simp only [hpart, dif_pos (h.lt hat (by omega)), hparts, Option.bind_eq_bind,
      Option.bind_some]
termination_by 3 * ts.rest.length + 1

theorem part?_eq (hw : src.Short) (stop : TokenKind) (ts : Tokens) (p : Nat) (h : src.At ts p)
    (hne : ts.kind? ≠ none) :
    ∃ q, src.part? stop p = some ((Tokens.part stop ts.kind? ts.pos (ts.rest.take 1)
        ts.advance).value, q) ∧
      src.At (Tokens.part stop ts.kind? ts.pos (ts.rest.take 1) ts.advance).after q := by
  obtain ⟨k, hkind⟩ := Option.ne_none_iff_exists'.1 hne
  obtain ⟨⟨kind, text⟩, rest, hr⟩ := List.exists_cons_of_ne_nil (rest_ne_nil_of_kind? hkind)
  have hlt : ts.advance.rest.length < ts.rest.length :=
    length_advance_lt (rest_ne_nil_of_kind? hkind)
  have hopen := h.advance hkind
  have hadvance := Tokens.leads_advance ts
  obtain rfl : kind = k := by
    rw [Tokens.kind?, hr] at hkind
    exact Option.some.inj hkind
  rw [part?, h.piece hr, hkind]
  simp only [Option.bind_eq_bind, Option.bind_some]
  by_cases h1 : kind = .propertyOpen
  · subst h1
    rw [Tokens.part]
    exact property?_eq hw hopen hadvance.le
  by_cases h2 : kind = .metadataOpen
  · subst h2
    rw [Tokens.part]
    exact metadata?_eq hw hopen hadvance.le
  by_cases h3 : kind = .itemOpen
  · subst h3
    have hle : ts.advance.skipBlanks.word.2.rest.length ≤ ts.advance.rest.length :=
      Nat.le_trans ts.advance.skipBlanks.length_word_le ts.advance.length_skipBlanks_le
    obtain ⟨named, hname, hat⟩ := hopen.skipBlanks.name
    obtain ⟨tail, hlinks, htail⟩ := links?_eq hw ts.advance.skipBlanks.word.1 _ named hat
    have hleads : ts.Leads (Tokens.links ts.advance.skipBlanks.word.1
        ts.advance.skipBlanks.word.2).after :=
      hadvance.trans ((Tokens.leads_skipBlanks _).trans ((Tokens.leads_word _).trans
        (Tokens.reads_links _ _ hat.inside).leads))
    rw [(Tokens.part_item ..).1, (Tokens.part_item ..).2]
    simp only [hname, dif_pos (h.lt hat (by omega)), hlinks, Option.bind_some]
    exact htail.closed hw hleads.le _
  · have hrun := Tokens.passes_takeWhile (fun k => k ≠ stop && !k.isOpener) ts.advance
    have hall := (Tokens.passes_advance ts).trans hrun
    have hlast := hopen.skip fun k => k ≠ stop && !k.isOpener
    have hspan := hlast.span hw hall.leads.le
    have hcut := h.cut hall
    have hnot : ∀ k', kind ≠ k' → some kind ≠ some k' := fun k' hk heq => hk (Option.some.inj heq)
    obtain ⟨hv, ha⟩ := Tokens.part_text stop ts.pos ts.advance (hnot _ h1) (hnot _ h2) (hnot _ h3)
      (ts.rest.take 1)
    rw [hv, ha]
    refine ⟨_, ?_, hlast⟩
    rw [Token.texts_append] at hcut
    simp only [hlast.offset, hspan, hcut, Option.bind_some]
    rfl
termination_by 3 * ts.rest.length

theorem links?_eq (hw : src.Short) (name : Word) (ts : Tokens) (p : Nat) (h : src.At ts p) :
    ∃ q, src.links? name p = some ((Tokens.links name ts).value, q) ∧
      src.At (Tokens.links name ts).after q := by
  have hlen := ts.length_skipBlanks_le
  have hnext := h.skipBlanks
  rw [links?, hnext.kind]
  by_cases hk : ts.skipBlanks.kind? = some .arrow
  · have hlt := length_advance_lt (rest_ne_nil_of_kind? hk)
    have hlen' := ts.skipBlanks.advance.length_skipBlanks_le
    have htarget : src.At ts.skipBlanks.advance.skipBlanks (src.target p) :=
      (hnext.advance hk).skipBlanks
    rw [if_pos hk, htarget.kind]
    by_cases hq : ts.skipBlanks.advance.skipBlanks.kind? = some .quote
    · have hlen2 := ts.skipBlanks.advance.skipBlanks.length_advance_le
      have hopen := htarget.advance hq
      have hreads := Tokens.reads_parts .quote _ hopen.inside
      have hlen3 := (Tokens.parts .quote ts.skipBlanks.advance.skipBlanks.advance).le
      have hlen4 := (Tokens.parts .quote
        ts.skipBlanks.advance.skipBlanks.advance).after.length_eat_le .quote
      obtain ⟨q, hquoted, hat⟩ := parts?_eq hw .quote _ _ hopen
      obtain ⟨r, hmore, hlast⟩ := links?_eq hw name _ _ (hat.eat .quote)
      have htransform := ofParts?_eq hw hat hreads.leads.le hreads.tile.head
      rw [if_pos hq, (Tokens.links_quoted name hk hq rfl rfl).1,
        (Tokens.links_quoted name hk hq rfl rfl).2]
      refine ⟨r, ?_, hlast⟩
      simp only [dif_pos (h.lt hopen (by omega)), hopen.offset, hquoted, htransform,
        dif_pos (h.lt (hat.eat .quote) (by omega)), hmore, Option.bind_eq_bind, Option.bind_some]
    rw [if_neg hq]
    by_cases hi : ts.skipBlanks.advance.skipBlanks.kind? = some .ident
    · have hlen2 := Tokens.length_itemCall_le name ts.skipBlanks.advance.skipBlanks
      obtain ⟨q, hcall, hat⟩ := itemCall?_eq hw htarget name
      obtain ⟨r, hmore, hlast⟩ := links?_eq hw name _ _ hat
      rw [if_pos hi, (Tokens.links_call name hk hi).1, (Tokens.links_call name hk hi).2]
      refine ⟨r, ?_, hlast⟩
      simp only [hcall, dif_pos (h.lt hat (by omega)), hmore, Option.bind_eq_bind,
        Option.bind_some]
    · obtain ⟨r, hmore, hlast⟩ := links?_eq hw name _ _ htarget
      rw [if_neg hi, dif_pos (h.lt htarget (by omega)), (Tokens.links_skip name hk hq hi).1,
        (Tokens.links_skip name hk hq hi).2]
      exact ⟨r, hmore, hlast⟩
  rw [if_neg hk]
  by_cases hc : ts.skipBlanks.kind? = some .comma
  · have hlt := length_advance_lt (rest_ne_nil_of_kind? hc)
    have hlen2 := Tokens.length_separator_le ts.skipBlanks.advance
    obtain ⟨q, hseparator, hat⟩ := separator?_eq hw (hnext.advance hc)
    obtain ⟨r, hmore, hlast⟩ := links?_eq hw name _ _ hat
    rw [if_pos hc, (Tokens.links_comma name hc).1, (Tokens.links_comma name hc).2]
    refine ⟨r, ?_, hlast⟩
    simp only [hseparator, dif_pos (h.lt hat (by omega)), hmore, Option.bind_eq_bind,
      Option.bind_some]
  · rw [if_neg hc, (Tokens.links_end name hk hc).1, (Tokens.links_end name hk hc).2]
    exact ⟨_, rfl, hnext⟩
termination_by 3 * ts.rest.length + 1

end

theorem entries?_eq (hw : src.Short) (ts : Tokens) : ∀ p, src.At ts p →
    ∃ q, src.entries? p = some ((Tokens.entries ts).1, q) ∧ src.At (Tokens.entries ts).2 q := by
  fun_induction Tokens.entries ts with
  | case1 ts first after le hparts entry hk hlt more ih =>
    intro p h
    have hreads := Tokens.reads_parts .semicolon ts h.inside
    obtain ⟨q, hfirst, hat⟩ := parts?_eq hw .semicolon ts p h
    rw [hparts] at hreads hfirst hat
    have hentry := ofParts?_eq hw hat hreads.leads.le hreads.tile.head
    have hadvance : src.At after.advance (q + 1) := hat.advance hk
    have hmoved := h.lt hadvance (by omega)
    obtain ⟨r, hmore, hlast⟩ := ih _ hadvance
    refine ⟨r, ?_, hlast⟩
    rw [entries?]
    simp only [h.offset, hfirst, hentry, hat.kind, if_pos hk, dif_pos hmoved, hmore,
      Option.bind_eq_bind, Option.bind_some]
    rfl
  | case2 ts first after le hparts entry hk =>
    intro p h
    have hreads := Tokens.reads_parts .semicolon ts h.inside
    obtain ⟨q, hfirst, hat⟩ := parts?_eq hw .semicolon ts p h
    rw [hparts] at hreads hfirst hat
    have hentry := ofParts?_eq hw hat hreads.leads.le hreads.tile.head
    refine ⟨q, ?_, hat⟩
    rw [entries?]
    simp only [h.offset, hfirst, hentry, hat.kind, if_neg hk, Option.bind_eq_bind,
      Option.bind_some]
    rfl

end Source

open Source in
/-- every expression of a short text is read -/
theorem parse?_eq {text : String} {base : Nat} (hw : base + width text.toList < UInt32.size) :
    parse? text base = some (Expr.parse text base) := by
  let src : Source := ⟨base, text.toList, placed base (Token.lex text.toList)⟩
  have hshort : src.Short := hw
  have hstart : src.At ⟨base, Token.lex text.toList⟩ 0 := by
    refine ⟨Tokens.in_lex text.toList base, rfl, Nat.zero_le _, ?_⟩
    rw [Source.offset?, if_pos rfl]
    change some (((placed base (Token.lex text.toList)).head?.map _).getD base) = some base
    cases Token.lex text.toList <;> rfl
  obtain ⟨q, hentries, hlast⟩ := entries?_eq hshort _ 0 hstart
  have hreads := Tokens.reads_entries _ hstart.inside
  have hparse := ofEntries?_eq hshort (Tokens.entries ⟨base, Token.lex text.toList⟩).1 hlast
    hreads.leads.le
  rw [parse?, source?_eq hw]
  change (do
    let start ← src.offset? 0
    let (entries, last) ← src.entries? 0
    src.ofEntries? start last entries) = _
  simp only [hstart.offset, hentries, Option.bind_eq_bind, Option.bind_some]
  exact hparse

end ProjectSense.Checked
