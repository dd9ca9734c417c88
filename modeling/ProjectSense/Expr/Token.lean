import ProjectSense.Text.Width

/-!
# Tokens of expressions

A text is cut into tokens by longest match; a character that begins nothing is a stray.

* `Token.texts_lex`: the texts of the tokens, joined, are the text.
* `Token.text_ne_nil_of_mem_lex`: no token is empty.
-/

namespace ProjectSense

inductive TokenKind where
  /-- opens a property reference -/
  | propertyOpen
  /-- opens an item reference -/
  | itemOpen
  /-- opens a metadata reference -/
  | metadataOpen
  | leftParen
  | rightParen
  | leftBracket
  | rightBracket
  | colons
  | dot
  | arrow
  | comma
  | semicolon
  | quote
  | ident
  | blank
  /-- a run of characters without meaning to expressions -/
  | plain
  /-- a character that would have begun a longer token -/
  | stray
deriving DecidableEq, Repr

/-- begins a reference -/
def TokenKind.isOpener : TokenKind → Bool
  | .propertyOpen | .itemOpen | .metadataOpen => true
  | _ => false

structure Token where
  kind : TokenKind
  text : List Char
deriving DecidableEq, Repr

namespace Token

def startsName (c : Char) : Bool := c.isAlpha || c == '_'

def continuesName (c : Char) : Bool := c.isAlphanum || c == '_'

def isSpace (c : Char) : Bool := c == ' ' || c == '\t' || c == '\r' || c == '\n'

/-- the characters that no plain run holds, names and spaces apart -/
def isMark (c : Char) : Bool := "$@%()[]:.,;'>-".toList.contains c

def isPlain (c : Char) : Bool := !(isMark c || isSpace c || startsName c)

/-- how far a token reaches after its first character -/
inductive Extent where
  | alone
  | withNext
  | whileHolds (p : Char → Bool)

/-- what the extent takes of the characters that follow, and what it leaves -/
def Extent.split : Extent → List Char → List Char × List Char
  | .alone, cs => ([], cs)
  | .withNext, cs => (cs.take 1, cs.drop 1)
  | .whileHolds p, cs => (cs.takeWhile p, cs.dropWhile p)

/-- the kind and extent of the token that begins with `c` before `next` -/
def classify (c : Char) (next : Option Char) : TokenKind × Extent :=
  match c, next with
  | '$', some '(' => (.propertyOpen, .withNext)
  | '@', some '(' => (.itemOpen, .withNext)
  | '%', some '(' => (.metadataOpen, .withNext)
  | ':', some ':' => (.colons, .withNext)
  | '-', some '>' => (.arrow, .withNext)
  | '(', _ => (.leftParen, .alone)
  | ')', _ => (.rightParen, .alone)
  | '[', _ => (.leftBracket, .alone)
  | ']', _ => (.rightBracket, .alone)
  | '.', _ => (.dot, .alone)
  | ',', _ => (.comma, .alone)
  | ';', _ => (.semicolon, .alone)
  | '\'', _ => (.quote, .alone)
  | _, _ =>
    if startsName c then (.ident, .whileHolds continuesName)
    else if isSpace c then (.blank, .whileHolds isSpace)
    else if isPlain c then (.plain, .whileHolds isPlain)
    else (.stray, .alone)

theorem Extent.split_append (e : Extent) (cs : List Char) :
    (e.split cs).1 ++ (e.split cs).2 = cs := by
  cases e with
  | withNext => exact List.take_append_drop 1 cs
  | _ => simp [Extent.split]

theorem Extent.length_split_le (e : Extent) (cs : List Char) :
    (e.split cs).2.length ≤ cs.length := by
  have := congrArg List.length (e.split_append cs)
  simp at this; omega

/-- the tokens of a text -/
def lex : List Char → List Token
  | [] => []
  | c :: cs =>
    let found := classify c cs.head?
    let parts := found.2.split cs
    ⟨found.1, c :: parts.1⟩ :: lex parts.2
termination_by cs => cs.length
decreasing_by
  have := (classify c cs.head?).2.length_split_le cs
  simp only [List.length_cons]; omega

/-- the tokens' texts, joined -/
def texts (ts : List Token) : List Char := ts.flatMap (·.text)

@[simp] theorem texts_nil : texts [] = [] := rfl

@[simp] theorem texts_cons (t : Token) (ts : List Token) :
    texts (t :: ts) = t.text ++ texts ts := rfl

@[simp] theorem texts_append (ts us : List Token) : texts (ts ++ us) = texts ts ++ texts us := by
  simp [texts]

theorem texts_lex (cs : List Char) : texts (lex cs) = cs := by
  fun_induction lex cs with
  | case1 => rfl
  | case2 c cs found parts ih =>
    simp only [texts_cons, ih, List.cons_append, List.cons.injEq, true_and]
    exact Extent.split_append _ _

theorem text_ne_nil_of_mem_lex {t : Token} {cs : List Char} (h : t ∈ lex cs) : t.text ≠ [] := by
  fun_induction lex cs with
  | case1 => cases h
  | case2 c cs found parts ih =>
    rcases List.mem_cons.1 h with rfl | h
    · simp
    · exact ih h

end Token
end ProjectSense
