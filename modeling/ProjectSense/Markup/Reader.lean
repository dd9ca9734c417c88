import ProjectSense.Text.Cursor
import ProjectSense.Text.Identifier
import ProjectSense.Markup.Builder

/-!
# Reading markup

Documents are read while they are being typed: unterminated tags, values without their closing
quote and missing closing tags are all accepted, and what makes no sense is skipped.

* `Event.ofText`: the events of a text.
* `Tree.parse`: the tree of a text.
-/

namespace ProjectSense

def startsName (c : Char) : Bool := Text.startsIdent c || c == '_' || c == ':'

def continuesName (c : Char) : Bool := Text.continuesIdent c || c == '-' || c == '.' || c == ':'

namespace Cursor

/-- the name that comes next, empty if none does, and its span -/
def name (c : Cursor) : (String × Span) × Cursor :=
  match c.rest with
  | [] => (("", .empty c.pos), c)
  | first :: _ =>
    if startsName first then
      let read := (c.drop 1).takeWhile continuesName
      ((String.ofList (first :: read.1), ⟨c.pos, read.2.pos⟩), read.2)
    else (("", .empty c.pos), c)

/-- an attribute, from its name on -/
def readAttribute (c : Cursor) : Attribute × Cursor :=
  let name := c.name
  let bare : Attribute := ⟨name.1.1, name.1.2, none, none, name.1.2, false⟩
  match name.2.skipBlanks.rest with
  | '=' :: _ =>
    let value := (name.2.skipBlanks.drop 1).skipBlanks
    match value.rest with
    | quote :: _ =>
      if quote = '"' ∨ quote = '\'' then
        let inner := value.drop 1
        let raw := inner.takeWhile fun d => d ≠ quote && d ≠ '<'
        let closed := raw.2.rest.head? = some quote
        let last := if closed then raw.2.drop 1 else raw.2
        (⟨name.1.1, name.1.2, some (String.ofList raw.1), some ⟨inner.pos, raw.2.pos⟩,
          ⟨c.pos, last.pos⟩, closed⟩, last)
      else ({ bare with span := ⟨c.pos, value.pos⟩ }, value)
    | [] => ({ bare with span := ⟨c.pos, value.pos⟩ }, value)
  | _ => (bare, name.2)

theorem length_name_le (c : Cursor) : c.name.2.rest.length ≤ c.rest.length := by
  unfold name
  split
  · exact Nat.le_refl _
  · split
    · exact Nat.le_trans (length_takeWhile_le ..) (by simp [drop])
    · exact Nat.le_refl _

theorem length_name_lt {c : Cursor} {first : Char} {rest : List Char}
    (h : c.rest = first :: rest) (hs : startsName first = true) :
    c.name.2.rest.length < c.rest.length := by
  unfold name
  split
  · simp_all
  · next first' rest' h' =>
    obtain ⟨rfl, rfl⟩ := List.cons.inj (h.symm.trans h')
    rw [if_pos hs]
    exact Nat.lt_of_le_of_lt (length_takeWhile_le ..) (by simp [drop, h])

theorem length_readAttribute_le (c : Cursor) :
    c.readAttribute.2.rest.length ≤ c.name.2.rest.length := by
  have h1 := c.name.2.length_skipBlanks_le
  have h2 := (c.name.2.skipBlanks.drop 1).length_skipBlanks_le
  have h3 := c.name.2.skipBlanks.length_drop 1
  simp only [readAttribute]
  split
  · split
    · split
      · refine Nat.le_trans ?_ (Nat.le_trans (length_drop_le 1 _) (Nat.le_trans h2
          (Nat.le_trans (length_drop_le 1 _) h1)))
        dsimp only
        split
        · exact Nat.le_trans (length_drop_le 1 _) (length_takeWhile_le _ _)
        · exact length_takeWhile_le _ _
      · dsimp only; omega
    · dsimp only; omega
  · exact Nat.le_refl _

/-- the events inside a start tag, from after its name, and the cursor after it -/
def tagBody (c : Cursor) : List Event × Cursor :=
  match h : c.skipBlanks with
  | ⟨pos, []⟩ => ([.extend pos], ⟨pos, []⟩)
  | ⟨pos, first :: rest⟩ =>
    have hlt : rest.length < c.rest.length := by
      have := c.length_skipBlanks_le
      simp only [h, List.length_cons] at this; omega
    if first = '<' then ([.extend pos], ⟨pos, first :: rest⟩)
    else if first = '/' ∧ rest.head? = some '>' then
      ([.endStart (pos + 2) true], ⟨pos + 2, rest.tail⟩)
    else if first = '>' then ([.endStart (pos + 1) false], ⟨pos + 1, rest⟩)
    else if hs : startsName first then
      match ha : (⟨pos, first :: rest⟩ : Cursor).readAttribute with
      | (a, after) =>
        have : after.rest.length < c.rest.length := by
          have h1 := length_name_lt (c := ⟨pos, first :: rest⟩) rfl hs
          have h2 := (⟨pos, first :: rest⟩ : Cursor).length_readAttribute_le
          simp only [ha, List.length_cons] at h1 h2; omega
        let more := tagBody after
        (.attr a :: more.1, more.2)
    else tagBody ⟨pos + first.utf8Size, rest⟩
termination_by c.rest.length

/-- a start tag that begins at the cursor -/
def startTag (c : Cursor) : List Event × Cursor :=
  let name := (c.drop 1).name
  let body := name.2.tagBody
  (.start name.1.1 name.1.2 c.pos :: body.1, body.2)

/-- a closing tag that begins at the cursor -/
def closingTag (c : Cursor) : List Event × Cursor :=
  let name := (c.drop 2).name
  let next := name.2.skipBlanks
  let last := if next.rest.head? = some '>' then next.drop 1 else next
  ([.close name.1.1 ⟨c.pos, last.pos⟩], last)

/-- literal content that begins at the cursor -/
def literal (c : Cursor) : List Event × Cursor :=
  let inner := c.drop 9
  let read := inner.past "]]>".toList
  ([.text (String.ofList read.1) ⟨inner.pos, inner.pos + Text.width read.1⟩], read.2)

/-- what begins with the `<` at the cursor -/
def construct (c : Cursor) : List Event × Cursor :=
  if c.sees "<!--" then ([], (c.past "-->".toList).2)
  else if c.sees "<![CDATA[" then c.literal
  else if c.sees "<?" || c.sees "<!" then ([], (c.past ">".toList).2)
  else if c.sees "</" then c.closingTag
  else c.startTag

theorem length_tagBody_le (c : Cursor) : c.tagBody.2.rest.length ≤ c.rest.length := by
  fun_induction tagBody c with
  | case1 | case2 | case3 | case4 | case6 => simp at * <;> omega
  | case5 c pos first rest h hlt _ _ _ hs a after ha this more ih =>
    exact Nat.le_of_lt (Nat.lt_of_le_of_lt ih this)

theorem length_construct_lt {c : Cursor} (hc : c.rest ≠ []) :
    c.construct.2.rest.length < c.rest.length := by
  have hpos := List.length_pos_iff.2 hc
  unfold construct
  split
  · exact length_past_lt (by decide) c hc
  split
  · refine Nat.lt_of_le_of_lt (length_past_le (by decide) _) ?_
    simp [drop]; omega
  split
  · exact length_past_lt (by decide) c hc
  split
  · have h1 := (c.drop 2).length_name_le
    have h2 := (c.drop 2).name.2.length_skipBlanks_le
    have h3 := (c.drop 2).name.2.skipBlanks.length_drop 1
    have h4 := c.length_drop 2
    simp only [closingTag]
    split <;> omega
  · have h1 := (c.drop 1).length_name_le
    have h2 := (c.drop 1).name.2.length_tagBody_le
    have h3 := c.length_drop 1
    simp only [startTag]
    omega

/-- the event of a text run, if it has one: blanks alone are no text -/
def textEvent (pos : Nat) (raw : List Char) : List Event :=
  if raw.all Text.isBlank then [] else [.text (String.ofList raw) ⟨pos, pos + Text.width raw⟩]

/-- the events from the cursor on -/
def events (c : Cursor) : List Event :=
  match h : c.takeWhile (· ≠ '<') with
  | (raw, next) =>
    if hn : next.rest = [] then textEvent c.pos raw
    else
      have h1 : next.rest.length ≤ c.rest.length := by
        have := c.length_takeWhile_le (· ≠ '<')
        rwa [h] at this
      have := length_construct_lt hn
      textEvent c.pos raw ++ next.construct.1 ++ next.construct.2.events
termination_by c.rest.length

end Cursor

/-- the events of a text -/
def Event.ofText (text : List Char) : List Event := (⟨0, text⟩ : Cursor).events

/-- the tree of a text -/
def Tree.parse (text : String) : Tree :=
  .ofEvents (Event.ofText text.toList) (Text.width text.toList)

end ProjectSense
