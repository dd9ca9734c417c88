import ProjectSense.Proofs.Checked.Slice
import ProjectSense.Proofs.Markup.Part

/-!
# Reading markup by bytes

The reader of documents once more, as a program that holds the whole text and a byte position in
it: names, values and texts are cut out of the text, and a loop that does not move on has failed.

* `Checked.tagBody?_eq`, `Checked.construct?_eq`: what is read at a cursor.
* `Checked.events?_eq`: every short text has its events.
-/

namespace ProjectSense.Checked

open Text (width)

/-! ### The reader -/

section Reader

variable (text : List Char)

/-- the position after blanks, counted from the end of the text -/
def skipBlanks? (pos : Nat) : Option Nat := do
  let rest ← from? pos text
  sub? (width text) (width (rest.dropWhile Text.isBlank))

/-- where the next occurrence of the pattern begins and where it ends; the end of the text if there
is none -/
def past? (pattern : List Char) (pos : Nat) : Option (Nat × Nat) := do
  let rest ← from? pos text
  match Text.breakOn pattern rest with
  | (before, some _) => some (pos + width before, pos + width before + width pattern)
  | (_, none) => some (width text, width text)

/-- the characters of the name in front -/
def nameOf : List Char → List Char
  | [] => []
  | first :: rest => if startsName first then first :: rest.takeWhile continuesName else []

/-- the name at a position, its span, and the position after it -/
def name? (pos : Nat) : Option ((String × Span) × Nat) := do
  let rest ← from? pos text
  let stop := pos + width (nameOf rest)
  let name ← slice? pos stop text
  let span ← span? pos stop
  some ((String.ofList name, span), stop)

/-- the value in quotes at a position, its span, whether it is closed, and the position after it -/
def quoted? (quote : Char) (pos : Nat) : Option (String × Span × Bool × Nat) := do
  let rest ← from? (pos + 1) text
  let length := width (rest.takeWhile fun d => d ≠ quote && d ≠ '<')
  let after ← from? length rest
  let stop := pos + 1 + length
  let raw ← slice? (pos + 1) stop text
  let span ← span? (pos + 1) stop
  let closed := decide (after.head? = some quote)
  some (String.ofList raw, span, closed, if closed then stop + 1 else stop)

/-- the attribute at a position and the position after it -/
def attribute? (pos : Nat) : Option (Attribute × Nat) := do
  let ((name, nameSpan), stop) ← name? text pos
  let next ← skipBlanks? text stop
  let rest ← from? next text
  if rest.head? = some '=' then
    let start ← skipBlanks? text (next + 1)
    let rest ← from? start text
    match rest.head?.filter fun d => d = '"' || d = '\'' with
    | some quote =>
      let (raw, valueSpan, closed, last) ← quoted? text quote start
      let span ← span? pos last
      some (⟨name, nameSpan, some raw, some valueSpan, span, closed⟩, last)
    | none =>
      let span ← span? pos start
      some (⟨name, nameSpan, none, none, span, false⟩, start)
  else some (⟨name, nameSpan, none, none, nameSpan, false⟩, stop)

/-- the events inside a start tag, from a position after its name, and the position after it -/
def tagBody? (pos : Nat) : Option (List Event × Nat) := do
  let next ← skipBlanks? text pos
  let rest ← from? next text
  match rest with
  | [] => (word? next).map fun stop => ([.extend stop], next)
  | first :: more =>
    if first = '<' then (word? next).map fun stop => ([.extend stop], next)
    else if first = '/' ∧ more.head? = some '>' then
      (word? (next + 2)).map fun stop => ([.endStart stop true], next + 2)
    else if first = '>' then
      (word? (next + 1)).map fun stop => ([.endStart stop false], next + 1)
    else if startsName first then
      let (a, after) ← attribute? text next
      if _h : pos < after ∧ after ≤ width text then
        let (events, last) ← tagBody? after
        some (.attr a :: events, last)
      else none
    else if _h : pos < next + first.utf8Size ∧ next + first.utf8Size ≤ width text then
      tagBody? (next + first.utf8Size)
    else none
termination_by width text - pos

/-- the start tag at a position and the position after it -/
def startTag? (pos : Nat) : Option (List Event × Nat) := do
  let ((name, nameSpan), after) ← name? text (pos + 1)
  let start ← word? pos
  let (events, last) ← tagBody? text after
  some (.start name nameSpan start :: events, last)

/-- the closing tag at a position and the position after it -/
def closingTag? (pos : Nat) : Option (List Event × Nat) := do
  let ((name, _), after) ← name? text (pos + 2)
  let next ← skipBlanks? text after
  let rest ← from? next text
  let last := if rest.head? = some '>' then next + 1 else next
  let span ← span? pos last
  some ([.close name span], last)

/-- the literal content at a position and the position after it -/
def literal? (pos : Nat) : Option (List Event × Nat) := do
  let start := pos + "<![CDATA[".toList.length
  let (stop, last) ← past? text "]]>".toList start
  let raw ← slice? start stop text
  let span ← span? start stop
  some ([.text (String.ofList raw) span], last)

/-- what begins with the `<` at a position, and the position after it -/
def construct? (pos : Nat) : Option (List Event × Nat) := do
  let rest ← from? pos text
  let sees (pattern : String) : Bool := pattern.toList.isPrefixOf rest
  if sees "<!--" then (past? text "-->".toList pos).map fun found => ([], found.2)
  else if sees "<![CDATA[" then literal? text pos
  else if sees "<?" || sees "<!" then (past? text ">".toList pos).map fun found => ([], found.2)
  else if sees "</" then closingTag? text pos
  else startTag? text pos

/-- the event of the text between two positions, if it is more than blanks -/
def textEvent? (start stop : Nat) : Option (List Event) :=
  if stop ≤ start then some []
  else do
    let raw ← slice? start stop text
    if raw.all Text.isBlank then some []
    else do
      let span ← span? start stop
      some [.text (String.ofList raw) span]

/-- the events from a position on -/
def events? (pos : Nat) : Option (List Event) := do
  let rest ← from? pos text
  match rest.dropWhile (· ≠ '<') with
  | [] => textEvent? text pos (width text)
  | _ :: _ =>
    let start := pos + width (rest.takeWhile (· ≠ '<'))
    let run ← textEvent? text pos start
    let (found, next) ← construct? text start
    if _h : pos < next ∧ next ≤ width text then
      let more ← events? next
      some (run ++ found ++ more)
    else none
termination_by width text - pos

end Reader

/-! ### What it reads -/

variable {text : List Char} {c d : Cursor}

theorem le_width (h : c.In 0 text) : c.pos ≤ width text := by
  have := h.stop
  omega

/-- whoever leaves characters behind has moved on -/
theorem pos_lt_of_length_lt (h : c.Leads d) (hl : d.rest.length < c.rest.length) :
    c.pos < d.pos := by
  refine Nat.lt_of_le_of_ne h.le fun heq => ?_
  rw [h.eq_of_pos_eq heq] at hl
  exact Nat.lt_irrefl _ hl

theorem pos_drop_one {first : Char} {rest : List Char} (h : c.rest = first :: rest)
    (hone : first.utf8Size = 1) : (c.drop 1).pos = c.pos + 1 := by
  simp [Cursor.drop, h, hone]

/-- the position after a pattern of one-byte characters that comes next -/
theorem pos_drop_sees {pattern : String} (h : c.sees pattern = true)
    (hone : width pattern.toList = pattern.toList.length) :
    (c.drop pattern.toList.length).pos = c.pos + pattern.toList.length := by
  obtain ⟨tail, hrest⟩ := Cursor.sees_iff.1 h
  simp [Cursor.drop, ← hrest, hone]

theorem utf8Size_of_quote {quote : Char} (hq : quote = '"' ∨ quote = '\'') :
    quote.utf8Size = 1 := by
  rcases hq with rfl | rfl <;> rfl

theorem skipBlanks?_eq (h : c.In 0 text) : skipBlanks? text c.pos = some c.skipBlanks.pos := by
  have hstop := (h.leads (Cursor.leads_skipBlanks c)).stop
  have hrest : width (c.rest.dropWhile Text.isBlank) = width c.skipBlanks.rest := rfl
  simp only [skipBlanks?, from?_of_in h, Option.bind_eq_bind, Option.bind_some, hrest]
  rw [sub?_of_le (by omega)]
  exact congrArg some (by omega)

/-- what stands after the blanks at a cursor -/
theorem skipped (h : c.In 0 text) {pos : Nat} {rest : List Char}
    (hs : c.skipBlanks = ⟨pos, rest⟩) :
    skipBlanks? text c.pos = some pos ∧ from? pos text = some rest ∧ c.pos ≤ pos ∧
      (⟨pos, rest⟩ : Cursor).In 0 text := by
  have hin := h.leads (Cursor.leads_skipBlanks c)
  have hle := (Cursor.leads_skipBlanks c).le
  have hskip := skipBlanks?_eq h
  rw [hs] at hin hle hskip
  exact ⟨hskip, from?_of_in hin, hle, hin⟩

theorem past?_eq (h : c.In 0 text) (pattern : List Char) :
    past? text pattern c.pos =
      some (c.pos + width (c.past pattern).1, (c.past pattern).2.pos) := by
  have hstop := h.stop
  simp only [past?, from?_of_in h, Option.bind_eq_bind, Option.bind_some, Cursor.past]
  rcases hb : Text.breakOn pattern c.rest with ⟨before, _ | after⟩
  · obtain rfl := Text.breakOn_none hb
    have hend : width text = c.pos + width c.rest := by omega
    simp only [hend]
  · rfl

/-- the run of text at a cursor, up to the next `<` or to the end -/
theorem passes_run {raw : List Char} {next : Cursor}
    (hread : c.takeWhile (· ≠ '<') = (raw, next)) :
    c.Passes raw next ∧ c.rest.dropWhile (· ≠ '<') = next.rest ∧
      c.pos + width (c.rest.takeWhile (· ≠ '<')) = next.pos := by
  have hpass := Cursor.passes_takeWhile (· ≠ '<') c
  rw [hread] at hpass
  exact ⟨hpass, congrArg (·.2.rest) hread, congrArg (·.2.pos) hread⟩

theorem nameOf_rest (c : Cursor) : nameOf c.rest = c.name.1.1.toList := by
  rcases c.starts_or_not with ⟨first, rest, h, hs⟩ | h
  · rw [Cursor.name_of_starts h hs, h, nameOf, if_pos hs, String.toList_ofList]
    simp [Cursor.takeWhile, Cursor.drop, h]
  · rw [Cursor.name_of_not_starts h]
    cases hr : c.rest with
    | nil => rfl
    | cons first rest =>
      have hs := h first (by rw [hr]; rfl)
      rw [nameOf, if_neg (by simp [hs])]
      rfl

theorem valueStart?_eq {tail : List Char} (h : c.In 0 text)
    (heq : c.name.2.skipBlanks.rest = '=' :: tail) :
    skipBlanks? text (c.name.2.skipBlanks.pos + 1) = some c.valueStart.pos ∧
      from? c.valueStart.pos text = some c.valueStart.rest := by
  have hnext := h.leads (c.leads_name.trans (Cursor.leads_skipBlanks _))
  have hstart := skipBlanks?_eq (hnext.leads (Cursor.leads_drop 1 _))
  rw [pos_drop_one heq rfl] at hstart
  exact ⟨hstart, from?_of_in (h.leads (c.leads_name.trans c.leads_valueStart))⟩

section Short

variable (hw : width text < UInt32.size)
include hw

theorem name?_eq (h : c.In 0 text) : name? text c.pos = some (c.name.1, c.name.2.pos) := by
  have hpass := c.passes_name
  have hspan := span?_of_leads hw h hpass.leads
  have hslice := slice?_of_passes h hpass
  simp only [name?, from?_of_in h, Option.bind_eq_bind, Option.bind_some, nameOf_rest, ← hpass.pos,
    hslice, hspan, String.ofList_toList, ← Cursor.nameSpan_eq]

theorem quoted?_eq {quote : Char} {inner : List Char} (h : c.In 0 text)
    (hr : c.rest = quote :: inner) (hq : quote = '"' ∨ quote = '\'') :
    let raw := (c.drop 1).takeWhile fun d => d ≠ quote && d ≠ '<'
    quoted? text quote c.pos = some (String.ofList raw.1, ⟨(c.drop 1).pos, raw.2.pos⟩,
      decide (raw.2.rest.head? = some quote),
      if decide (raw.2.rest.head? = some quote) then raw.2.pos + 1 else raw.2.pos) := by
  intro raw
  have hdrop := pos_drop_one hr (utf8Size_of_quote hq)
  have hin := h.leads (Cursor.leads_drop 1 c)
  have hpass : (c.drop 1).Passes raw.1 raw.2 := Cursor.passes_takeWhile _ _
  have hafter : from? (width raw.1) (c.drop 1).rest = some raw.2.rest := by
    rw [hpass.rest]
    exact from?_append _ _
  have hslice := slice?_of_passes hin hpass
  have hspan := span?_of_leads hw hin hpass.leads
  have hrest := from?_of_in hin
  rw [hdrop] at hrest hslice hspan
  have hstop : c.pos + 1 + width raw.1 = raw.2.pos := by rw [hpass.pos, hdrop]
  have hlength : width ((c.drop 1).rest.takeWhile fun d => d ≠ quote && d ≠ '<') = width raw.1 :=
    rfl
  simp only [quoted?, hrest, Option.bind_eq_bind, Option.bind_some, hlength, hafter, hstop,
    hslice, hspan, hdrop]

theorem quotedAttribute?_eq {tail inner : List Char} {quote : Char} {closed : Bool}
    {last : Cursor} (h : c.In 0 text) (heq : c.name.2.skipBlanks.rest = '=' :: tail)
    (hv : c.valueStart.rest = quote :: inner) (hq : quote = '"' ∨ quote = '\'')
    (hc : decide ((c.rawValue quote).2.rest.head? = some quote) = closed)
    (hpos : last.pos = if closed then (c.rawValue quote).2.pos + 1 else (c.rawValue quote).2.pos)
    (hl : c.Leads last) :
    attribute? text c.pos = some (c.quotedAttribute quote last closed, last.pos) := by
  obtain ⟨hstart, hrest⟩ := valueStart?_eq h heq
  have hafter := h.leads c.leads_name
  have hquoted := quoted?_eq hw (hafter.leads c.leads_valueStart) hv hq
  simp only [← Cursor.rawValue.eq_def, hc, ← hpos] at hquoted
  have hsome : (c.valueStart.rest.head?.filter fun d => d = '"' || d = '\'') = some quote := by
    rw [hv, List.head?_cons, Option.filter_some, if_pos (by simpa using hq)]
  simp only [attribute?, name?_eq hw h, skipBlanks?_eq hafter,
    from?_of_in (hafter.leads (Cursor.leads_skipBlanks _)), Option.bind_eq_bind, Option.bind_some,
    heq, List.head?_cons, if_true, hstart, hrest, hsome, hquoted, span?_of_leads hw h hl]
  rfl

/-- an attribute is cut out of the text as it is read -/
theorem attribute?_of_reads {r : Attribute × Cursor} (h : c.In 0 text)
    (hr : c.ReadsAttribute r) : attribute? text c.pos = some (r.1, r.2.pos) := by
  have hafter := h.leads c.leads_name
  have hlead := c.leads_name.trans hr.leads
  cases hr with
  | bare heq =>
    simp only [attribute?, name?_eq hw h, skipBlanks?_eq hafter,
      from?_of_in (hafter.leads (Cursor.leads_skipBlanks _)), Option.bind_eq_bind,
      Option.bind_some]
    rw [if_neg heq, Cursor.bareAttribute, ← Cursor.nameSpan_eq]
  | @unquoted tail heq hq =>
    obtain ⟨hstart, hrest⟩ := valueStart?_eq h heq
    have hnone : (c.valueStart.rest.head?.filter fun d => d = '"' || d = '\'') = none := by
      rw [Option.filter_eq_none_iff]
      intro quote hquote
      simpa using hq quote hquote
    simp only [attribute?, name?_eq hw h, skipBlanks?_eq hafter,
      from?_of_in (hafter.leads (Cursor.leads_skipBlanks _)), Option.bind_eq_bind,
      Option.bind_some, heq, List.head?_cons, if_true, hstart, hrest, hnone,
      span?_of_leads hw h hlead]
    rfl
  | unclosed heq hv hq hc =>
    exact quotedAttribute?_eq hw h heq hv hq (decide_eq_false hc) rfl hlead
  | closed heq hv hq hc =>
    exact quotedAttribute?_eq hw h heq hv hq (decide_eq_true (by rw [hc]; rfl))
      (pos_drop_one hc (utf8Size_of_quote hq)) hlead

theorem attribute?_eq (h : c.In 0 text) :
    attribute? text c.pos = some (c.readAttribute.1, c.readAttribute.2.pos) :=
  attribute?_of_reads hw h c.readAttribute_cases

theorem tagBody?_eq (h : c.In 0 text) :
    tagBody? text c.pos = some (c.tagBody.1, c.tagBody.2.pos) := by
  fun_induction Cursor.tagBody c with
  | case1 c pos hs =>
    obtain ⟨hskip, hrest, -, hin⟩ := skipped h hs
    rw [tagBody?]
    simp only [hskip, hrest, Option.bind_eq_bind, Option.bind_some, word?_of_lt (pos_lt hw hin),
      Option.map_some]
  | case2 c pos rest hs =>
    obtain ⟨hskip, hrest, -, hin⟩ := skipped h hs
    rw [tagBody?]
    simp only [hskip, hrest, Option.bind_eq_bind, Option.bind_some, word?_of_lt (pos_lt hw hin),
      Option.map_some, if_true]
  | case3 c pos first rest hs hlt h1 h2 =>
    obtain ⟨hskip, hrest, -, hin⟩ := skipped h hs
    obtain ⟨rfl, hhead⟩ := h2
    obtain ⟨tail, rfl⟩ := List.head?_eq_some_iff.1 hhead
    have hlast : (⟨pos + 2, tail⟩ : Cursor).In 0 text := hin.leads ⟨['/', '>'], rfl, rfl⟩
    rw [tagBody?]
    simp [hskip, hrest, word?_of_lt (pos_lt hw hlast)]
  | case4 c pos rest hs hlt h1 h2 =>
    obtain ⟨hskip, hrest, -, hin⟩ := skipped h hs
    have hlast : (⟨pos + 1, rest⟩ : Cursor).In 0 text := hin.leads ⟨['>'], rfl, rfl⟩
    rw [tagBody?]
    simp [hskip, hrest, word?_of_lt (pos_lt hw hlast)]
  | case5 c pos first rest hs hlt h1 h2 h3 hstarts a after ha hshort more ih =>
    obtain ⟨hskip, hrest, hle, hin⟩ := skipped h hs
    have hattr := attribute?_eq hw hin
    have hlead := Cursor.leads_readAttribute ⟨pos, first :: rest⟩
    rw [ha] at hattr hlead
    have hafter := hin.leads hlead
    have hmoved : c.pos < after.pos := by
      have := Cursor.leads_skipBlanks c
      rw [hs] at this
      exact pos_lt_of_length_lt (this.trans hlead) hshort
    rw [tagBody?]
    simp only [hskip, hrest, Option.bind_eq_bind, Option.bind_some, if_neg h1, if_neg h2,
      if_neg h3, if_pos hstarts, hattr, dif_pos (And.intro hmoved (le_width hafter)), ih hafter]
    rfl
  | case6 c pos first rest hs hlt h1 h2 h3 hstarts ih =>
    obtain ⟨hskip, hrest, hle, hin⟩ := skipped h hs
    have hafter : (⟨pos + first.utf8Size, rest⟩ : Cursor).In 0 text := hin.leads ⟨[first], rfl, rfl⟩
    have hmoved : c.pos < pos + first.utf8Size := by
      have := first.utf8Size_pos
      omega
    rw [tagBody?]
    simp only [hskip, hrest, Option.bind_eq_bind, Option.bind_some, if_neg h1, if_neg h2,
      if_neg h3, if_neg hstarts, dif_pos (And.intro hmoved (le_width hafter))]
    exact ih hafter

/-! ### Constructs -/

theorem startTag?_eq {rest : List Char} (h : c.In 0 text) (hr : c.rest = '<' :: rest) :
    startTag? text c.pos = some (c.startTag.1, c.startTag.2.pos) := by
  have hin := h.leads (Cursor.leads_drop 1 c)
  have hname := name?_eq hw hin
  have hbody := tagBody?_eq hw (hin.leads (Cursor.leads_name _))
  rw [pos_drop_one hr rfl] at hname
  simp only [startTag?, hname, word?_of_lt (pos_lt hw h), hbody, Option.bind_eq_bind,
    Option.bind_some]
  rfl

theorem closingTag?_eq (h : c.In 0 text) (hs : c.sees "</" = true) :
    closingTag? text c.pos = some (c.closingTag.1, c.closingTag.2.pos) := by
  have hdrop : (c.drop 2).pos = c.pos + 2 := pos_drop_sees hs rfl
  have hin := h.leads (Cursor.leads_drop 2 c)
  have hname := name?_eq hw hin
  have hafter := hin.leads (Cursor.leads_name _)
  have hnext := hafter.leads (Cursor.leads_skipBlanks _)
  have hspan := span?_of_leads hw h ((Cursor.leads_drop 2 c).trans c.leads_closingTag)
  have hlast : c.closingTag.2.pos =
      if (c.drop 2).name.2.skipBlanks.rest.head? = some '>' then
        (c.drop 2).name.2.skipBlanks.pos + 1 else (c.drop 2).name.2.skipBlanks.pos := by
    simp only [Cursor.closingTag]
    split
    · next hclosed =>
      obtain ⟨tail, htail⟩ := List.head?_eq_some_iff.1 hclosed
      exact pos_drop_one htail rfl
    · rfl
  rw [hdrop] at hname
  simp only [closingTag?, hname, skipBlanks?_eq hafter, from?_of_in hnext, ← hlast, hspan,
    Option.bind_eq_bind, Option.bind_some]
  rfl

theorem literal?_eq (h : c.In 0 text) (hs : c.sees "<![CDATA[" = true) :
    literal? text c.pos = some (c.literal.1, c.literal.2.pos) := by
  have hdrop : (c.drop 9).pos = c.pos + 9 := pos_drop_sees hs rfl
  have hin := h.leads (Cursor.leads_drop 9 c)
  obtain ⟨tail, hpass⟩ := Cursor.passes_past "]]>".toList (c.drop 9)
  obtain ⟨stop, hraw, hend⟩ := hpass.split
  have hpast := past?_eq hin "]]>".toList
  have hslice := slice?_of_passes hin hraw
  have hspan := span?_of_leads hw hin hraw.leads
  rw [hraw.pos] at hslice hspan
  rw [hdrop] at hpast hslice hspan
  have hlength : "<![CDATA[".toList.length = 9 := rfl
  simp only [literal?, hlength, hpast, hslice, hspan, Option.bind_eq_bind, Option.bind_some]
  rw [Cursor.literal, hdrop]

/-- what begins with a `<` is cut out of the text as it is read -/
theorem construct?_eq {rest : List Char} (h : c.In 0 text) (hr : c.rest = '<' :: rest) :
    construct? text c.pos = some (c.construct.1, c.construct.2.pos) := by
  simp only [construct?, from?_of_in h, Option.bind_eq_bind, Option.bind_some, Cursor.construct,
    ← Cursor.sees.eq_def, past?_eq h]
  split
  · rfl
  split
  · next hs => exact literal?_eq hw h hs
  split
  · rfl
  split
  · next hs => exact closingTag?_eq hw h hs
  · exact startTag?_eq hw h hr

theorem textEvent?_eq {raw : List Char} (h : c.In 0 text) (g : c.Passes raw d) :
    textEvent? text c.pos d.pos = some (Cursor.textEvent c.pos raw) := by
  rw [textEvent?]
  split
  · next hle =>
    have hpos := g.pos
    obtain rfl : raw = [] := Text.width_eq_zero.1 (by omega)
    rfl
  · simp only [slice?_of_passes h g, span?_of_leads hw h g.leads, Option.bind_eq_bind,
      Option.bind_some, Cursor.textEvent, ← g.pos]
    split
    · rfl
    · rfl

/-- a short text is read to its end -/
theorem events?_eq (h : c.In 0 text) : events? text c.pos = some c.events := by
  fun_induction Cursor.events c with
  | case1 c raw next hread hn =>
    obtain ⟨hpass, hdrop, -⟩ := passes_run hread
    have hstop := (h.leads hpass.leads).stop
    rw [hn, Text.width_nil] at hstop
    have hend : next.pos = width text := by omega
    rw [events?]
    simp only [from?_of_in h, Option.bind_eq_bind, Option.bind_some, hdrop, hn]
    rw [← hend]
    exact textEvent?_eq hw h hpass
  | case2 c raw next hread hn h1 h2 ih =>
    obtain ⟨hpass, hdrop, hpos⟩ := passes_run hread
    have hnext := h.leads hpass.leads
    obtain ⟨first, tail, hr⟩ := List.exists_cons_of_ne_nil hn
    have hfirst : first = '<' := by
      have := Cursor.head_takeWhile (c := c) (p := (· ≠ '<')) (d := first) (by rw [hread, hr]; rfl)
      simpa using this
    subst hfirst
    obtain ⟨part, -, hyields⟩ := Cursor.construct_yields hnext hr
    have hlast := hnext.leads hyields.leads
    have hmoved : c.pos < next.construct.2.pos :=
      Nat.lt_of_le_of_lt hpass.leads.le (pos_lt_of_length_lt hyields.leads h2)
    rw [events?]
    simp only [from?_of_in h, Option.bind_eq_bind, Option.bind_some, hdrop, hr, hpos,
      textEvent?_eq hw h hpass, construct?_eq hw hnext hr,
      dif_pos (And.intro hmoved (le_width hlast)), ih hlast]

end Short

end ProjectSense.Checked
