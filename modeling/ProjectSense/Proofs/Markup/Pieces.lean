import ProjectSense.Proofs.Markup.RoundTrip
import ProjectSense.Proofs.Markup.Outline

/-!
# The pieces of a document

A document is written as a sequence of pieces: texts, literal content, start and closing tags in
all their spellings, comments and instructions.  Which tags belong together does not matter here.

* `Cursor.aside_passed_iff`: which comments and instructions are passed as a whole.
* `Cursor.construct_piece`: a written piece is read to its end and tells what was written.
-/

namespace ProjectSense

open Text (isBlank width)

/-! ### Writing -/

/-- what is no part of the tree -/
inductive Aside where
  | comment (body : List Char)
  | instruction (body : List Char)
deriving DecidableEq, Repr

inductive Piece where
  | text (raw : List Char)
  | literal (raw : List Char)
  | tag (name : String) (attributes : List Spelling) (blanks : List Char) (selfClosing : Bool)
  | close (name : String) (blanks : List Char)
  | aside (a : Aside)
deriving DecidableEq, Repr

def Aside.render : Aside → List Char
  | comment body => ['<', '!', '-', '-'] ++ body ++ ['-', '-', '>']
  | instruction body => ['<', '?'] ++ body ++ ['?', '>']

def Piece.render : Piece → List Char
  | text raw => raw
  | literal raw => ['<', '!', '[', 'C', 'D', 'A', 'T', 'A', '['] ++ raw ++ [']', ']', '>']
  | tag name attributes blanks selfClosing =>
    '<' :: (name.toList ++ (attributes.flatMap Spelling.render ++ (blanks ++ tagEnd selfClosing)))
  | close name blanks => '<' :: '/' :: (name.toList ++ (blanks ++ ['>']))
  | aside a => a.render

/-- a comment holds no `--` and does not end in `-`, an instruction holds no `?>` -/
def Aside.WellFormed : Aside → Prop
  | comment body => ¬['-', '-'] <:+: body ∧ body.getLast? ≠ some '-'
  | instruction body => ¬['?', '>'] <:+: body

/-- nothing in it is taken for its end: a comment does not begin with `>` or `->`, which the dashes
in front of it would complete to `-->`, and an instruction holds no `>` -/
def Aside.Plain : Aside → Prop
  | comment body => ¬['>'] <+: body ∧ ¬['-', '>'] <+: body
  | instruction body => '>' ∉ body

def Piece.WellFormed : Piece → Prop
  | text raw => ∀ d ∈ raw, d ≠ '<'
  | literal raw => ¬[']', ']', '>'] <:+: raw
  | tag name attributes blanks _ =>
    IsName name.toList ∧ (∀ a ∈ attributes, a.WellFormed) ∧ Blanks blanks
  | close name blanks => IsName name.toList ∧ Blanks blanks
  | aside a => a.WellFormed

-- the characters of the list are looked at, never all characters there are
instance : DecidablePred Aside.WellFormed
  | .comment _ => inferInstanceAs (Decidable (_ ∧ _))
  | .instruction _ => inferInstanceAs (Decidable (¬_))

instance : DecidablePred Aside.Plain
  | .comment _ => inferInstanceAs (Decidable (_ ∧ _))
  | .instruction _ => inferInstanceAs (Decidable (¬_))

instance : DecidablePred Piece.WellFormed
  | .text raw => List.decidableBAll (fun d => d ≠ '<') raw
  | .literal _ => inferInstanceAs (Decidable (¬_))
  | .tag _ _ _ _ => inferInstanceAs (Decidable (_ ∧ _ ∧ _))
  | .close _ _ => inferInstanceAs (Decidable (_ ∧ _))
  | .aside a => inferInstanceAs (Decidable a.WellFormed)

/-- what a piece tells of the elements -/
def Piece.marks : Piece → List Mark
  | tag name attributes _ selfClosing =>
    .start name :: (attributes.map (fun a => .attr a.name (some a.value) true) ++
      [.endStart selfClosing])
  | close name _ => [.close name]
  | _ => []

namespace Cursor

variable {c d : Cursor} {rest : List Char}

/-! ### Comments and instructions -/

theorem rest_past (pattern : List Char) (c : Cursor) :
    (c.past pattern).2.rest = (Text.breakOn pattern c.rest).2.getD [] := by
  unfold past
  split
  · next h => rw [h]; rfl
  · next h => rw [h]; rfl

/-- whether the reading passes just the text before a pattern, and the pattern with it -/
theorem past_rest_iff {front before : List Char} {last : Char} (hlast : last ∉ front)
    (h : c.rest = before ++ (front ++ [last]) ++ rest) :
    (c.past (front ++ [last])).2.rest = rest ↔ ¬(front ++ [last]) <:+: before := by
  rw [rest_past, h, ← Text.breakOn_rest_iff hlast before rest]
  have hp : front ++ [last] ≠ [] := by simp
  obtain ⟨found, after, hf, -⟩ := Text.breakOn_occurrence hp before rest
  rw [hf]
  simp

theorem comment_not_infix {body : List Char} (h : (Aside.comment body).WellFormed) :
    ¬['-', '-', '>'] <:+: ['<', '!', '-', '-'] ++ body ↔ (Aside.comment body).Plain := by
  have hbody : ¬['-', '-', '>'] <:+: body := by
    intro hin
    exact h.1 (List.IsInfix.trans ⟨[], ['>'], rfl⟩ hin)
  simp [Aside.Plain, List.infix_cons_iff, List.cons_prefix_cons, hbody]

/-- a comment or an instruction is passed as a whole exactly if nothing in it is taken for its
end -/
theorem aside_passed_iff {a : Aside} (ha : a.WellFormed) (h : c.rest = a.render ++ rest) :
    c.construct.1 = [] ∧ (c.construct.2.rest = rest ↔ a.Plain) := by
  cases a with
  | comment body =>
    have hc : c.construct = ([], (c.past "-->".toList).2) := by
      simp [construct, sees, h, Aside.render]
    rw [hc]
    refine ⟨rfl, ?_⟩
    rw [← comment_not_infix ha]
    exact @past_rest_iff c rest ['-', '-'] (['<', '!', '-', '-'] ++ body) '>' (by decide) h
  | instruction body =>
    have hc : c.construct = ([], (c.past ">".toList).2) := by
      simp [construct, sees, h, Aside.render]
    rw [hc]
    refine ⟨rfl, ?_⟩
    have hr : c.rest = (['<', '?'] ++ body ++ ['?']) ++ ([] ++ ['>']) ++ rest := by
      simp [h, Aside.render]
    refine (past_rest_iff (by simp) hr).trans ?_
    simp [Aside.Plain, List.singleton_infix_iff]

/-! ### Tags and literal content -/

theorem construct_tag {name : String} {attributes : List Spelling} {blanks : List Char}
    {ended : Bool} (hp : (Piece.tag name attributes blanks ended).WellFormed)
    (h : c.rest = (Piece.tag name attributes blanks ended).render ++ rest) :
    c.construct.1.filterMap Event.mark? = (Piece.tag name attributes blanks ended).marks ∧
      c.construct.2.rest = rest := by
  obtain ⟨hn, ha, hb⟩ := hp
  have hr : c.rest = '<' :: (name.toList ++ (attributes.flatMap Spelling.render ++
      (blanks ++ (tagEnd ended ++ rest)))) := by
    rw [h]
    simp [Piece.render]
  obtain ⟨hconstruct, hend, nameSpan, read, pos, hev, hread⟩ := startTag_spelled hn ha hb hr
  have hmarks : (read.map Event.attr).filterMap Event.mark? =
      attributes.map fun a => .attr a.name (some a.value) true := by
    have key := congrArg (List.map fun a => Mark.attr a.1 a.2.1 a.2.2) hread
    rw [List.map_map, List.map_map] at key
    refine Eq.trans ?_ key
    rw [List.filterMap_map, ← List.filterMap_eq_map]
    rfl
  rw [hconstruct, hev]
  refine ⟨?_, hend⟩
  simp only [List.filterMap_cons, Event.mark?, List.filterMap_append, hmarks, List.filterMap_nil,
    Piece.marks]

theorem construct_close {name : String} {blanks : List Char}
    (hp : (Piece.close name blanks).WellFormed)
    (h : c.rest = (Piece.close name blanks).render ++ rest) :
    c.construct.1.filterMap Event.mark? = [.close name] ∧ c.construct.2.rest = rest := by
  have hr : c.rest = '<' :: '/' :: (name.toList ++ (blanks ++ '>' :: rest)) := by
    rw [h]
    simp [Piece.render]
  obtain ⟨hconstruct, hev, hrest⟩ := closingTag_spelled hp.1 hp.2 hr
  rw [hconstruct, hev]
  exact ⟨rfl, hrest⟩

theorem construct_literal {raw : List Char} (hp : (Piece.literal raw).WellFormed)
    (h : c.rest = (Piece.literal raw).render ++ rest) :
    c.construct.1.filterMap Event.mark? = [] ∧ c.construct.2.rest = rest := by
  have hc : c.construct = c.literal := by simp [construct, sees, h, Piece.render]
  have hinner : (c.drop 9).rest = raw ++ ([']', ']'] ++ ['>']) ++ rest := by
    simp [drop, h, Piece.render]
  rw [hc]
  exact ⟨rfl, (past_rest_iff (by decide) hinner).2 hp⟩

/-- a piece that is no text is read to its end and tells what was written -/
theorem construct_piece {p : Piece} (hp : p.WellFormed) (ht : ∀ raw, p ≠ .text raw)
    (ha : ∀ a, p = .aside a → a.Plain) (h : c.rest = p.render ++ rest) :
    c.construct.1.filterMap Event.mark? = p.marks ∧ c.construct.2.rest = rest := by
  cases p with
  | text raw => exact absurd rfl (ht raw)
  | literal raw => exact construct_literal hp h
  | tag name attributes blanks ended => exact construct_tag hp h
  | close name blanks => exact construct_close hp h
  | aside a =>
    obtain ⟨hnone, hrest⟩ := aside_passed_iff hp h
    exact ⟨by rw [hnone]; rfl, hrest.2 (ha a rfl)⟩

end Cursor

theorem Piece.render_eq_cons {p : Piece} (ht : ∀ raw, p ≠ .text raw) :
    ∃ tail, p.render = '<' :: tail := by
  cases p with
  | text raw => exact absurd rfl (ht raw)
  | literal raw => exact ⟨_, rfl⟩
  | tag name attributes blanks ended => exact ⟨_, rfl⟩
  | close name blanks => exact ⟨_, rfl⟩
  | aside a => cases a <;> exact ⟨_, rfl⟩

/-! ### Written forests -/

/-- the pieces of a written forest -/
def Forest.pieces : Forest → List Piece
  | nil => []
  | text raw rest => .text raw.toList :: rest.pieces
  | leaf name attributes rest =>
    .tag name (attributes.map .ofPair) [] true :: rest.pieces
  | element name attributes children rest =>
    .tag name (attributes.map .ofPair) [] false ::
      (children.pieces ++ .close name [] :: rest.pieces)

theorem Forest.render_pieces (f : Forest) : f.pieces.flatMap Piece.render = f.render := by
  induction f with
  | nil => rfl
  | text raw rest ih => simp [pieces, render, Piece.render, ih]
  | leaf name attributes rest ih =>
    simp [pieces, render, Piece.render, flatMap_ofPair, tagEnd, ih]
  | element name attributes children rest ihc ih =>
    simp [pieces, render, Piece.render, flatMap_ofPair, tagEnd, ihc, ih]

theorem Forest.WellFormed.pieces {f : Forest} (h : f.WellFormed) :
    ∀ p ∈ f.pieces, p.WellFormed := by
  induction f with
  | nil => exact fun p hp => by cases hp
  | text raw rest ih => exact List.forall_mem_cons.2 ⟨h.1.1, ih h.2.2⟩
  | leaf name attributes rest ih =>
    exact List.forall_mem_cons.2 ⟨⟨h.1, wellFormed_ofPair h.2.1, blanks_nil⟩, ih h.2.2⟩
  | element name attributes children rest ihc ih =>
    refine List.forall_mem_cons.2 ⟨⟨h.1, wellFormed_ofPair h.2.1, blanks_nil⟩, ?_⟩
    refine List.forall_mem_append.2 ⟨ihc h.2.2.1, ?_⟩
    exact List.forall_mem_cons.2 ⟨⟨h.1, blanks_nil⟩, ih h.2.2.2⟩

end ProjectSense
