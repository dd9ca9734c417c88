import Mathlib.Data.List.Chain
import ProjectSense.Path.Template
import ProjectSense.Proofs.Text.Blank
import ProjectSense.Proofs.Text.Break

/-!
# Templates and their parts

Parts are written one after another as a template, which is cut into parts again.  That gives the
same parts back just when no reference begins in a literal.

* `TemplatePart.split_reference`: what is cut off the front of a template.
* `TemplatePart.split_write_iff`: when the parts are read as they were meant.
-/

namespace ProjectSense

namespace TemplatePart

variable {text before after rest found : List Char} {name : String} {part : TemplatePart}
  {parts : List TemplatePart}

/-! ### The front of a template -/

/-- a reference is cut off with the literal before it -/
theorem split_of_some (h : Text.breakOn ['$', '('] text = (before, some after))
    (g : Text.breakOn [')'] after = (found, some rest)) :
    split text = literals before ++ property (String.ofList (Text.trim found)) :: split rest := by
  rw [split]
  split
  · next h' =>
    obtain ⟨rfl, hafter⟩ := Prod.mk.inj (h.symm.trans h')
    obtain rfl := Option.some.inj hafter
    split
    · next g' =>
      obtain ⟨rfl, hrest⟩ := Prod.mk.inj (g.symm.trans g')
      obtain rfl := Option.some.inj hrest
      rfl
    · next g' => cases g.symm.trans g'
  · next h' => cases h.symm.trans h'

/-- a reference begins and ends in the text -/
def Refers (text : List Char) : Prop :=
  ∃ before after, text = before ++ ['$', '('] ++ after ∧ ')' ∈ after

theorem split_of_not_refers (h : ¬Refers text) : split text = literals text := by
  rw [split]
  split
  · next before after hopen =>
    split
    · next found rest hclose =>
      refine absurd ⟨before, after, Text.breakOn_eq hopen, ?_⟩ h
      rw [Text.breakOn_eq hclose]
      simp
    · rfl
  · rfl

/-- where a reference begins and ends, one is cut off, and no opener stands before it -/
theorem split_of_refers (h : Refers text) :
    ∃ before found rest, ¬['$', '('] <:+: before ∧
      split text = literals before ++ property found :: split rest := by
  obtain ⟨front, back, rfl, hback⟩ := h
  obtain ⟨before, after, hopen, hafter⟩ :=
    Text.breakOn_occurrence (List.cons_ne_nil '$' ['(']) front back
  obtain ⟨inner, outer, rfl⟩ := List.append_of_mem (hafter.subset hback)
  obtain ⟨found, rest, hclose, -⟩ :=
    Text.breakOn_occurrence (List.cons_ne_nil ')' []) inner outer
  rw [List.append_assoc] at hclose
  refine ⟨before, _, rest, ?_, split_of_some hopen hclose⟩
  have hnot := Text.not_infix_breakOn (List.cons_ne_nil '$' ['(']) (front ++ ['$', '('] ++ back)
  rwa [hopen] at hnot

/-- a text that opens no reference does not do so with a sign after it either -/
theorem not_infix_dollar (h : ¬['$', '('] <:+: text) : ¬['$', '('] <:+: text ++ ['$'] := by
  rw [List.infix_concat_iff, not_or]
  refine ⟨fun hend => ?_, h⟩
  obtain ⟨front, hfront⟩ := hend
  have hlast := congrArg List.getLast? hfront
  simp at hlast

/-- a literal without an opener and a reference after it are cut off as they stand -/
theorem split_reference (htext : ¬['$', '('] <:+: text)
    (hname : ∀ c ∈ name.toList, Text.isBlank c = false ∧ c ≠ ')') (rest : List Char) :
    split (text ++ ['$', '('] ++ (name.toList ++ [')'] ++ rest)) =
      literals text ++ property name :: split rest := by
  have hopen : Text.breakOn ['$', '('] (text ++ ['$', '('] ++ (name.toList ++ [')'] ++ rest)) =
      (text, some (name.toList ++ [')'] ++ rest)) :=
    Text.breakOn_pattern (List.cons_ne_nil _ _) (not_infix_dollar htext) _
  have hclose : Text.breakOn [')'] (name.toList ++ [')'] ++ rest) = (name.toList, some rest) := by
    refine Text.breakOn_pattern (List.cons_ne_nil _ _) ?_ rest
    rw [List.dropLast_singleton, List.append_nil]
    intro hin
    exact (hname ')' (hin.subset List.mem_cons_self)).2 rfl
  have htrim : String.ofList (Text.trim name.toList) = name := by
    rw [Text.trim_of_not_blank fun c hc => (hname c hc).1, String.ofList_toList]
  rw [split_of_some hopen hclose, htrim]

/-! ### Templates written from parts -/

/-- the parts, one after another -/
def write (parts : List TemplatePart) : List Char := fill (fun name => "$(" ++ name ++ ")") parts

def isLiteral : TemplatePart → Bool
  | literal _ => true
  | property _ => false

/-- no two literals stand side by side, and names hold neither blanks nor `)` -/
structure WellFormed (parts : List TemplatePart) : Prop where
  apart : parts.IsChain fun a b => ¬(a.isLiteral = true ∧ b.isLiteral = true)
  names : ∀ name, property name ∈ parts → ∀ c ∈ name.toList, Text.isBlank c = false ∧ c ≠ ')'

/-- no reference begins in a literal: the last one holds none, and before a reference there is not
even an opener -/
def Plain : List TemplatePart → Prop
  | [] => True
  | [literal text] => ¬Refers text
  | literal text :: part :: parts => ¬['$', '('] <:+: text ∧ Plain (part :: parts)
  | property _ :: parts => Plain parts

/-- the parts without empty literals -/
def solid (parts : List TemplatePart) : List TemplatePart := parts.filter (· ≠ literal [])

theorem solid_literal (text : List Char) (parts : List TemplatePart) :
    solid (literal text :: parts) = literals text ++ solid parts := by
  by_cases h : text = [] <;> simp [solid, literals, h]

theorem solid_property (name : String) (parts : List TemplatePart) :
    solid (property name :: parts) = property name :: solid parts := by
  simp [solid]

theorem write_literal (text : List Char) (parts : List TemplatePart) :
    write (literal text :: parts) = text ++ write parts := fill_literal _ parts text

theorem write_text (text : List Char) : write [literal text] = text := by
  rw [write_literal, write, fill_nil, List.append_nil]

theorem write_property (name : String) (parts : List TemplatePart) :
    write (property name :: parts) = ['$', '('] ++ (name.toList ++ [')'] ++ write parts) := by
  have hwrite : write (property name :: parts) =
      ("$(" ++ name ++ ")").toList ++ write parts := fill_property _ parts name
  rw [hwrite, String.toList_append, String.toList_append, List.append_assoc, List.append_assoc,
    List.append_assoc]
  rfl

theorem WellFormed.tail (h : WellFormed (part :: parts)) : WellFormed parts :=
  ⟨h.apart.tail, fun name hname => h.names name (List.mem_cons_of_mem _ hname)⟩

/-- plain parts are read as they were written -/
-- a literal is cut off together with the property after it, so that the recursion passes both
theorem split_write : ∀ {parts : List TemplatePart}, WellFormed parts → Plain parts →
    split (write parts) = solid parts
  | [], _, _ => by
    have hnil : ¬Refers [] := by
      rintro ⟨before, after, hempty, -⟩
      simp at hempty
    exact split_of_not_refers hnil
  | [literal text], _, hplain => by
    rw [write_text, split_of_not_refers hplain, solid_literal]
    exact (List.append_nil _).symm
  | literal _ :: literal _ :: _, hform, _ =>
    absurd ⟨rfl, rfl⟩ (List.isChain_cons_cons.1 hform.apart).1
  | literal text :: property name :: parts, hform, hplain => by
    have hrest := split_write hform.tail.tail hplain.2
    rw [write_literal, write_property, ← List.append_assoc,
      split_reference hplain.1 (hform.names name (by simp)), hrest, solid_literal, solid_property]
  | property name :: parts, hform, hplain => by
    have hrest := split_write hform.tail hplain
    have hnone : ¬['$', '('] <:+: ([] : List Char) := by decide
    have hsplit := split_reference hnone (hform.names name (by simp)) (write parts)
    rw [write_property, ← List.nil_append ['$', '('], hsplit, hrest, solid_property]
    rfl

theorem not_mem_literals (name : String) (text : List Char) : property name ∉ literals text := by
  unfold literals
  split <;> simp

/-- a literal that opens a reference is not read as it was written -/
theorem not_infix_of_split (hform : WellFormed (literal text :: property name :: parts))
    (h : split (write (literal text :: property name :: parts)) =
      solid (literal text :: property name :: parts)) : ¬['$', '('] <:+: text := by
  rintro ⟨front, back, rfl⟩
  have hrefers : Refers (write (literal (front ++ ['$', '('] ++ back) :: property name :: parts)) :=
    ⟨front, back ++ write (property name :: parts), by simp [write_literal],
      by simp [write_property]⟩
  obtain ⟨before, found, rest, hnone, hsplit⟩ := split_of_refers hrefers
  have hsolid : literals (front ++ ['$', '('] ++ back) =
      [literal (front ++ ['$', '('] ++ back)] := if_neg (by simp)
  rw [hsplit, solid_literal, hsolid] at h
  by_cases hempty : before = []
  · rw [literals, if_pos hempty] at h
    cases (List.cons.inj h).1
  · rw [literals, if_neg hempty] at h
    have hbefore : before = front ++ ['$', '('] ++ back :=
      literal.inj (List.cons.inj h).1
    exact hnone ⟨front, back, hbefore.symm⟩

theorem plain_of_split : ∀ {parts : List TemplatePart}, WellFormed parts →
    split (write parts) = solid parts → Plain parts
  | [], _, _ => trivial
  | [literal text], _, h => by
    have hsolid : solid [literal text] = literals text :=
      (solid_literal text []).trans (List.append_nil _)
    rw [write_text, hsolid] at h
    intro hrefers
    obtain ⟨before, found, rest, -, hsplit⟩ := split_of_refers hrefers
    refine not_mem_literals found text (h ▸ hsplit ▸ ?_)
    exact List.mem_append_right _ List.mem_cons_self
  | literal _ :: literal _ :: _, hform, _ =>
    absurd ⟨rfl, rfl⟩ (List.isChain_cons_cons.1 hform.apart).1
  | literal text :: property name :: parts, hform, h => by
    have hnone := not_infix_of_split hform h
    rw [write_literal, write_property, ← List.append_assoc,
      split_reference hnone (hform.names name (by simp)), solid_literal, solid_property] at h
    have hrest : Plain parts :=
      plain_of_split hform.tail.tail (List.cons.inj (List.append_cancel_left h)).2
    exact ⟨hnone, hrest⟩
  | property name :: parts, hform, h => by
    have hnone : ¬['$', '('] <:+: ([] : List Char) := by decide
    have hsplit := split_reference hnone (hform.names name (by simp)) (write parts)
    rw [write_property, ← List.nil_append ['$', '('], hsplit, solid_property] at h
    have hrest : Plain parts := plain_of_split hform.tail (List.cons.inj h).2
    exact hrest

/-- Parts that are written as a template are read back, without the empty literals among them, just
when no reference begins in a literal. -/
theorem split_write_iff (h : WellFormed parts) : split (write parts) = solid parts ↔ Plain parts :=
  ⟨plain_of_split h, split_write h⟩

end TemplatePart
end ProjectSense
