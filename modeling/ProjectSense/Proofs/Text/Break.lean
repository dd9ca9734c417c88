import Mathlib.Data.List.Forall2
import Mathlib.Data.List.Infix
import Mathlib.Data.List.TakeWhile
import ProjectSense.Text.Break

/-!
# Searching for a pattern and cutting at separators

The search finds the first occurrence, and finds it whatever follows.  The pieces between separators
are those of `List.splitOnP`.

* `breakOn_pattern`: a pattern after a text in which it does not begin.
* `breakOn_occurrence`: a pattern that stands in the text is found.
* `breakOn_rest_iff`: whether what is found is a given occurrence.
* `breakOn_append`, `breakOn_append_none`: the search in a longer text.
* `breakOn_char`, `not_mem_breakOn`: the first place of a character.
* `splitOn_eq_splitOnP`, `splitOn_append`, `not_sep_of_mem_splitOn`: the pieces.
* `mapM_eq_some_iff`: pieces that are all read.
* `uptoLast_append`, `afterLast_append_cons`: the last separator.
-/

namespace ProjectSense.Text

variable {pattern cs before : List Char}

/-! ### The first occurrence -/

theorem breakOn_prefix (pattern cs : List Char) : (breakOn pattern cs).1 <+: cs := by
  induction cs with
  | nil => exact List.prefix_rfl
  | cons c cs ih =>
    rw [breakOn]
    split
    · exact List.nil_prefix
    · exact List.cons_prefix_cons.2 ⟨rfl, ih⟩

/-- the pattern does not stand before its first occurrence -/
theorem not_infix_breakOn (hp : pattern ≠ []) (cs : List Char) :
    ¬pattern <:+: (breakOn pattern cs).1 := by
  induction cs with
  | nil => exact fun h => hp (List.infix_nil.1 h)
  | cons c cs ih =>
    rw [breakOn]
    split
    · exact fun h => hp (List.infix_nil.1 h)
    · next hpre =>
      rw [List.infix_cons_iff, not_or]
      refine ⟨fun h => hpre (List.isPrefixOf_iff_prefix.2 (h.trans ?_)), ih⟩
      exact List.cons_prefix_cons.2 ⟨rfl, breakOn_prefix pattern cs⟩

/-- where the pattern stands it is found, there or before -/
theorem breakOn_occurrence (hp : pattern ≠ []) (front back : List Char) :
    ∃ before after, breakOn pattern (front ++ pattern ++ back) = (before, some after) ∧
      back <:+ after := by
  induction front with
  | nil =>
    obtain ⟨c, cs, rfl⟩ := List.exists_cons_of_ne_nil hp
    exact ⟨[], back, by simp [breakOn], List.suffix_rfl⟩
  | cons c front ih =>
    rw [List.cons_append, List.cons_append, breakOn]
    split
    · refine ⟨[], _, rfl, ?_⟩
      rw [← List.cons_append, ← List.cons_append, List.drop_append_of_le_length (by simp; omega)]
      exact List.suffix_append _ _
    · obtain ⟨before, after, hfound, hback⟩ := ih
      exact ⟨c :: before, after, by rw [hfound], hback⟩

/-! ### Patterns in a longer text -/

theorem breakOn_none (h : breakOn pattern cs = (before, none)) :
    before = cs := by
  induction cs generalizing before with
  | nil => exact (Prod.mk.inj h).1.symm
  | cons c cs ih =>
    by_cases hp : pattern.isPrefixOf (c :: cs) = true
    · rw [breakOn, if_pos hp] at h
      exact absurd (Prod.mk.inj h).2 (by simp)
    · rw [breakOn, if_neg hp] at h
      obtain ⟨rfl, h2⟩ := Prod.mk.inj h
      exact congrArg (c :: ·) (ih (Prod.ext rfl h2 : breakOn pattern cs = (_, none)))

theorem breakOn_none_not_infix (hp : pattern ≠ [])
    (h : breakOn pattern cs = (before, none)) (front back : List Char) :
    cs ≠ front ++ pattern ++ back := by
  induction cs generalizing before front with
  | nil =>
    intro heq
    have := congrArg List.length heq
    have := List.length_pos_iff.2 hp
    simp at *
    omega
  | cons c cs ih =>
    by_cases hpre : pattern.isPrefixOf (c :: cs) = true
    · rw [breakOn, if_pos hpre] at h
      exact absurd (Prod.mk.inj h).2 (by simp)
    · rw [breakOn, if_neg hpre] at h
      obtain ⟨-, h2⟩ := Prod.mk.inj h
      intro heq
      cases front with
      | nil =>
        refine hpre (List.isPrefixOf_iff_prefix.2 ?_)
        rw [heq, List.nil_append]
        exact List.prefix_append pattern back
      | cons d front =>
        rw [List.cons_append, List.cons_append] at heq
        exact ih (Prod.ext rfl h2 : breakOn pattern cs = (_, none)) front (List.cons.inj heq).2

theorem breakOn_append {after : List Char}
    (h : breakOn pattern cs = (before, some after)) (post : List Char) :
    breakOn pattern (cs ++ post) = (before, some (after ++ post)) := by
  induction cs generalizing before with
  | nil => cases (Prod.mk.inj h).2
  | cons c cs ih =>
    by_cases hpre : pattern.isPrefixOf (c :: cs) = true
    · have hpre' : pattern.isPrefixOf (c :: (cs ++ post)) = true := by
        rw [List.isPrefixOf_iff_prefix] at hpre ⊢
        exact hpre.trans (List.prefix_append (c :: cs) post)
      rw [breakOn, if_pos hpre] at h
      obtain ⟨rfl, h2⟩ := Prod.mk.inj h
      obtain rfl := Option.some.inj h2
      obtain ⟨tail, ht⟩ := List.isPrefixOf_iff_prefix.1 hpre
      rw [List.cons_append, breakOn, if_pos hpre', ← List.cons_append, ← ht]
      simp
    · rw [breakOn, if_neg hpre] at h
      obtain ⟨rfl, h2⟩ := Prod.mk.inj h
      have hcs : breakOn pattern cs = (_, some after) := Prod.ext rfl h2
      -- the pattern stands in what is left, so it is not longer than that
      have hpre' : ¬pattern.isPrefixOf (c :: (cs ++ post)) = true := by
        intro hlong
        refine hpre (List.isPrefixOf_iff_prefix.2 ?_)
        refine List.prefix_of_prefix_length_le (List.isPrefixOf_iff_prefix.1 hlong)
          (List.prefix_append (c :: cs) post) ?_
        have := congrArg List.length (breakOn_eq hcs)
        simp at this ⊢
        omega
      have key := ih hcs
      rw [List.cons_append, breakOn, if_neg hpre', key]

theorem breakOn_append_none {before' after : List Char} (hp : pattern ≠ [])
    (h : breakOn pattern cs = (before, none)) {post : List Char}
    (h' : breakOn pattern (cs ++ post) = (before', some after)) :
    cs <+: before' ++ pattern := by
  have heq := breakOn_eq h'
  have hpre : before' ++ pattern <+: cs ++ post := ⟨after, heq.symm⟩
  refine List.prefix_of_prefix_length_le (List.prefix_append cs post) hpre ?_
  refine Nat.le_of_not_lt ?_
  intro hlt
  obtain ⟨back, hb⟩ := List.prefix_of_prefix_length_le hpre (List.prefix_append cs post)
    (Nat.le_of_lt hlt)
  exact breakOn_none_not_infix hp h before' back hb.symm

/-- a pattern after a text is found there if it begins nowhere before -/
theorem breakOn_pattern (hp : pattern ≠ []) (h : ¬pattern <:+: before ++ pattern.dropLast)
    (after : List Char) : breakOn pattern (before ++ pattern ++ after) = (before, some after) := by
  have hend : breakOn pattern (before ++ pattern) = (before, some []) := by
    induction before with
    | nil =>
      obtain ⟨c, cs, rfl⟩ := List.exists_cons_of_ne_nil hp
      simp [breakOn]
    | cons c before ih =>
      rw [List.cons_append, List.infix_cons_iff, not_or] at h
      have hpre : ¬pattern.isPrefixOf (c :: (before ++ pattern)) = true := by
        intro hpre
        refine h.1 (List.prefix_of_prefix_length_le (List.isPrefixOf_iff_prefix.1 hpre) ?_ ?_)
        · exact (List.prefix_append_right_inj (c :: before)).2 (List.dropLast_prefix pattern)
        · have := List.length_pos_iff.2 hp
          simp
          omega
      rw [List.cons_append, breakOn, if_neg hpre, ih h.2]
  exact breakOn_append hend after

/-- a pattern after a text is found there exactly if it does not stand before; its last character
stands nowhere else in it -/
theorem breakOn_rest_iff {front : List Char} {last : Char} (hlast : last ∉ front)
    (before rest : List Char) :
    (breakOn (front ++ [last]) (before ++ (front ++ [last]) ++ rest)).2 = some rest ↔
      ¬(front ++ [last]) <:+: before := by
  have hp : front ++ [last] ≠ [] := by simp
  constructor
  · rintro h ⟨left, right, rfl⟩
    obtain ⟨found, after, hf, hsuffix⟩ :=
      breakOn_occurrence hp left (right ++ (front ++ [last]) ++ rest)
    rw [← List.append_assoc, ← List.append_assoc] at hf
    rw [hf] at h
    obtain rfl := Option.some.inj h
    have := hsuffix.length_le
    simp only [List.length_append, List.length_singleton] at this
    omega
  · intro h
    rw [breakOn_pattern hp ?_ rest]
    rw [List.dropLast_concat, List.infix_append_iff]
    rintro (hin | hin | ⟨l₁, l₂, heq, h₁, h₂⟩)
    · exact h hin
    · exact hlast (hin.subset (by simp))
    · -- an occurrence that ends behind the text ends in the part without its last character
      rcases List.eq_nil_or_concat l₂ with rfl | ⟨l, x, rfl⟩
      · rw [List.append_nil] at heq
        exact h (heq ▸ h₁.isInfix)
      · rw [List.concat_eq_append, ← List.append_assoc] at heq
        obtain ⟨-, hx⟩ := List.append_inj' heq rfl
        obtain rfl := (List.cons.inj hx).1
        exact hlast (h₂.subset (by simp))

/-! ### Single characters -/

theorem not_mem_breakOn {c : Char} {after : List Char}
    (h : breakOn [c] cs = (before, some after)) : c ∉ before := by
  intro hmem
  refine not_infix_breakOn (List.cons_ne_nil c []) cs ?_
  obtain ⟨front, back, heq⟩ := List.append_of_mem hmem
  exact ⟨front, back, by rw [h, heq, List.append_assoc]; rfl⟩

theorem not_mem_of_breakOn_none {c : Char} (h : breakOn [c] cs = (before, none)) : c ∉ cs := by
  intro hmem
  obtain ⟨front, back, heq⟩ := List.append_of_mem hmem
  refine breakOn_none_not_infix (List.cons_ne_nil c []) h front back ?_
  rw [heq, List.append_assoc]
  rfl

theorem breakOn_char {c : Char} (h : c ∉ before) (after : List Char) :
    breakOn [c] (before ++ c :: after) = (before, some after) := by
  rw [List.append_cons]
  refine breakOn_pattern (List.cons_ne_nil c []) (fun hin => ?_) after
  rw [List.dropLast_singleton, List.append_nil] at hin
  exact h (hin.subset List.mem_cons_self)

theorem breakOn_char_none {c : Char} (h : c ∉ cs) : breakOn [c] cs = (cs, none) := by
  rcases hbreak : breakOn [c] cs with ⟨before, _ | after⟩
  · rw [breakOn_none hbreak]
  · refine absurd ?_ h
    rw [breakOn_eq hbreak]
    simp

/-! ### Cutting at separators -/

variable {sep : Char → Bool} {piece : List Char}

theorem splitOn_eq_splitOnP (sep : Char → Bool) (cs : List Char) :
    splitOn sep cs = cs.splitOnP sep := by
  induction cs with
  | nil => rfl
  | cons c cs ih =>
    rw [splitOn, List.splitOnP_cons_eq_if_modifyHead, ih]
    split
    · rfl
    · cases hcs : List.splitOnP sep cs with
      | nil => exact absurd hcs (List.splitOnP_ne_nil sep cs)
      | cons first more => rfl

theorem splitOn_append (front : List Char) {s : Char} (hs : sep s = true) (back : List Char) :
    splitOn sep (front ++ s :: back) = splitOn sep front ++ splitOn sep back := by
  simp only [splitOn_eq_splitOnP]
  exact List.splitOnP_append_cons _ _ hs

theorem beq_of_not_mem {s : Char} (h : s ∉ cs) : ∀ c ∈ cs, (c == s) = false :=
  fun _ hc => beq_eq_false_iff_ne.2 fun heq => h (heq ▸ hc)

theorem splitOn_eq_singleton (h : ∀ c ∈ cs, sep c = false) : splitOn sep cs = [cs] := by
  rw [splitOn_eq_splitOnP, List.splitOnP_eq_singleton h]

/-- the pieces hold no separator -/
theorem not_sep_of_mem_splitOn (h : piece ∈ splitOn sep cs) : ∀ c ∈ piece, sep c = false := by
  induction cs generalizing piece with
  | nil =>
    obtain rfl := List.mem_singleton.1 h
    simp
  | cons c cs ih =>
    rw [splitOn] at h
    split at h
    · rcases List.mem_cons.1 h with rfl | h
      · simp
      · exact ih h
    · next hc =>
      cases hcs : splitOn sep cs with
      | nil => exact absurd hcs (splitOn_ne_nil sep cs)
      | cons first more =>
        rw [hcs] at h ih
        rcases List.mem_cons.1 h with rfl | h
        · exact List.forall_mem_cons.2 ⟨Bool.eq_false_iff.2 hc, ih List.mem_cons_self⟩
        · exact ih (List.mem_cons_of_mem first h)

/-- the first piece, character by character -/
theorem head?_splitOn_cons {c : Char} {tail : List Char} :
    (splitOn sep cs).head? = some (c :: tail) ↔
      ∃ rest, cs = c :: rest ∧ sep c = false ∧ (splitOn sep rest).head? = some tail := by
  cases cs with
  | nil => simp [splitOn]
  | cons d cs =>
    rw [splitOn]
    split
    · next hd =>
      simp only [List.head?_cons, Option.some.injEq, reduceCtorEq, List.cons.injEq, false_iff]
      rintro ⟨rest, ⟨rfl, rfl⟩, hc, -⟩
      rw [hd] at hc
      cases hc
    · next hd =>
      cases hcs : splitOn sep cs with
      | nil => exact absurd hcs (splitOn_ne_nil sep cs)
      | cons first more =>
        simp only [List.head?_cons, Option.some.injEq, List.cons.injEq]
        constructor
        · rintro ⟨rfl, rfl⟩
          exact ⟨cs, ⟨rfl, rfl⟩, Bool.eq_false_iff.2 hd, by rw [hcs, List.head?_cons]⟩
        · rintro ⟨rest, ⟨rfl, rfl⟩, -, hrest⟩
          rw [hcs] at hrest
          exact ⟨rfl, Option.some.inj hrest⟩

theorem mem_intercalate {c : Char} {joint : List Char} {pieces : List (List Char)}
    (h : c ∈ joint.intercalate pieces) : c ∈ joint ∨ ∃ piece ∈ pieces, c ∈ piece := by
  induction pieces with
  | nil => simp at h
  | cons piece pieces ih =>
    cases pieces with
    | nil => exact .inr ⟨piece, List.mem_cons_self, by simpa using h⟩
    | cons next more =>
      rw [List.intercalate_cons_cons, List.mem_append, List.mem_append] at h
      rcases h with (h | h) | h
      · exact .inr ⟨piece, List.mem_cons_self, h⟩
      · exact .inl h
      · exact (ih h).imp_right fun ⟨p, hp, hc⟩ => ⟨p, List.mem_cons_of_mem piece hp, hc⟩

/-- what is read one by one is read as a whole -/
theorem mapM_eq_some_iff {α β : Type} {f : α → Option β} {as : List α} {bs : List β} :
    as.mapM f = some bs ↔ List.Forall₂ (fun a b => f a = some b) as bs := by
  induction as generalizing bs with
  | nil => rw [List.mapM_nil, List.forall₂_nil_left_iff, eq_comm]; exact Option.some_inj
  | cons a as ih =>
    rw [List.mapM_cons, List.forall₂_cons_left_iff]
    simp only [Option.bind_eq_bind, Option.bind_eq_some_iff, ih]
    constructor
    · rintro ⟨b, hb, bs, hbs, heq⟩
      exact ⟨b, bs, hb, hbs, (Option.some.inj heq).symm⟩
    · rintro ⟨b, bs, hb, hbs, rfl⟩
      exact ⟨b, hb, bs, hbs, rfl⟩

/-! ### The last separator -/

theorem uptoLast_append {s : Char} (front : List Char) (hs : sep s = true)
    (h : ∀ c ∈ piece, sep c = false) : uptoLast sep (front ++ s :: piece) = front ++ [s] := by
  have hrev : (front ++ s :: piece).reverse = piece.reverse ++ s :: front.reverse := by simp
  have hpiece : ∀ c ∈ piece.reverse, (!sep c) = true := fun c hc => by
    rw [h c (List.mem_reverse.1 hc), Bool.not_false]
  rw [uptoLast, hrev, List.dropWhile_append_of_pos hpiece, List.dropWhile_cons_of_neg (by simp [hs])]
  simp

theorem uptoLast_eq_nil (h : ∀ c ∈ cs, sep c = false) : uptoLast sep cs = [] := by
  have hall : ∀ c ∈ cs.reverse, (!sep c) = true := fun c hc => by
    rw [h c (List.mem_reverse.1 hc), Bool.not_false]
  rw [uptoLast, List.dropWhile_eq_nil_iff.2 hall, List.reverse_nil]

theorem afterLast_append_cons {s : Char} (front : List Char) (hs : sep s = true)
    (h : ∀ c ∈ piece, sep c = false) : afterLast sep (front ++ s :: piece) = piece := by
  have hparts := afterLast_append sep (front ++ s :: piece)
  rw [uptoLast_append front hs h, List.append_assoc] at hparts
  exact (List.cons.inj (List.append_cancel_left hparts)).2

theorem afterLast_eq_self (h : ∀ c ∈ cs, sep c = false) : afterLast sep cs = cs := by
  have hparts := afterLast_append sep cs
  rwa [uptoLast_eq_nil h, List.nil_append] at hparts

end ProjectSense.Text
