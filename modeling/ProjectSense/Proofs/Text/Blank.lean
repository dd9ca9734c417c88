import Mathlib.Data.List.Range
import ProjectSense.Text.Blank

/-!
# Texts without blanks at their ends

* `not_blank_of_runs`: a class of characters that holds none of the blanks.
* `trim_of_ends`: there is nothing to trim where neither end is blank.
* `not_blank_getLast?_trim`, `trim_trim`: nothing is left to trim.
-/

namespace ProjectSense.Text

variable {cs : List Char} {c : Char}

/-- the code points of the runs -/
def codesOf (runs : List (Nat × Nat)) : List Nat :=
  runs.flatMap fun r => List.range' r.1 (r.2 + 1 - r.1)

theorem mem_of_inRuns {runs : List (Nat × Nat)} {n : Nat} (h : inRuns runs n = true) :
    n ∈ codesOf runs := by
  obtain ⟨r, hr, hn⟩ := List.any_eq_true.1 h
  simp only [Bool.and_eq_true, decide_eq_true_eq] at hn
  refine List.mem_flatMap.2 ⟨r, hr, ?_⟩
  rw [List.mem_range'_1]
  omega

-- the blanks are looked at, never all characters of the class
theorem not_blank_of_runs {p : Char → Bool} (hp : ∀ n ∈ codesOf blankRuns, p (Char.ofNat n) = false)
    (h : p c = true) : isBlank c = false := by
  refine Bool.eq_false_iff.2 ?_
  intro hblank
  have hnot := hp c.toNat (mem_of_inRuns hblank)
  rw [Char.ofNat_toNat, h] at hnot
  cases hnot

theorem dropWhile_blank (h : ∀ c ∈ cs.head?, isBlank c = false) : cs.dropWhile isBlank = cs := by
  cases cs with
  | nil => rfl
  | cons c cs => rw [List.dropWhile_cons, h c rfl, if_neg Bool.false_ne_true]

theorem trim_of_ends (hfront : ∀ c ∈ cs.head?, isBlank c = false)
    (hback : ∀ c ∈ cs.getLast?, isBlank c = false) : trim cs = cs := by
  have hreverse : cs.reverse.dropWhile isBlank = cs.reverse :=
    dropWhile_blank (List.head?_reverse ▸ hback)
  rw [trim, trimEnd, trimStart, dropWhile_blank hfront, hreverse, List.reverse_reverse]

theorem trim_of_not_blank (h : ∀ c ∈ cs, isBlank c = false) : trim cs = cs :=
  trim_of_ends (fun c hc => h c (List.mem_of_mem_head? hc))
    (fun c hc => h c (List.mem_of_getLast? hc))

theorem not_blank_getLast?_trim (cs : List Char) :
    ∀ c ∈ (trim cs).getLast?, isBlank c = false := by
  intro c hc
  rw [trim, trimEnd, List.getLast?_reverse] at hc
  have hnot := List.head?_dropWhile_not isBlank (trimStart cs).reverse
  rw [hc] at hnot
  simpa using hnot

theorem prefix_trimEnd (cs : List Char) : trimEnd cs <+: cs := by
  rw [← List.reverse_suffix, trimEnd, List.reverse_reverse]
  exact List.dropWhile_suffix isBlank

theorem trim_infix (cs : List Char) : trim cs <:+: cs :=
  (prefix_trimEnd (trimStart cs)).isInfix.trans (List.dropWhile_suffix isBlank).isInfix

theorem not_blank_head?_trim (cs : List Char) : ∀ c ∈ (trim cs).head?, isBlank c = false := by
  intro c hc
  obtain ⟨rest, hrest⟩ := prefix_trimEnd (trimStart cs)
  have hhead : (trimStart cs).head? = some c := by
    have hfirst : (trimEnd (trimStart cs)).head? = some c := hc
    rw [← hrest, List.head?_append, hfirst, Option.some_or]
  have hnot := List.head?_dropWhile_not isBlank cs
  rw [trimStart] at hhead
  rw [hhead] at hnot
  simpa using hnot

theorem trim_trim (cs : List Char) : trim (trim cs) = trim cs :=
  trim_of_ends (not_blank_head?_trim cs) (not_blank_getLast?_trim cs)

end ProjectSense.Text
