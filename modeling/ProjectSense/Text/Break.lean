/-!
# Cutting a text apart

Searching for a pattern, cutting at every separator, and joining again.

* `breakOn_eq`: a text is what stands before the first occurrence, the occurrence, and the rest.
* `splitOn_ne_nil`: cutting at separators always gives a piece.
-/

namespace ProjectSense.Text

/-- what stands before the first occurrence of `pattern`, and what stands after it if it occurs -/
def breakOn (pattern : List Char) : List Char → List Char × Option (List Char)
  | [] => ([], none)
  | c :: cs =>
    if pattern.isPrefixOf (c :: cs) then ([], some ((c :: cs).drop pattern.length))
    else ((c :: (breakOn pattern cs).1), (breakOn pattern cs).2)

/-- the pieces between the characters that satisfy `sep` -/
def splitOn (sep : Char → Bool) : List Char → List (List Char)
  | [] => [[]]
  | c :: cs =>
    if sep c then [] :: splitOn sep cs
    else match splitOn sep cs with
      | [] => [[c]]
      | piece :: pieces => (c :: piece) :: pieces

/-- what stands after the last character that satisfies `sep`, or the whole text -/
def afterLast (sep : Char → Bool) (cs : List Char) : List Char :=
  (cs.reverse.takeWhile (fun c => !sep c)).reverse

/-- the text up to and including the last character that satisfies `sep` -/
def uptoLast (sep : Char → Bool) (cs : List Char) : List Char :=
  (cs.reverse.dropWhile (fun c => !sep c)).reverse

theorem splitOn_ne_nil (sep : Char → Bool) (cs : List Char) : splitOn sep cs ≠ [] := by
  cases cs with
  | nil => simp [splitOn]
  | cons c cs =>
    simp only [splitOn]
    split
    · simp
    · split <;> simp

theorem breakOn_eq {pattern cs before after : List Char}
    (h : breakOn pattern cs = (before, some after)) : cs = before ++ pattern ++ after := by
  induction cs generalizing before with
  | nil => simp [breakOn] at h
  | cons c cs ih =>
    by_cases hp : pattern.isPrefixOf (c :: cs) = true
    · simp only [breakOn, hp, if_true, Prod.mk.injEq, Option.some.injEq] at h
      obtain ⟨rfl, rfl⟩ := h
      obtain ⟨t, ht⟩ := List.isPrefixOf_iff_prefix.1 hp
      simp [← ht]
    · rw [breakOn, if_neg hp] at h
      obtain ⟨rfl, h2⟩ := Prod.mk.inj h
      have key := ih (Prod.ext rfl h2 : breakOn pattern cs = (_, some after))
      exact congrArg (c :: ·) key

theorem length_breakOn_lt {pattern cs before after : List Char} (hp : pattern ≠ [])
    (h : breakOn pattern cs = (before, some after)) : after.length < cs.length := by
  have := congrArg List.length (breakOn_eq h)
  have : 0 < pattern.length := List.length_pos_iff.2 hp
  simp at *; omega

theorem afterLast_append (sep : Char → Bool) (cs : List Char) :
    uptoLast sep cs ++ afterLast sep cs = cs := by
  simp [uptoLast, afterLast, ← List.reverse_append]

end ProjectSense.Text
