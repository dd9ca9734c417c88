/-!
# Widths of texts

The width of a text is the number of bytes of its UTF-8 form.  Cuts are made at a width and fall
back to the last whole character.

* `width_append`: widths add up.
* `takeWidth_append_dropWidth`: a cut loses nothing.
-/

namespace ProjectSense.Text

/-- bytes that the UTF-8 form of the characters takes -/
def width (cs : List Char) : Nat := cs.foldr (fun c n => c.utf8Size + n) 0

@[simp] theorem width_nil : width [] = 0 := rfl

@[simp] theorem width_cons (c : Char) (cs : List Char) :
    width (c :: cs) = c.utf8Size + width cs := rfl

@[simp] theorem width_append (cs ds : List Char) : width (cs ++ ds) = width cs + width ds := by
  induction cs with
  | nil => simp
  | cons c cs ih => rw [List.cons_append, width_cons, width_cons, ih, Nat.add_assoc]

/-- the longest front whose width is at most `n` -/
def takeWidth : Nat → List Char → List Char
  | _, [] => []
  | n, c :: cs => if c.utf8Size ≤ n then c :: takeWidth (n - c.utf8Size) cs else []

/-- what `takeWidth` leaves -/
def dropWidth : Nat → List Char → List Char
  | _, [] => []
  | n, c :: cs => if c.utf8Size ≤ n then dropWidth (n - c.utf8Size) cs else c :: cs

theorem takeWidth_append_dropWidth (n : Nat) (cs : List Char) :
    takeWidth n cs ++ dropWidth n cs = cs := by
  induction cs generalizing n with
  | nil => rfl
  | cons c cs ih =>
    by_cases h : c.utf8Size ≤ n <;> simp [takeWidth, dropWidth, h, ih]

theorem width_takeWidth_le (n : Nat) (cs : List Char) : width (takeWidth n cs) ≤ n := by
  induction cs generalizing n with
  | nil => simp [takeWidth]
  | cons c cs ih =>
    by_cases h : c.utf8Size ≤ n
    · have := ih (n - c.utf8Size)
      simp [takeWidth, h]; omega
    · simp [takeWidth, h]

end ProjectSense.Text
