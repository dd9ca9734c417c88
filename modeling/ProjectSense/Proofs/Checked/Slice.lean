import ProjectSense.Proofs.Text.Place

/-!
# Steps that can fail

A program that works on the bytes of a text fails where it cuts inside a character or past the end,
where an offset leaves the range of 32 bits, and where a span would end before it starts.  Here
such a step gives `none`.

* `Checked.cut?_eq_some_iff`: where a text can be cut.
* `Checked.from?_of_in`, `Checked.slice?_of_passes`: what a cursor has read can be cut out.
-/

namespace ProjectSense.Checked

open Text (width)

/-! ### The steps -/

/-- the offset, if it is one of 32 bits -/
def word? (n : Nat) : Option Nat := if n < UInt32.size then some n else none

/-- the difference, unless it is negative -/
def sub? (m n : Nat) : Option Nat := if n ≤ m then some (m - n) else none

/-- the span, if its ends are offsets in order -/
def span? (start stop : Nat) : Option Span := do
  let start ← word? start
  let stop ← word? stop
  if start ≤ stop then some ⟨start, stop⟩ else none

/-- the text before and after the byte `n`; fails inside a character and past the end -/
def cut? (n : Nat) : List Char → Option (List Char × List Char)
  | [] => if n = 0 then some ([], []) else none
  | c :: cs =>
    if n = 0 then some ([], c :: cs)
    else if c.utf8Size ≤ n then
      (cut? (n - c.utf8Size) cs).map fun (front, back) => (c :: front, back)
    else none

/-- the text from the byte `start` on -/
def from? (start : Nat) (cs : List Char) : Option (List Char) := (cut? start cs).map (·.2)

/-- the text before the byte `stop` -/
def upto? (stop : Nat) (cs : List Char) : Option (List Char) := (cut? stop cs).map (·.1)

/-- the text from the byte `start` to the byte `stop` -/
def slice? (start stop : Nat) (cs : List Char) : Option (List Char) := do
  let rest ← from? start cs
  let length ← sub? stop start
  upto? length rest

/-! ### Where they succeed -/

variable {n start stop : Nat} {cs front part back : List Char}

theorem word?_of_lt (h : n < UInt32.size) : word? n = some n := if_pos h

theorem sub?_of_le {m : Nat} (h : n ≤ m) : sub? m n = some (m - n) := if_pos h

theorem span?_of_le (h : start ≤ stop) (hs : stop < UInt32.size) :
    span? start stop = some ⟨start, stop⟩ := by
  rw [span?, word?_of_lt (Nat.lt_of_le_of_lt h hs), word?_of_lt hs]
  exact if_pos h

/-- steps in a row, none of which fails -/
theorem mapM_of_eq {α β : Type} {f : α → Option β} {g : α → β} (h : ∀ a, f a = some (g a))
    (as : List α) : as.mapM f = some (as.map g) := by
  rw [show f = fun a => pure (g a) from funext h]
  exact List.mapM_pure

/-- a text can be cut between two characters and at its ends -/
theorem cut?_eq_some_iff :
    cut? n cs = some (front, back) ↔ cs = front ++ back ∧ n = width front := by
  induction cs generalizing n front with
  | nil =>
    rw [cut?]
    by_cases hn : n = 0
    · subst hn
      constructor
      · rintro ⟨⟩
        exact ⟨rfl, rfl⟩
      · rintro ⟨h, -⟩
        obtain ⟨rfl, rfl⟩ := List.append_eq_nil_iff.1 h.symm
        rfl
    · rw [if_neg hn]
      refine ⟨(nomatch ·), ?_⟩
      rintro ⟨h, hw⟩
      obtain ⟨rfl, -⟩ := List.append_eq_nil_iff.1 h.symm
      exact absurd hw hn
  | cons c cs ih =>
    have hpos := c.utf8Size_pos
    rw [cut?]
    by_cases hn : n = 0
    · subst hn
      rw [if_pos rfl]
      constructor
      · intro h
        obtain ⟨rfl, rfl⟩ := Prod.mk.inj (Option.some.inj h)
        exact ⟨rfl, rfl⟩
      · rintro ⟨h, hw⟩
        obtain rfl := Text.width_eq_zero.1 hw.symm
        obtain rfl := h
        rfl
    rw [if_neg hn]
    by_cases hle : c.utf8Size ≤ n
    · rw [if_pos hle, Option.map_eq_some_iff]
      constructor
      · rintro ⟨⟨front', back'⟩, hcut, heq⟩
        obtain ⟨rfl, rfl⟩ := Prod.mk.inj heq
        obtain ⟨rfl, hw⟩ := ih.1 hcut
        exact ⟨rfl, by rw [Text.width_cons]; omega⟩
      · rintro ⟨h, hw⟩
        cases front with
        | nil => exact absurd hw hn
        | cons d front =>
          obtain ⟨rfl, rfl⟩ := List.cons.inj h
          rw [Text.width_cons] at hw
          exact ⟨(front, back), ih.2 ⟨rfl, by omega⟩, rfl⟩
    · rw [if_neg hle]
      refine ⟨(nomatch ·), ?_⟩
      rintro ⟨h, hw⟩
      cases front with
      | nil => exact absurd hw hn
      | cons d front =>
        obtain ⟨rfl, rfl⟩ := List.cons.inj h
        rw [Text.width_cons] at hw
        omega

theorem cut?_append (front back : List Char) :
    cut? (width front) (front ++ back) = some (front, back) :=
  cut?_eq_some_iff.2 ⟨rfl, rfl⟩

theorem from?_append (front back : List Char) :
    from? (width front) (front ++ back) = some back := by
  rw [from?, cut?_append]
  rfl

theorem upto?_append (front back : List Char) :
    upto? (width front) (front ++ back) = some front := by
  rw [upto?, cut?_append]
  rfl

theorem slice?_append (front part back : List Char) :
    slice? (width front) (width front + width part) (front ++ (part ++ back)) = some part := by
  rw [slice?, from?_append, sub?_of_le (Nat.le_add_right _ _), Nat.add_sub_cancel_left]
  exact upto?_append part back

/-! ### Cursors -/

variable {text read : List Char} {c d : Cursor}

/-- offsets of a short text fit into 32 bits -/
theorem pos_lt (hw : width text < UInt32.size) (h : c.In 0 text) : c.pos < UInt32.size := by
  have := h.stop
  omega

/-- the text from a cursor on can be cut out -/
theorem from?_of_in (h : c.In 0 text) : from? c.pos text = some c.rest := by
  obtain ⟨front, h⟩ := h
  have hpos : c.pos = width front := h.pos.trans (Nat.zero_add _)
  rw [show text = front ++ c.rest from h.rest, hpos]
  exact from?_append front c.rest

/-- what was read can be cut out -/
theorem slice?_of_passes (h : c.In 0 text) (g : c.Passes read d) :
    slice? c.pos d.pos text = some read := by
  obtain ⟨front, h⟩ := h
  have hpos : c.pos = width front := h.pos.trans (Nat.zero_add _)
  rw [show text = front ++ c.rest from h.rest, g.rest, g.pos, hpos]
  exact slice?_append front read d.rest

/-- what was read has a span -/
theorem span?_of_leads (hw : width text < UInt32.size) (h : c.In 0 text) (g : c.Leads d) :
    span? c.pos d.pos = some ⟨c.pos, d.pos⟩ :=
  span?_of_le g.le (pos_lt hw (h.leads g))

end ProjectSense.Checked
