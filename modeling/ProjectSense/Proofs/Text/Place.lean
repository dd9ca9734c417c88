import ProjectSense.Text.Span
import ProjectSense.Text.Cursor

/-!
# Places in a text

Offsets of a text that begins at `base`: which of them fall between two characters, and what
stands in a span.  A cursor that comes from the front of the text has such an offset.

* `Text.slice_append`: the slice of the span of a part is the part.
* `Span.Holds.nested`: what stands in a part of the text stands in the text.
* `Cursor.In.holds`: what was read stands in the span that was read.
-/

namespace ProjectSense

theorem forall_mem_head?_cons {p : Char → Prop} {first : Char} {rest : List Char} (h : p first) :
    ∀ d ∈ (first :: rest).head?, p d := by
  rintro d ⟨⟩
  exact h

/-- what is checked for each character of a list; `decide` alone may try all characters there are -/
theorem forall_mem_of_all {p : Char → Prop} [DecidablePred p] {cs : List Char}
    (h : (cs.all fun c => decide (p c)) = true) : ∀ c ∈ cs, p c :=
  fun c hc => of_decide_eq_true (List.all_eq_true.1 h c hc)

namespace Text

/-! ### Boundaries and slices -/

/-- an offset between two characters of the text, or at an end of it -/
def Boundary (base : Nat) (text : List Char) (p : Nat) : Prop :=
  ∃ front, front <+: text ∧ p = base + width front

/-- what stands in the span -/
def slice (base : Nat) (text : List Char) (s : Span) : List Char :=
  takeWidth (s.stop - s.start) (dropWidth (s.start - base) text)

theorem takeWidth_append (cs ds : List Char) : takeWidth (width cs) (cs ++ ds) = cs := by
  induction cs with
  | nil =>
    cases ds with
    | nil => rfl
    | cons d ds => simp [takeWidth, Nat.not_le.2 (Char.utf8Size_pos d)]
  | cons c cs ih => simp [takeWidth, ih]

theorem dropWidth_append (cs ds : List Char) : dropWidth (width cs) (cs ++ ds) = ds := by
  induction cs with
  | nil =>
    cases ds with
    | nil => rfl
    | cons d ds => simp [dropWidth, Nat.not_le.2 (Char.utf8Size_pos d)]
  | cons c cs ih => simp [dropWidth, ih]

theorem slice_append {base p : Nat} {front part back : List Char} (hp : p = base + width front) :
    slice base (front ++ part ++ back) ⟨p, p + width part⟩ = part := by
  subst hp
  have h1 : base + width front + width part - (base + width front) = width part := by omega
  have h2 : base + width front - base = width front := by omega
  rw [slice, h1, h2, List.append_assoc, dropWidth_append, takeWidth_append]

/-- such an offset is not outside the text -/
theorem Boundary.bounds {base p : Nat} {text : List Char} (h : Boundary base text p) :
    base ≤ p ∧ p ≤ base + width text := by
  obtain ⟨front, ⟨back, rfl⟩, rfl⟩ := h
  rw [width_append]
  omega

theorem width_eq_zero {cs : List Char} : width cs = 0 ↔ cs = [] := by
  cases cs with
  | nil => simp
  | cons c cs => simp [Nat.pos_iff_ne_zero.1 (Char.utf8Size_pos c)]

theorem width_pos {cs : List Char} (h : cs ≠ []) : 0 < width cs :=
  Nat.pos_iff_ne_zero.2 fun h0 => h (width_eq_zero.1 h0)

end Text

namespace Span

open Text

/-- both ends of the span are places in the text, in order -/
structure Within (base : Nat) (text : List Char) (s : Span) : Prop where
  le : s.start ≤ s.stop
  start : Boundary base text s.start
  stop : Boundary base text s.stop

/-- the span lies in the text and `raw` stands in it -/
structure Holds (base : Nat) (text : List Char) (s : Span) (raw : List Char) : Prop where
  within : s.Within base text
  slice_eq : slice base text s = raw

variable {base : Nat} {text raw found : List Char} {s t : Span}

/-- the text around what stands in the span -/
theorem Holds.split (h : s.Holds base text raw) : ∃ front back, text = front ++ raw ++ back ∧
    s.start = base + width front ∧ s.stop = s.start + width raw := by
  obtain ⟨front, hfront, hstart⟩ := h.within.start
  obtain ⟨whole, ⟨back, rfl⟩, hstop⟩ := h.within.stop
  have hle := h.within.le
  have hprefix : front <+: whole := by
    rcases List.prefix_or_prefix_of_prefix hfront (List.prefix_append whole back) with hp | hp
    · exact hp
    · -- the two ends are the same
      obtain ⟨mid, rfl⟩ := hp
      rw [width_append] at hstart
      obtain rfl : mid = [] := width_eq_zero.1 (by omega)
      exact ⟨[], by simp⟩
  obtain ⟨mid, rfl⟩ := hprefix
  rw [width_append] at hstop
  have hspan : s = ⟨s.start, s.start + width mid⟩ := by
    rw [show s.start + width mid = s.stop by omega]
  have hmid : raw = mid := by
    rw [← h.slice_eq, hspan]
    exact slice_append hstart
  subst hmid
  exact ⟨front, back, rfl, hstart, by omega⟩

/-- a part of what stands in a span stands in the text itself, inside that span -/
theorem Holds.nested (h : s.Holds base text raw) (g : t.Holds s.start raw found) :
    t.Holds base text found ∧ s.start ≤ t.start ∧ t.stop ≤ s.stop := by
  obtain ⟨front, back, rfl, hstart, hstop⟩ := h.split
  obtain ⟨left, right, rfl, hleft, hright⟩ := g.split
  have hspan : t = ⟨t.start, t.start + width found⟩ := by rw [← hright]
  have hpos : t.start = base + width (front ++ left) := by
    rw [width_append]
    omega
  refine ⟨⟨⟨g.within.le, ⟨front ++ left, ⟨found ++ right ++ back, by simp⟩, hpos⟩,
    ⟨front ++ left ++ found, ⟨right ++ back, by simp⟩, ?_⟩⟩, ?_⟩, by omega, ?_⟩
  · rw [width_append, hright]
    omega
  · rw [hspan, show front ++ (left ++ found ++ right) ++ back =
      front ++ left ++ found ++ (right ++ back) by simp]
    exact slice_append hpos
  · rw [width_append, width_append] at hstop
    omega

end Span

namespace Cursor

open Text

/-! ### Reading on -/

/-- reading `read` leads from `c` to `d` -/
structure Passes (c : Cursor) (read : List Char) (d : Cursor) : Prop where
  rest : c.rest = read ++ d.rest
  pos : d.pos = c.pos + width read

/-- reading on leads from `c` to `d` -/
def Leads (c d : Cursor) : Prop := ∃ read, c.Passes read d

/-- the cursor stands in the text that begins at `base` -/
def In (base : Nat) (text : List Char) (c : Cursor) : Prop := Leads ⟨base, text⟩ c

variable {c d e : Cursor} {read more : List Char} {base : Nat} {text : List Char}

theorem Passes.refl (c : Cursor) : c.Passes [] c := ⟨rfl, rfl⟩

theorem Passes.trans (h : c.Passes read d) (g : d.Passes more e) : c.Passes (read ++ more) e := by
  constructor
  · rw [h.rest, g.rest, List.append_assoc]
  · rw [g.pos, h.pos, width_append, Nat.add_assoc]

theorem Passes.split (h : c.Passes (read ++ more) e) :
    ∃ d, c.Passes read d ∧ d.Passes more e :=
  ⟨⟨c.pos + width read, more ++ e.rest⟩, ⟨by rw [h.rest, List.append_assoc], rfl⟩, rfl,
    by rw [h.pos, width_append, Nat.add_assoc]⟩

theorem Passes.leads (h : c.Passes read d) : c.Leads d := ⟨read, h⟩

theorem Passes.lt (h : c.Passes read d) (hr : read ≠ []) : c.pos < d.pos := by
  have := width_pos hr
  rw [h.pos]; omega

theorem Leads.refl (c : Cursor) : c.Leads c := ⟨[], .refl c⟩

theorem Leads.trans (h : c.Leads d) (g : d.Leads e) : c.Leads e := by
  obtain ⟨read, h⟩ := h
  obtain ⟨more, g⟩ := g
  exact ⟨_, h.trans g⟩

theorem Leads.le (h : c.Leads d) : c.pos ≤ d.pos := by
  obtain ⟨read, h⟩ := h
  rw [h.pos]; omega

/-- reading on without moving stays where it is -/
theorem Leads.eq_of_pos_eq (h : c.Leads d) (hp : c.pos = d.pos) : c = d := by
  obtain ⟨read, h⟩ := h
  have h0 : read = [] := by
    have := h.pos
    exact width_eq_zero.1 (by omega)
  subst h0
  have hr : c.rest = d.rest := h.rest
  obtain ⟨cp, cr⟩ := c
  obtain ⟨dp, dr⟩ := d
  simp only [Cursor.mk.injEq]
  exact ⟨hp, hr⟩

theorem Leads.total (h : c.Leads d) : c.pos + width c.rest = d.pos + width d.rest := by
  obtain ⟨read, h⟩ := h
  rw [h.rest, h.pos, width_append, Nat.add_assoc]

theorem In.leads (h : c.In base text) (g : c.Leads d) : d.In base text := Leads.trans h g

theorem In.boundary (h : c.In base text) : Boundary base text c.pos := by
  obtain ⟨front, h⟩ := h
  exact ⟨front, ⟨c.rest, h.rest.symm⟩, h.pos⟩

theorem In.stop (h : c.In base text) : c.pos + width c.rest = base + width text := h.total.symm

theorem In.within (h : c.In base text) (g : c.Leads d) :
    (⟨c.pos, d.pos⟩ : Span).Within base text :=
  ⟨g.le, h.boundary, (h.leads g).boundary⟩

theorem In.holds (h : c.In base text) (g : c.Passes read d) :
    (⟨c.pos, d.pos⟩ : Span).Holds base text read := by
  refine ⟨h.within g.leads, ?_⟩
  obtain ⟨front, h⟩ := h
  have ht : text = front ++ read ++ d.rest := by
    rw [List.append_assoc, ← g.rest]; exact h.rest
  rw [g.pos, ht]
  exact slice_append h.pos

end Cursor
end ProjectSense
