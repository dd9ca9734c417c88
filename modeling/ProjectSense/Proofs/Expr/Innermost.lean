import ProjectSense.Proofs.Expr.Complete
import ProjectSense.Proofs.Expr.Placed

/-!
# The node at an offset

The search goes down into the nodes that the offset touches, and where two of them meet it takes the
reference.  It ends at a leaf: a sequence has no place that none of its nodes touches.

* `Expr.findAt_cases`: the node itself, or what is found in a child.
* `Expr.isText_of_findIn`: text is found only where nothing else is.
* `Expr.All.innermost`, `Expr.All.references`: what is found in a node.
* `Expr.findAt_parse`: what is found in an expression.
-/

namespace ProjectSense

open Text (width)

namespace Expr

variable {base offset : Nat} {text : List Char} {e f n p : Expr} {es parts : List Expr} {s : Span}
  {path : List Nat}

/-- The node stands in the expression, is no sequence, and is the last to touch the offset.  If it
is a text among parts, no other part that touches the offset is more than text. -/
structure Innermost (e : Expr) (offset : Nat) (n : Expr) : Prop where
  node : ∃ path, e.nodeAt? path = some n
  leaf : n.isSequence = false
  touches : n.span.touches offset = true
  last : ∀ c ∈ n.children, c.span.touches offset = false
  reference : n.isText = true → ∀ path s parts, e.nodeAt? path = some (.concat s parts) →
    n ∈ parts → ∀ p ∈ parts, p.isText = false → p.span.touches offset = false

/-! ### The search -/

theorem findAt_of_touches (h : e.span.touches offset = true) : ∃ n, e.findAt offset = some n :=
  ⟨_, by rw [findAt_eq, if_pos h]⟩

theorem later_eq_none {a b : Option Expr} (h : later a b = none) : a = none ∧ b = none := by
  cases a with
  | none => exact ⟨rfl, h⟩
  | some a =>
    cases b with
    | none => cases h
    | some b => cases h

/-- text is the later find only where both are text -/
theorem isText_of_later {a b : Option Expr} (h : later a b = some n) (hn : n.isText = true) :
    (∀ f, a = some f → f.isText = true) ∧ ∀ f, b = some f → f.isText = true := by
  cases a with
  | none =>
    obtain rfl : b = some n := h
    exact ⟨nofun, fun f hf => Option.some.inj hf ▸ hn⟩
  | some a =>
    cases b with
    | none =>
      obtain rfl : a = n := Option.some.inj h
      exact ⟨fun f hf => Option.some.inj hf ▸ hn, nofun⟩
    | some b =>
      have hpick : (if b.isText = true then a else b) = n := Option.some.inj h
      split at hpick
      · next hb => exact ⟨fun f hf => Option.some.inj hf ▸ hpick ▸ hn,
          fun f hf => Option.some.inj hf ▸ hb⟩
      · next hb => exact absurd (hpick ▸ hn) hb

theorem findIn_eq_none (h : findIn offset es = none) : ∀ e ∈ es, e.span.touches offset = false := by
  induction es with
  | nil => exact nofun
  | cons e es ih =>
    obtain ⟨he, hes⟩ := later_eq_none h
    refine List.forall_mem_cons.2 ⟨Bool.eq_false_iff.2 fun ht => ?_, ih hes⟩
    obtain ⟨n, hn⟩ := findAt_of_touches ht
    rw [he] at hn
    cases hn

/-- the node is found itself when no child touches the offset -/
theorem findAt_cases (h : e.findAt offset = some n) : e.span.touches offset = true ∧
    ((e = n ∧ ∀ c ∈ e.children, c.span.touches offset = false) ∨
      findIn offset e.children = some n) := by
  rw [findAt_eq] at h
  split at h
  · next ht =>
    refine ⟨ht, ?_⟩
    cases hin : findIn offset e.children with
    | none =>
      rw [hin] at h
      exact .inl ⟨Option.some.inj h, findIn_eq_none hin⟩
    | some m =>
      rw [hin] at h
      exact .inr h
  · cases h

/-- text is found among siblings only where nothing else is -/
theorem isText_of_findIn (h : findIn offset es = some n) (hn : n.isText = true) (he : e ∈ es)
    (hf : e.findAt offset = some f) : f.isText = true := by
  induction es generalizing n with
  | nil => cases he
  | cons first es ih =>
    obtain ⟨hfirst, hrest⟩ := isText_of_later h hn
    rcases List.mem_cons.1 he with rfl | he
    · exact hfirst f hf
    · cases hin : findIn offset es with
      | none =>
        have htouch := (findAt_cases hf).1
        rw [findIn_eq_none hin e he] at htouch
        cases htouch
      | some m => exact ih hin (hrest m hin) he

/-! ### What is found -/

theorem children_of_isText (h : e.isText = true) : e.children = [] := by
  cases e with
  | text => rfl
  | property | item | metadata | call | concat | list => cases h

/-- what is found is a leaf that touches the offset -/
theorem All.innermost (h : e.All (Laid base text)) (hf : e.findAt offset = some n) :
    (∃ path, e.nodeAt? path = some n) ∧ n.isSequence = false ∧ n.span.touches offset = true ∧
      ∀ c ∈ n.children, c.span.touches offset = false := by
  induction h with
  | @intro e h hc ih =>
    obtain ⟨ht, ⟨rfl, hnone⟩ | hin⟩ := findAt_cases hf
    · refine ⟨⟨[], rfl⟩, Bool.eq_false_iff.2 fun hseq => ?_, ht, hnone⟩
      obtain ⟨c, hmem, htouch⟩ := h.filled hseq offset ht
      rw [hnone c hmem] at htouch
      cases htouch
    · obtain ⟨c, hmem, hfound⟩ := exists_of_findIn hin
      obtain ⟨⟨path, hpath⟩, hn⟩ := ih c hmem hfound
      obtain ⟨place, hplace⟩ := List.getElem?_of_mem hmem
      exact ⟨⟨place :: path, nodeAt?_cons.2 ⟨c, hplace, hpath⟩⟩, hn⟩

/-- nodes that are not the same lie one after the other -/
theorem Laid.disjoint (h : Laid base text e) (hf : f ∈ e.children) (hp : p ∈ e.children)
    (hne : f ≠ p) : f.span.stop ≤ p.span.start ∨ p.span.stop ≤ f.span.start := by
  obtain ⟨i, hi⟩ := List.getElem?_of_mem hf
  obtain ⟨j, hj⟩ := List.getElem?_of_mem hp
  rcases Nat.lt_trichotomy i j with hlt | rfl | hlt
  · exact .inl (h.apart hi hj hlt)
  · exact absurd (Option.some.inj (hi.symm.trans hj)) hne
  · exact .inr (h.apart hj hi hlt)

/-- a text among parts is found only where no reference touches the offset -/
theorem not_touches_of_findIn (h : (Expr.concat s parts).All (Laid base text))
    (hf : findIn offset parts = some n) (ht : n.isText = true) (hn : n ∈ parts) (hp : p ∈ parts)
    (hpt : p.isText = false) : p.span.touches offset = false := by
  refine Bool.eq_false_iff.2 fun htouch => ?_
  have hne : n ≠ p := by
    rintro rfl
    rw [ht] at hpt
    cases hpt
  obtain ⟨c, hmem, hfound⟩ := exists_of_findIn hf
  obtain ⟨hn1, hn2⟩ := Span.touches_iff.1 ((h.children c hmem).innermost hfound).2.2.1
  have hwide := (h.head.parts s parts rfl n hn).2
  have hpart := (h.head.parts s parts rfl p hp).1
  -- what is found in the reference is text too, and so a text inside it
  obtain ⟨f, hpf⟩ := findAt_of_touches htouch
  have hftext := isText_of_findIn hf ht hp hpf
  obtain ⟨-, ⟨rfl, -⟩ | hin⟩ := findAt_cases hpf
  · rw [hftext] at hpt
    cases hpt
  obtain ⟨t, htmem, htfound⟩ := exists_of_findIn hin
  obtain ⟨ht1, ht2⟩ := Span.touches_iff.1 (findAt_cases htfound).1
  have hpl := (h.children p hp).head
  have hbefore : p.isSequence = false := by
    cases p with
    | text | property | item | metadata | call => rfl
    | concat | list => cases hpart
  have hstart := hpl.before hbefore t htmem
  have hstop := (hpl.inside t htmem).2
  rcases h.head.disjoint hn hp hne with hle | hle
  · omega
  · -- more text follows, so that the reference is complete and ends after what is in it
    have hbound := (h.children n hn).head.within.stop.bounds.2
    cases p with
    | item ps name transforms separator complete =>
      cases complete with
      | true =>
        have := hpl.after rfl t htmem
        omega
      | false =>
        have := hpl.unclosed rfl
        omega
    | text | property | metadata | call => cases htmem
    | concat | list => cases hpart

/-- a text that is found is a part only where no reference beside it touches the offset -/
theorem All.references (h : e.All (Laid base text)) (hf : e.findAt offset = some n)
    (ht : n.isText = true) (hc : e.nodeAt? path = some (.concat s parts)) (hn : n ∈ parts) :
    ∀ p ∈ parts, p.isText = false → p.span.touches offset = false := by
  induction path generalizing e with
  | nil =>
    obtain rfl := Option.some.inj hc
    obtain ⟨-, ⟨rfl, -⟩ | hin⟩ := findAt_cases hf
    · cases ht
    · exact fun p hp hpt => not_touches_of_findIn h hin ht hn hp hpt
  | cons place path ih =>
    obtain ⟨d, hplace, hd⟩ := nodeAt?_cons.1 hc
    have hdmem := List.mem_of_getElem? hplace
    obtain ⟨-, ⟨rfl, -⟩ | hin⟩ := findAt_cases hf
    · rw [children_of_isText ht] at hdmem
      cases hdmem
    obtain ⟨c, hmem, hfound⟩ := exists_of_findIn hin
    by_cases heq : c = d
    · exact ih (h.children d hdmem) (heq ▸ hfound) hd
    · -- the text would stand in two nodes that have no byte in common
      obtain ⟨⟨there, hthere⟩, -⟩ := (h.children c hmem).innermost hfound
      obtain ⟨h1, h2⟩ := (h.children c hmem).inside hthere
      have hdall := h.children d hdmem
      obtain ⟨h3, h4⟩ := hdall.inside hd
      have hconcat := hdall.nodeAt hd
      obtain ⟨h5, h6⟩ := hconcat.head.inside n hn
      have hwide := (hconcat.head.parts s parts rfl n hn).2
      rcases h.head.disjoint hmem hdmem heq with hle | hle <;> omega

/-! ### Whole expressions -/

theorem span_parse (text : String) (base : Nat) :
    (parse text base).span = ⟨base, base + width text.toList⟩ := by
  have hnormal := normal_parse text base
  have hlist := hnormal.list
  have hseparated := hnormal.separated
  generalize parse text base = e at *
  cases e with
  | list s entries => exact (hlist s entries rfl).2
  | text | property | item | metadata | call | concat => exact hseparated

/-- an offset in the text or at an end of it is on one innermost node, and no other is on any -/
theorem findAt_parse (text : String) (base offset : Nat) :
    if (⟨base, base + width text.toList⟩ : Span).touches offset then
      ∃ n, (parse text base).findAt offset = some n ∧ Innermost (parse text base) offset n
    else (parse text base).findAt offset = none := by
  have hlaid := laid_parse text base
  rw [← span_parse]
  split
  · next htouch =>
    obtain ⟨n, hn⟩ := findAt_of_touches htouch
    obtain ⟨hnode, hleaf, ht, hlast⟩ := hlaid.innermost hn
    exact ⟨n, hn, hnode, hleaf, ht, hlast,
      fun htext path s parts hc hmem => hlaid.references hn htext hc hmem⟩
  · next htouch => rw [findAt_eq, if_neg htouch]

end Expr
end ProjectSense
