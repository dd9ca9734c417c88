import ProjectSense.Proofs.Expr.Layout

/-!
# References that are still being typed

A reference that is not complete has the end of the text for its own, and so has every node around
it; a complete one ends in its parenthesis.  Since nodes that share a byte lie one in the other, the
references that are not complete are a single chain, and in a list they are in the last entry.

* `Expr.All.nested`: nodes that share a byte.
* `Expr.flagged_parse`: which references of an expression are complete.
-/

namespace ProjectSense

open Text (width)

namespace Expr

variable {base : Nat} {text : List Char} {e m n : Expr} {path path' : List Nat}

/-- The references that are complete are those that end in their parenthesis.  The others end with
the text, with all that is around them, and lie one in another, in the last entry of a list. -/
structure Flagged (base : Nat) (text : List Char) (e : Expr) : Prop where
  closed : ∀ path n, e.nodeAt? path = some n → n.complete? = some true →
    ∃ inside, n.span.Holds base text (inside ++ [')'])
  ended : ∀ path more m n, e.nodeAt? path = some m → e.nodeAt? (path ++ more) = some n →
    n.complete? = some false → m.span.stop = base + width text
  chain : ∀ path path' m n, e.nodeAt? path = some m → e.nodeAt? path' = some n →
    m.complete? = some false → n.complete? = some false → path <+: path' ∨ path' <+: path
  last : ∀ s entries place path n, e = .list s entries → e.nodeAt? (place :: path) = some n →
    n.complete? = some false → place + 1 = entries.length

/-- a reference is neither text nor a sequence -/
theorem wide_of_complete? {complete : Bool} (h : Delimited base text e)
    (hk : e.complete? = some complete) : e.span.start < e.span.stop := by
  cases e with
  | property | item | metadata => exact h.wide rfl rfl
  | text | call | concat | list => cases hk

theorem Laid.apart {i j : Nat} {c d : Expr} (h : Laid base text e)
    (hc : e.children[i]? = some c) (hd : e.children[j]? = some d) (hlt : i < j) :
    c.span.stop ≤ d.span.start := by
  obtain ⟨hi, rfl⟩ := List.getElem?_eq_some_iff.1 hc
  obtain ⟨hj, rfl⟩ := List.getElem?_eq_some_iff.1 hd
  exact List.pairwise_iff_getElem.1 h.ordered i j hi hj hlt

/-- nodes that share a byte lie one in the other -/
theorem All.nested (h : e.All (Laid base text)) (hm : e.nodeAt? path = some m)
    (hn : e.nodeAt? path' = some n) (h1 : m.span.start < n.span.stop)
    (h2 : n.span.start < m.span.stop) : path <+: path' ∨ path' <+: path := by
  induction path generalizing e path' with
  | nil => exact .inl List.nil_prefix
  | cons i path ih =>
    cases path' with
    | nil => exact .inr List.nil_prefix
    | cons j path' =>
      obtain ⟨c, hc, hm⟩ := nodeAt?_cons.1 hm
      obtain ⟨d, hd, hn⟩ := nodeAt?_cons.1 hn
      have hcall := h.children c (List.mem_of_getElem? hc)
      have hdall := h.children d (List.mem_of_getElem? hd)
      rcases Nat.lt_trichotomy i j with hlt | rfl | hlt
      · -- where the paths part, one node ends before the other begins
        have hle := h.head.apart hc hd hlt
        have hstop := (hcall.inside hm).2
        have hstart := (hdall.inside hn).1
        omega
      · obtain rfl : c = d := Option.some.inj (hc.symm.trans hd)
        exact (ih hcall hm hn).imp (fun g => List.cons_prefix_cons.2 ⟨rfl, g⟩)
          fun g => List.cons_prefix_cons.2 ⟨rfl, g⟩
      · have hle := h.head.apart hd hc hlt
        have hstop := (hdall.inside hn).2
        have hstart := (hcall.inside hm).1
        omega

/-- what is around a reference that is not complete ends with the text, as it does -/
theorem All.stop_eq {more : List Nat} (h : e.All (Laid base text)) (hm : e.nodeAt? path = some m)
    (hn : e.nodeAt? (path ++ more) = some n) (hk : n.complete? = some false) :
    m.span.stop = base + width text := by
  have hmall := h.nodeAt hm
  rw [nodeAt?_append, hm] at hn
  have hle := (hmall.inside hn).2
  have hstop := (hmall.nodeAt hn).head.unclosed hk
  have hbound := hmall.head.within.stop.bounds.2
  omega

/-- in every expression the references that are not complete are those that the end of the text is
in -/
theorem flagged_parse (text : String) (base : Nat) :
    (parse text base).Flagged base text.toList := by
  have hlaid := laid_parse text base
  refine ⟨fun path n hn hk => (hlaid.nodeAt hn).head.closed hk,
    fun path more m n hm hn hk => hlaid.stop_eq hm hn hk, fun path path' m n hm hn hkm hkn => ?_,
    fun s entries place path n hlist hn hk => ?_⟩
  · have hm' := (hlaid.nodeAt hm).head.toDelimited
    have hn' := (hlaid.nodeAt hn).head.toDelimited
    have hstop := (hm'.unclosed hkm).trans (hn'.unclosed hkn).symm
    have hwide := wide_of_complete? hm' hkm
    have hwide' := wide_of_complete? hn' hkn
    exact hlaid.nested hm hn (hstop ▸ hwide) (hstop ▸ hwide')
  · obtain ⟨hspread, hvalid⟩ := spread_parse text base
    rw [hlist] at hlaid hn hspread hvalid
    obtain ⟨entry, hentry, -⟩ := nodeAt?_cons.1 hn
    obtain ⟨hplace, rfl⟩ := List.getElem?_eq_some_iff.1 hentry
    have hone : (Expr.list s entries).nodeAt? [place] = some _ := nodeAt?_cons.2 ⟨_, hentry, rfl⟩
    have hstop := hlaid.stop_eq hone hn hk
    -- after another entry there is a `;` at least
    refine Nat.le_antisymm hplace (Nat.not_lt.1 fun hnext => ?_)
    have hgap := List.pairwise_iff_getElem.1 (hspread.ordered hvalid) place (place + 1) hplace
      hnext (Nat.lt_succ_self place)
    have hmem : entries[place + 1] ∈ entries := List.getElem_mem hnext
    have hle := hvalid _ hmem
    have hend := ((hspread.inside hvalid).2 _ hmem).2
    change entries[place].span.stop + 1 ≤ entries[place + 1].span.start at hgap
    change entries[place].span.stop = _ at hstop
    omega

end Expr
end ProjectSense
