import ProjectSense.Proofs.Expr.Nodes

/-!
# Where names stand

Every name that reading takes off a text is what stands in the span it is given, and so is every
literal text.

* `Tokens.makes_stands`: every node as it is read.
* `Expr.placed_parse`: every node of an expression.
* `Expr.Placed.findAt`: the node that is found at an offset.
-/

namespace ProjectSense

/-- the word is what stands in its span -/
def Word.Stands (base : Nat) (text : List Char) (w : Word) : Prop :=
  w.span.Holds base text w.text.toList

/-- the name of what a function is called on -/
def Callee.name : Callee → String
  | .property name | .klass name | .item name => name

namespace Expr

/-- the names of the node, or its text, are what stands in their spans -/
def NamesStand (base : Nat) (text : List Char) : Expr → Prop
  | .text s raw => s.Holds base text raw.toList
  | .property _ name _ | .item _ name _ _ _ | .metadata _ _ name _ => name.Stands base text
  | .call _ callee calleeSpan name =>
    name.Stands base text ∧ calleeSpan.Holds base text callee.name.toList
  | .concat .. | .list .. => True

/-- the names of the node and of all nodes in it stand in their spans -/
inductive Placed (base : Nat) (text : List Char) : Expr → Prop
  | intro {e : Expr} (h : e.NamesStand base text) (hc : ∀ c ∈ e.children, Placed base text c) :
    Placed base text e

variable {base start stop offset : Nat} {text : List Char} {e f : Expr} {es : List Expr}

/-! ### Nodes -/

theorem Placed.namesStand (h : e.Placed base text) : e.NamesStand base text := by
  obtain ⟨h, -⟩ := h
  exact h

theorem All.placed (h : e.All (NamesStand base text)) : e.Placed base text := by
  induction h with
  | intro h _ ih => exact ⟨h, ih⟩

theorem placed_ofEntries (h : ∀ e ∈ es, e.Placed base text) :
    (ofEntries start stop es).Placed base text := by
  match es with
  | [] =>
    rw [ofEntries_nil]
    exact ⟨trivial, h⟩
  | [entry] =>
    rw [ofEntries_singleton]
    exact h entry List.mem_cons_self
  | first :: second :: entries =>
    rw [ofEntries_cons_cons]
    exact ⟨trivial, h⟩

/-! ### What is found -/

theorem mem_later {a b : Option Expr} (h : later a b = some f) : a = some f ∨ b = some f := by
  cases a with
  | none => exact Or.inr h
  | some a =>
    cases b with
    | none => exact Or.inl h
    | some b =>
      rw [later] at h
      split at h
      · exact Or.inl h
      · exact Or.inr h

/-- what is found among siblings is found in one of them -/
theorem exists_of_findIn (h : findIn offset es = some f) : ∃ e ∈ es, e.findAt offset = some f := by
  induction es with
  | nil => cases h
  | cons e es ih =>
    rcases mem_later h with he | hes
    · exact ⟨e, List.mem_cons_self, he⟩
    · obtain ⟨g, hg, hf⟩ := ih hes
      exact ⟨g, List.mem_cons_of_mem _ hg, hf⟩

theorem Placed.findAt (h : e.Placed base text) (hf : e.findAt offset = some f) :
    f.Placed base text := by
  induction h generalizing f with
  | @intro e hname hc ih =>
    rw [findAt_eq] at hf
    split at hf
    · cases hin : findIn offset e.children with
      | none =>
        rw [hin] at hf
        obtain rfl : e = f := Option.some.inj hf
        exact ⟨hname, hc⟩
      | some g =>
        rw [hin] at hf
        obtain rfl : g = f := Option.some.inj hf
        obtain ⟨c, hmem, hg⟩ := exists_of_findIn hin
        exact ih c hmem hg
    · cases hf

end Expr

namespace Tokens

variable {ts named target : Tokens} {base : Nat} {text : List Char}

/-! ### Names -/

theorem In.word (h : ts.In base text) : ts.word.1.Stands base text := by
  unfold Tokens.word
  split
  · next word rest hr =>
    have hholds := h.holds (passes_advance ts)
    have htake : Token.texts (ts.rest.take 1) = word := by
      rw [hr]
      exact List.append_nil word
    rw [Word.Stands, String.toList_ofList]
    exact htake ▸ hholds
  · exact h.empty

/-- a name still to be typed -/
theorem In.missing (h : ts.In base text) : (⟨"", .empty ts.pos⟩ : Word).Stands base text := h.empty

theorem stands_staticCall (h : ts.In base text) (start : Nat) :
    (staticCall start ts).1.NamesStand base text := by
  have hklass := passes_takeWhile (fun k => k = .ident || k = .dot) ts
  have hbracket := hklass.leads.trans (leads_eat .rightBracket _)
  simp only [staticCall]
  refine ⟨?_, ?_⟩
  · split
    · exact (h.leads (hbracket.trans (leads_advance _))).word
    · exact (h.leads hbracket).missing
  · rw [Callee.name, String.toList_ofList]
    exact h.holds hklass

theorem stands_property (h : ts.In base text) (start : Nat) :
    (property start ts).1.NamesStand base text := by
  have hinner := h.leads (leads_skipBlanks ts)
  simp only [property]
  split
  · exact stands_staticCall (hinner.leads (leads_advance _)) start
  split
  · have hnext := hinner.leads ((leads_word _).trans (leads_skipBlanks _))
    split
    · exact ⟨(hnext.leads (leads_advance _)).word, hinner.word⟩
    · exact hinner.word
  · exact hinner.missing

theorem stands_metadata (h : ts.In base text) (start : Nat) :
    (metadata start ts).1.NamesStand base text := by
  have hfirst := h.leads (leads_skipBlanks ts)
  simp only [metadata]
  split
  · exact (hfirst.leads ((leads_word _).trans (leads_advance _))).word
  · exact hfirst.word

/-- a call on items stands in two places: its name where it is read, the items' before it -/
theorem stands_itemCall (hn : named.In base text) (ht : target.In base text) :
    (itemCall named.word.1 target).1.NamesStand base text := by
  rw [itemCall]
  exact ⟨ht.word, hn.word⟩

/-! ### The readers -/

/-- the names of every node stand in their spans as it is read -/
theorem makes_stands (base : Nat) (text : List Char) :
    Makes base text (Expr.NamesStand base text) where
  literal h := h
  property h hp _ := stands_property (h.toIn.leads hp.leads) _
  metadata h hp _ := stands_metadata (h.toIn.leads hp.leads) _
  call hn ht _ := stands_itemCall hn.toIn ht.toIn
  item h hp _ _ := (h.toIn.leads (hp.leads.trans (leads_skipBlanks _))).word
  concat _ := trivial

end Tokens

namespace Expr

/-- every name of an expression, and every literal text, is what stands in its span -/
theorem placed_parse (text : String) (base : Nat) :
    (Expr.parse text base).Placed base text.toList :=
  placed_ofEntries fun e he => All.placed
    (Tokens.all_entries (Tokens.makes_stands base _) _ (Tokens.lexed_lex text.toList base) e he)

end Expr
end ProjectSense
