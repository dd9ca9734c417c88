import ProjectSense.Proofs.Expr.Nodes

/-!
# The names in an expression

A reader takes a name off the tokens whole, so that it holds the characters of identifiers only.

* `Token.continuesName_of_ident`: what a token that is a name holds.
* `Tokens.makes_named`: the names of the properties that are read.
* `Expr.concat_parse`: the parts of the last entry.
-/

namespace ProjectSense

namespace Token

variable {cs : List Char}

/-- a token is a name when its first character begins one, and then takes in no others -/
theorem classify_ident {c : Char} {next : Option Char} (h : (classify c next).1 = .ident) :
    startsName c = true ∧ (classify c next).2 = .whileHolds continuesName := by
  revert h
  fun_cases classify c next <;> intro h
  case case14 hname _ _ _ _ _ _ _ _ _ _ _ _ _ =>
    rw [if_pos hname]
    exact ⟨hname, rfl⟩
  case case15 hname hspace _ _ _ _ _ _ _ _ _ _ _ _ _ =>
    rw [if_neg hname, if_pos hspace] at h
    cases h
  case case16 hname hspace hplain _ _ _ _ _ _ _ _ _ _ _ _ _ =>
    rw [if_neg hname, if_neg hspace, if_pos hplain] at h
    cases h
  case case17 hname hspace hplain _ _ _ _ _ _ _ _ _ _ _ _ _ =>
    rw [if_neg hname, if_neg hspace, if_neg hplain] at h
    cases h
  all_goals cases h

theorem continuesName_of_ident {t : Token} (h : t ∈ lex cs) (hk : t.kind = .ident) :
    ∀ c ∈ t.text, continuesName c = true := by
  fun_induction lex cs with
  | case1 => cases h
  | case2 c cs found parts ih =>
    rcases List.mem_cons.1 h with rfl | h
    · obtain ⟨hfirst, hextent⟩ := classify_ident hk
      have hmore : parts.1 = cs.takeWhile continuesName := by
        change (found.2.split cs).1 = _
        rw [hextent]
        rfl
      refine List.forall_mem_cons.2 ⟨continuesName_of_startsName hfirst, fun d hd => ?_⟩
      exact List.all_eq_true.1 List.all_takeWhile d (hmore ▸ hd)
    · exact ih h

end Token

namespace Expr

/-- a property's name holds the characters of identifiers only; it can be empty -/
def Named : Expr → Prop
  | .property _ name _ => ∀ c ∈ name.text.toList, Token.continuesName c = true
  | _ => True

end Expr

namespace Tokens

variable {ts us : Tokens} {base : Nat} {text : List Char}

/-- the names among the tokens hold the characters of identifiers only -/
def Idents (ts : Tokens) : Prop :=
  ∀ t ∈ ts.rest, t.kind = .ident → ∀ c ∈ t.text, Token.continuesName c = true

theorem Idents.leads (h : ts.Idents) (g : ts.Leads us) : us.Idents := by
  obtain ⟨taken, g⟩ := g
  intro t ht
  exact h t (by rw [g.rest]; exact List.mem_append_right taken ht)

theorem Lexed.idents (h : ts.Lexed base text) : ts.Idents :=
  fun t ht => Token.continuesName_of_ident (h.mem t ht)

theorem Idents.word (h : ts.Idents) :
    ∀ c ∈ ts.word.1.text.toList, Token.continuesName c = true := by
  unfold Tokens.word
  split
  · next text rest hr =>
    rw [String.toList_ofList]
    exact h ⟨.ident, text⟩ (by rw [hr]; exact List.mem_cons_self) rfl
  · simp

theorem named_property (h : ts.Idents) (start : Nat) : (property start ts).1.Named := by
  have hinner := h.leads (leads_skipBlanks ts)
  simp only [property]
  split
  · trivial
  split
  · split
    · trivial
    · exact hinner.word
  · simp [Expr.Named]

/-- the names of every node hold the characters of identifiers only -/
theorem makes_named (base : Nat) (text : List Char) : Makes base text Expr.Named where
  literal _ := trivial
  property h hp _ := named_property (h.leads hp.leads).idents _
  metadata _ _ _ := by
    simp only [metadata]
    split <;> trivial
  call _ _ _ := trivial
  item _ _ _ _ := trivial
  concat _ := trivial

end Tokens

namespace Expr

theorem lastEntry_mem_entries {e : Expr} (h : e.entries ≠ []) : e.lastEntry ∈ e.entries := by
  cases e with
  | list s es =>
    have hlast : es.getLast? = some (es.getLast h) := List.getLast?_eq_some_getLast h
    rw [lastEntry, hlast]
    exact List.getLast_mem h
  | text | property | item | metadata | call | concat => exact List.mem_cons_self

/-- what is read has an entry, and its entries stand in the text -/
theorem sound_entries (text : String) (base : Nat) : (parse text base).entries ≠ [] ∧
    ∀ e ∈ (parse text base).entries, e.Sound base text.toList := by
  have hread := Tokens.reads_entries _ (Tokens.in_lex text.toList base)
  rw [parse, entries_ofEntries _ _ hread.sound]
  exact ⟨hread.separated.ne_nil, hread.sound⟩

theorem lastEntry_mem_parse (text : String) (base : Nat) :
    (parse text base).lastEntry ∈ (parse text base).entries :=
  lastEntry_mem_entries (sound_entries text base).1

theorem sound_lastEntry (text : String) (base : Nat) :
    (parse text base).lastEntry.Sound base text.toList :=
  (sound_entries text base).2 _ (lastEntry_mem_parse text base)

/-- the last entry of what is read, where it has parts: no two texts follow one another, and names
hold the characters of identifiers only -/
theorem concat_parse {text : String} {base : Nat} {s : Span} {ps : List Expr}
    (h : (parse text base).lastEntry = .concat s ps) : TextsApart ps ∧ ∀ p ∈ ps, p.Named := by
  have hall := all_parse (Tokens.makes_named base text.toList) _ (lastEntry_mem_parse text base)
  have hsound := sound_lastEntry text base
  rw [h] at hall hsound
  obtain ⟨⟨-, -, -, hapart, -⟩, -⟩ := hsound
  exact ⟨hapart, fun p hp => (hall.children p hp).head⟩

end Expr
end ProjectSense
