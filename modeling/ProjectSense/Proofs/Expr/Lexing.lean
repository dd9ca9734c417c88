import ProjectSense.Expr.Token
import ProjectSense.Proofs.Text.Place

/-!
# Where tokens end

A text is cut into tokens piece by piece wherever no token can reach over the seam between two
pieces.  What a token holds follows from its kind.

* `Token.formed_of_mem_lex`: a token is spelled as its kind is, or holds no sign.
* `Token.lex_append`: a text before a border is cut into tokens by itself.
* `Token.lex_spelled`, `Token.lex_ident`: the token at the front.
-/

namespace ProjectSense

/-- the text of every token of the kind, where there is only one -/
def TokenKind.spelling? : TokenKind → Option (List Char)
  | .propertyOpen => some ['$', '(']
  | .itemOpen => some ['@', '(']
  | .metadataOpen => some ['%', '(']
  | .leftParen => some ['(']
  | .rightParen => some [')']
  | .leftBracket => some ['[']
  | .rightBracket => some [']']
  | .colons => some [':', ':']
  | .dot => some ['.']
  | .arrow => some ['-', '>']
  | .comma => some [',']
  | .semicolon => some [';']
  | .quote => some ['\'']
  | .ident | .blank | .plain | .stray => none

namespace Token

variable {cs rest : List Char}

/-! ### What a token holds -/

/-- a character that is a token of its own, or the end of one that opens a reference -/
def isSign (c : Char) : Bool := "()[].,;'".toList.contains c

/-- begins like a name and goes on like one -/
def IsIdent : List Char → Prop
  | [] => False
  | first :: more => startsName first = true ∧ ∀ c ∈ more, continuesName c = true

-- the characters of the list are looked at, never all characters there are
instance : DecidablePred IsIdent
  | [] => inferInstanceAs (Decidable False)
  | _ :: more =>
    have := List.decidableBAll (fun c => continuesName c = true) more
    inferInstanceAs (Decidable (_ ∧ _))

/-- the token is spelled as its kind is, or holds no sign -/
def Formed (t : Token) : Prop :=
  match t.kind.spelling? with
  | some s => t.text = s
  | none => ∀ c ∈ t.text, isSign c = false

theorem run_of_isSign {c : Char} (h : isSign c = true) :
    continuesName c = false ∧ isSpace c = false ∧ isPlain c = false := by
  have hall : ∀ d ∈ "()[].,;'".toList,
      continuesName d = false ∧ isSpace d = false ∧ isPlain d = false :=
    forall_mem_of_all (by decide)
  exact hall c (List.contains_iff_mem.1 h)

theorem isSign_of_run {p : Char → Bool} (hp : ∀ d, isSign d = true → p d = false) {c : Char}
    (hc : p c = true) : ∀ d ∈ c :: cs.takeWhile p, isSign d = false := by
  have hnot : ∀ d, p d = true → isSign d = false := fun d hd =>
    Bool.eq_false_iff.2 fun hs => Bool.noConfusion ((hp d hs).symm.trans hd)
  intro d hd
  rcases List.mem_cons.1 hd with rfl | hd
  · exact hnot d hc
  · exact hnot d (List.all_eq_true.1 List.all_takeWhile d hd)

theorem continuesName_of_startsName {c : Char} (h : startsName c = true) :
    continuesName c = true := by
  simp only [startsName, continuesName, Char.isAlphanum, Bool.or_eq_true] at *
  rcases h with h | h
  · exact Or.inl (Or.inl h)
  · exact Or.inr h

theorem formed_first (c : Char) (cs : List Char) :
    Formed ⟨(classify c cs.head?).1, c :: ((classify c cs.head?).2.split cs).1⟩ := by
  generalize hn : cs.head? = next
  fun_cases classify c next
  case case1 | case2 | case3 | case4 | case5 =>
    obtain ⟨rest, rfl⟩ := List.head?_eq_some_iff.1 hn
    rfl
  case case14 hname _ _ _ _ _ _ _ _ _ _ _ _ _ =>
    rw [if_pos hname]
    exact isSign_of_run (fun d hd => (run_of_isSign hd).1) (continuesName_of_startsName hname)
  case case15 hname hspace _ _ _ _ _ _ _ _ _ _ _ _ _ =>
    rw [if_neg hname, if_pos hspace]
    exact isSign_of_run (fun d hd => (run_of_isSign hd).2.1) hspace
  case case16 hname hspace hplain _ _ _ _ _ _ _ _ _ _ _ _ _ =>
    rw [if_neg hname, if_neg hspace, if_pos hplain]
    exact isSign_of_run (fun d hd => (run_of_isSign hd).2.2) hplain
  case case17 hname hspace hplain _ _ _ _ _ _ _ _ _ _ _ _ _ =>
    rw [if_neg hname, if_neg hspace, if_neg hplain]
    have hsign : isSign c = false := by simp_all [isSign]
    exact List.forall_mem_singleton.2 hsign
  all_goals rfl

theorem formed_of_mem_lex {t : Token} (h : t ∈ lex cs) : t.Formed := by
  fun_induction lex cs with
  | case1 => cases h
  | case2 c cs found parts ih =>
    rcases List.mem_cons.1 h with rfl | h
    · exact formed_first c cs
    · exact ih h

theorem infix_of_mem_lex {t : Token} (h : t ∈ lex cs) : t.text <:+: cs := by
  obtain ⟨before, after, hcut⟩ := List.append_of_mem h
  rw [← texts_lex cs, hcut]
  exact ⟨texts before, texts after, by simp⟩

/-! ### Borders -/

/-- a character that no token before it takes in, whatever that token is -/
def isBorder (c : Char) : Bool := "$@%[].,;')-".toList.contains c

theorem isBorder_cases {c : Char} (h : isBorder c = true) :
    c ≠ '(' ∧ c ≠ ':' ∧ c ≠ '>' ∧ continuesName c = false ∧ isSpace c = false ∧
      isPlain c = false := by
  have hall : ∀ d ∈ "$@%[].,;')-".toList, d ≠ '(' ∧ d ≠ ':' ∧ d ≠ '>' ∧
      continuesName d = false ∧ isSpace d = false ∧ isPlain d = false :=
    forall_mem_of_all (by decide)
  exact hall c (List.contains_iff_mem.1 h)

/-- a border tells as much as the end of the text does -/
theorem classify_border (c : Char) (hr : ∀ d ∈ rest.head?, isBorder d = true) :
    classify c rest.head? = classify c none := by
  cases hd : rest.head? with
  | none => rfl
  | some d =>
    obtain ⟨h1, h2, h3, -⟩ := isBorder_cases (hr d hd)
    unfold classify
    split <;> simp_all

theorem classify_withNext {c : Char} {next : Option Char}
    (h : (classify c next).2 = .withNext) : next ≠ none := by
  intro hn
  revert h
  fun_cases classify c next <;> simp_all

theorem classify_run {c : Char} {next : Option Char} {p : Char → Bool}
    (h : (classify c next).2 = .whileHolds p) {d : Char} (hd : isBorder d = true) :
    p d = false := by
  obtain ⟨-, -, -, h1, h2, h3⟩ := isBorder_cases hd
  revert h
  fun_cases classify c next <;> intro h
  case case14 hname _ _ _ _ _ _ _ _ _ _ _ _ _ =>
    rw [if_pos hname] at h
    exact Extent.whileHolds.inj h ▸ h1
  case case15 hname hspace _ _ _ _ _ _ _ _ _ _ _ _ _ =>
    rw [if_neg hname, if_pos hspace] at h
    exact Extent.whileHolds.inj h ▸ h2
  case case16 hname hspace hplain _ _ _ _ _ _ _ _ _ _ _ _ _ =>
    rw [if_neg hname, if_neg hspace, if_pos hplain] at h
    exact Extent.whileHolds.inj h ▸ h3
  case case17 hname hspace hplain _ _ _ _ _ _ _ _ _ _ _ _ _ =>
    rw [if_neg hname, if_neg hspace, if_neg hplain] at h
    cases h
  all_goals cases h

theorem takeWhile_border {p : Char → Bool} (hr : ∀ d ∈ rest.head?, p d = false) :
    rest.takeWhile p = [] ∧ rest.dropWhile p = rest := by
  cases rest with
  | nil => exact ⟨rfl, rfl⟩
  | cons d rest => simp [hr d rfl]

theorem takeWhile_append_border {p : Char → Bool} (cs : List Char)
    (hr : ∀ d ∈ rest.head?, p d = false) :
    (cs ++ rest).takeWhile p = cs.takeWhile p ∧
      (cs ++ rest).dropWhile p = cs.dropWhile p ++ rest := by
  induction cs with
  | nil => exact takeWhile_border hr
  | cons c cs ih => by_cases hc : p c = true <;> simp [hc, ih]

theorem split_append {c : Char} (hr : ∀ d ∈ rest.head?, isBorder d = true) :
    (classify c cs.head?).2.split (cs ++ rest) =
      (((classify c cs.head?).2.split cs).1, ((classify c cs.head?).2.split cs).2 ++ rest) := by
  cases he : (classify c cs.head?).2 with
  | alone => rfl
  | withNext =>
    cases cs with
    | nil => exact absurd rfl (classify_withNext he)
    | cons d cs => rfl
  | whileHolds p =>
    obtain ⟨h1, h2⟩ := takeWhile_append_border cs fun d hd => classify_run he (hr d hd)
    rw [Extent.split, Extent.split, h1, h2]

/-- what stands before a border is cut into tokens by itself -/
theorem lex_append (hr : ∀ d ∈ rest.head?, isBorder d = true) :
    lex (cs ++ rest) = lex cs ++ lex rest := by
  fun_induction lex cs with
  | case1 => rfl
  | case2 c cs found parts ih =>
    have hfound : classify c (cs ++ rest).head? = found := by
      cases cs with
      | nil => exact classify_border c hr
      | cons d cs => rfl
    rw [List.cons_append, lex, hfound, split_append hr, List.cons_append, ← ih]

/-! ### The token at the front -/

theorem lex_spelled {k : TokenKind} {s : List Char} (h : k.spelling? = some s) (rest : List Char) :
    lex (s ++ rest) = ⟨k, s⟩ :: lex rest := by
  cases k with
  | ident | blank | plain | stray => cases h
  | _ =>
    obtain rfl := Option.some.inj h
    simp only [List.cons_append, List.nil_append, lex]
    rfl

theorem classify_name {c : Char} (h : startsName c = true) (next : Option Char) :
    classify c next = (.ident, .whileHolds continuesName) := by
  unfold classify
  split
  case h_14 => rw [if_pos h]
  all_goals cases h

theorem lex_ident {name : List Char} (hn : IsIdent name)
    (hr : ∀ d ∈ rest.head?, continuesName d = false) :
    lex (name ++ rest) = ⟨.ident, name⟩ :: lex rest := by
  cases name with
  | nil => cases hn
  | cons first more =>
    obtain ⟨hs, hmore⟩ := hn
    obtain ⟨h1, h2⟩ := takeWhile_border hr
    rw [List.cons_append, lex, classify_name hs]
    simp only [Extent.split, List.takeWhile_append_of_pos hmore, List.dropWhile_append_of_pos hmore,
      h1, h2, List.append_nil]

end Token
end ProjectSense
