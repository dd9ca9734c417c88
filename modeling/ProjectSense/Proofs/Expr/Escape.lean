import ProjectSense.Expr.Escape
import ProjectSense.Proofs.Expr.Reading
import ProjectSense.Proofs.Text.Utf8

/-!
# Escaped text

Escapes are undone exactly, and what is left of a text once it is escaped means nothing to an
expression.

* `Escape.decodeBytes_escaped`: the bytes of escaped characters denote the characters.
* `Escape.unescape_escape`: an escaped text denotes the text.
* `Expr.parse_escape`: an escaped text is one literal, whatever it holds.
-/

namespace ProjectSense

open Text (width)

namespace Escape

/-! ### Reading escapes -/

theorem decodeBytes_cons {b : UInt8} (h : b ≠ 37) (bs : List UInt8) :
    decodeBytes (b :: bs) = b :: decodeBytes bs := by
  rw [decodeBytes]
  rintro high low rest rfl
  exact absurd rfl h

theorem decodeBytes_append {bs : List UInt8} (h : ∀ b ∈ bs, b ≠ 37) (rest : List UInt8) :
    decodeBytes (bs ++ rest) = bs ++ decodeBytes rest := by
  induction bs with
  | nil => rfl
  | cons b bs ih =>
    obtain ⟨hb, hbs⟩ := List.forall_mem_cons.1 h
    rw [List.cons_append, decodeBytes_cons hb, ih hbs, List.cons_append]

/-- the byte of `%` is part of no other character -/
theorem percent_not_mem_encodeChar {c : Char} (h : c ≠ '%') :
    ∀ b ∈ Text.Utf8.encodeChar c, b ≠ 37 := by
  rintro b hb rfl
  have : c.toNat = 37 := Text.Utf8.toNat_of_mem_encodeChar hb (by decide)
  exact h (Char.toNat_inj.1 this)

/-- the byte of the hexadecimal digit -/
def hexByte (n : Nat) : UInt8 := .ofNat (hexDigit n).toNat

/-- an escape denotes the character that it was written for -/
theorem byte?_of_special : ∀ c ∈ special,
    Text.Utf8.encode (encodeChar c) = [37, hexByte (c.toNat / 16), hexByte (c.toNat % 16)] ∧
      byte? (hexByte (c.toNat / 16)) (hexByte (c.toNat % 16)) = some (.ofNat c.toNat) ∧
      Text.Utf8.encodeChar c = [.ofNat c.toNat] :=
  forall_mem_of_all (by decide)

theorem decodeBytes_encodeChar (c : Char) (rest : List UInt8) :
    decodeBytes (Text.Utf8.encode (encodeChar c) ++ rest) =
      Text.Utf8.encodeChar c ++ decodeBytes rest := by
  by_cases hc : c ∈ special
  · obtain ⟨h1, h2, h3⟩ := byte?_of_special c hc
    rw [h1, h3]
    simp only [List.cons_append, List.nil_append]
    rw [decodeBytes, h2]
  · have hne : c ≠ '%' := by rintro rfl; exact hc (by decide)
    rw [encodeChar, if_neg hc, Text.Utf8.encode_cons, Text.Utf8.encode_nil, List.append_nil]
    exact decodeBytes_append (percent_not_mem_encodeChar hne) rest

/-- the bytes of escaped characters denote the characters -/
theorem decodeBytes_escaped (cs : List Char) :
    decodeBytes (Text.Utf8.encode (cs.flatMap encodeChar)) = Text.Utf8.encode cs := by
  induction cs with
  | nil => simp [decodeBytes]
  | cons c cs ih =>
    rw [List.flatMap_cons, Text.Utf8.encode, List.flatMap_append]
    exact (decodeBytes_encodeChar c _).trans (congrArg (Text.Utf8.encodeChar c ++ ·) ih)

theorem unescape_escape (v : String) : unescape (escape v) = v := by
  rw [unescape, escape, String.toList_ofList, decodeBytes_escaped, Text.Utf8.decode_encode,
    String.ofList_toList]

/-- without a `%` nothing is replaced -/
theorem unescape_of_not_mem {raw : String} (h : '%' ∉ raw.toList) : unescape raw = raw := by
  have hbytes : ∀ b ∈ Text.Utf8.encode raw.toList, b ≠ 37 := by
    intro b hb
    obtain ⟨c, hc, hb⟩ := List.mem_flatMap.1 hb
    exact percent_not_mem_encodeChar (fun heq => h (heq ▸ hc)) b hb
  have hsame := decodeBytes_append hbytes []
  rw [List.append_nil, decodeBytes, List.append_nil] at hsame
  rw [unescape, hsame, Text.Utf8.decode_encode, String.ofList_toList]

/-! ### What escaped text holds -/

theorem hexDigit_not_special : ∀ n < 16, hexDigit n ∉ special := by decide

/-- of the characters with a meaning only `%` is left -/
theorem eq_percent_of_mem_encodeChar {c d : Char} (h : d ∈ encodeChar c) (hd : d ∈ special) :
    d = '%' := by
  unfold encodeChar at h
  split at h
  · next hc =>
    have hlt : c.toNat < 256 := by
      have hall : ∀ c ∈ special, c.toNat < 256 := forall_mem_of_all (by decide)
      exact hall c hc
    simp only [List.mem_cons, List.not_mem_nil, or_false] at h
    rcases h with rfl | rfl | rfl
    · rfl
    · exact absurd hd (hexDigit_not_special _ (by omega))
    · exact absurd hd (hexDigit_not_special _ (by omega))
  · next hc =>
    obtain rfl := List.mem_singleton.1 h
    exact absurd hd hc

theorem eq_percent_of_mem_escape {v : String} {d : Char} (h : d ∈ (escape v).toList)
    (hd : d ∈ special) : d = '%' := by
  rw [escape, String.toList_ofList] at h
  obtain ⟨c, -, hc⟩ := List.mem_flatMap.1 h
  exact eq_percent_of_mem_encodeChar hc hd

end Escape

namespace Expr

/-- an escaped text is one literal that denotes the text: nothing in it splits a list or opens a
reference, and no two texts are escaped alike -/
theorem parse_escape (v : String) (base : Nat) :
    parse (escape v) base = .text ⟨base, base + width (escape v).toList⟩ (escape v) ∧
      unescape (escape v) = v ∧ Function.Injective escape ∧ ';' ∉ (escape v).toList ∧
      ∀ opener ∈ openers, ¬opener <:+: (escape v).toList := by
  have hnot : ∀ d ∈ Escape.special, d ≠ '%' → d ∉ (escape v).toList := fun d hd hne hmem =>
    hne (Escape.eq_percent_of_mem_escape hmem hd)
  have hsemi : ';' ∉ (escape v).toList := hnot ';' (by decide) (by decide)
  have hparen : '(' ∉ (escape v).toList := hnot '(' (by decide) (by decide)
  refine ⟨parse_literal ?_ base, Escape.unescape_escape v, ?_, hsemi, ?_⟩
  · intro t ht
    have hmem := (Token.infix_of_mem_lex ht).subset
    have hformed := Token.formed_of_mem_lex ht
    obtain ⟨k, text⟩ := t
    cases k with
    | semicolon =>
      obtain rfl : text = [';'] := hformed
      exact absurd (hmem (by simp)) hsemi
    | propertyOpen | itemOpen | metadataOpen =>
      obtain rfl : text = _ := hformed
      exact absurd (hmem (by simp)) hparen
    | _ => exact ⟨by simp, rfl⟩
  · intro v w h
    rw [← Escape.unescape_escape v, h, Escape.unescape_escape]
  · intro opener ho hin
    have hall : ∀ opener ∈ openers, '(' ∈ opener := by decide
    exact hparen (hin.subset (hall opener ho))

end Expr
end ProjectSense
