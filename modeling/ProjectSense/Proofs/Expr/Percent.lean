import ProjectSense.Proofs.Expr.Escape
import ProjectSense.Proofs.Text.Ascii
import ProjectSense.Proofs.Text.Number
import ProjectSense.Proofs.Text.Replaced

/-!
# Escapes among bytes

An escape is `%` and two hexadecimal digits, and denotes a byte.  The reader takes a sign for the
first digit, too, though that makes no escape.

* `Escape.IsEscape`, `Escape.IsSigned`: what is taken for a byte.
* `Escape.either_escape_iff`: nothing else is.
* `Escape.replaced_decodeBytes`: every escape is replaced, and nothing else but signed digits.
* `Escape.unescape_replaced`: a text is read as its escapes say just where no signed digit stands in
  it.
-/

namespace ProjectSense.Escape

open Text (Replaced Marked Either)
open Text.Utf8 (encode decode)

variable {b high low : UInt8} {n : Nat} {c d : Char} {w bs : List UInt8}

/-! ### What denotes a byte -/

/-- `%` and two hexadecimal digits, and the byte that they denote -/
def IsEscape (w : List UInt8) (b : UInt8) : Prop :=
  ∃ c d high low, IsDigit 16 c high ∧ IsDigit 16 d low ∧ w = encode ['%', c, d] ∧
    b.toNat = 16 * high + low

/-- `%`, a sign and one hexadecimal digit -/
def IsSigned (w : List UInt8) (b : UInt8) : Prop :=
  ∃ d, IsDigit 16 d b.toNat ∧ w = encode ['%', '+', d]

theorem encode_digit (h : IsDigit 16 c n) (cs : List Char) :
    encode (c :: cs) = .ofNat c.toNat :: encode cs := by
  have hchar : Text.Utf8.encodeChar c = [.ofNat c.toNat] :=
    if_pos (toNat_lt_of_hexValue? (hexValue?_eq_some_iff.2 h))
  rw [Text.Utf8.encode_cons, hchar]
  rfl

theorem digit?_eq_some_iff : digit? b = some n ↔ ∃ c, IsDigit 16 c n ∧ b = .ofNat c.toNat := by
  rw [digit?, hexValue?_eq_some_iff]
  constructor
  · intro h
    have hvalid : b.toNat.isValidChar := .inl (Nat.lt_trans b.toNat_lt (by decide))
    have hb : (Char.ofNat b.toNat).toNat = b.toNat := by
      rw [Char.ofNat, dif_pos hvalid]
      rfl
    exact ⟨_, h, by rw [hb, UInt8.ofNat_toNat]⟩
  · rintro ⟨c, hc, rfl⟩
    have hlt := toNat_lt_of_hexValue? (hexValue?_eq_some_iff.2 hc)
    rwa [Text.Utf8.toNat_byte (by omega), Char.ofNat_toNat]

theorem isEscape_iff : IsEscape w b ↔ ∃ high low h l, digit? high = some h ∧ digit? low = some l ∧
    w = [37, high, low] ∧ b.toNat = 16 * h + l := by
  have hbytes : ∀ {c d h l}, IsDigit 16 c h → IsDigit 16 d l →
      encode ['%', c, d] = [37, .ofNat c.toNat, .ofNat d.toNat] := by
    intro c d h l hc hd
    change 37 :: encode [c, d] = _
    rw [encode_digit hc, encode_digit hd]
    rfl
  constructor
  · rintro ⟨c, d, h, l, hc, hd, rfl, hb⟩
    exact ⟨_, _, h, l, digit?_eq_some_iff.2 ⟨c, hc, rfl⟩, digit?_eq_some_iff.2 ⟨d, hd, rfl⟩,
      hbytes hc hd, hb⟩
  · rintro ⟨high, low, h, l, hh, hl, rfl, hb⟩
    obtain ⟨c, hc, rfl⟩ := digit?_eq_some_iff.1 hh
    obtain ⟨d, hd, rfl⟩ := digit?_eq_some_iff.1 hl
    exact ⟨c, d, h, l, hc, hd, (hbytes hc hd).symm, hb⟩

theorem isSigned_iff : IsSigned w b ↔ ∃ low, digit? low = some b.toNat ∧ w = [37, 43, low] := by
  have hbytes : ∀ {d}, IsDigit 16 d b.toNat → encode ['%', '+', d] = [37, 43, .ofNat d.toNat] := by
    intro d hd
    change 37 :: 43 :: encode [d] = _
    rw [encode_digit hd]
    rfl
  constructor
  · rintro ⟨d, hd, rfl⟩
    exact ⟨_, digit?_eq_some_iff.2 ⟨d, hd, rfl⟩, hbytes hd⟩
  · rintro ⟨low, hl, rfl⟩
    obtain ⟨d, hd, rfl⟩ := digit?_eq_some_iff.1 hl
    exact ⟨d, hd, (hbytes hd).symm⟩

theorem lt_of_digit? (h : digit? b = some n) : n < 16 := by
  obtain ⟨c, hc, -⟩ := digit?_eq_some_iff.1 h
  exact hc.1

/-- what is taken for a byte is an escape or a signed digit -/
theorem either_escape_iff :
    Either IsEscape IsSigned w b ↔ ∃ high low, byte? high low = some b ∧ w = [37, high, low] := by
  rw [Either, isEscape_iff, isSigned_iff]
  constructor
  · rintro (⟨high, low, h, l, hh, hl, rfl, hb⟩ | ⟨low, hl, rfl⟩)
    · have hne : high ≠ 43 := by
        rintro rfl
        cases hh
      refine ⟨high, low, ?_, rfl⟩
      rw [byte?, if_neg hne, hh, hl]
      change some (UInt8.ofNat (16 * h + l)) = some b
      rw [← hb, UInt8.ofNat_toNat]
    · refine ⟨43, low, ?_, rfl⟩
      rw [byte?, if_pos rfl, hl]
      exact congrArg some UInt8.ofNat_toNat
  · rintro ⟨high, low, hbyte, rfl⟩
    rw [byte?] at hbyte
    split at hbyte
    · next hplus =>
      obtain ⟨l, hl, rfl⟩ := Option.map_eq_some_iff.1 hbyte
      have hlt := lt_of_digit? hl
      rw [hplus]
      exact .inr ⟨low, by rw [Text.Utf8.toNat_byte (by omega), hl], rfl⟩
    · split at hbyte
      · next h l hh hl =>
        obtain rfl := Option.some.inj hbyte
        have hlt := lt_of_digit? hh
        have hlt' := lt_of_digit? hl
        exact .inl ⟨high, low, h, l, hh, hl, rfl, Text.Utf8.toNat_byte (by omega)⟩
      · cases hbyte

/-- no digit is a `%` -/
theorem not_mem_of_byte? (h : byte? high low = some b) : 37 ∉ [high, low] := by
  have hne : ∀ {b n}, digit? b = some n → 37 ≠ b := by
    rintro b n hb rfl
    cases hb
  rcases either_escape_iff.2 ⟨high, low, h, rfl⟩ with hw | hw
  · obtain ⟨_, _, _, _, hh, hl, ⟨⟩, -⟩ := isEscape_iff.1 hw
    simp [hne hh, hne hl]
  · obtain ⟨_, hl, ⟨⟩⟩ := isSigned_iff.1 hw
    simp [hne hl]

theorem marked_escape : Marked 37 (Either IsEscape IsSigned) where
  shape hw := by
    obtain ⟨high, low, hbyte, rfl⟩ := either_escape_iff.1 hw
    exact ⟨_, rfl, not_mem_of_byte? hbyte⟩
  unique hv hw hpre := by
    obtain ⟨high, low, hbyte, rfl⟩ := either_escape_iff.1 hw
    obtain ⟨high', low', hbyte', rfl⟩ := either_escape_iff.1 hv
    obtain ⟨⟩ := hpre.eq_of_length rfl
    exact ⟨rfl, Option.some.inj (hbyte'.symm.trans hbyte)⟩

/-- every escape is replaced, and nothing else but signed digits is -/
theorem replaced_decodeBytes (bs : List UInt8) :
    Replaced (Either IsEscape IsSigned) bs (decodeBytes bs) := by
  fun_induction decodeBytes bs with
  | case1 high low rest b hb ih => exact .replace (either_escape_iff.2 ⟨high, low, hb, rfl⟩) ih
  | case2 high low rest hb ih =>
    refine .copy (fun w b hw hpre => ?_) ih
    obtain ⟨high', low', hbyte, rfl⟩ := either_escape_iff.1 hw
    obtain ⟨rest', heq⟩ := hpre
    cases heq
    rw [hb] at hbyte
    cases hbyte
  | case3 b rest hnot ih =>
    refine .copy (fun w c hw hpre => ?_) ih
    obtain ⟨high', low', hbyte, rfl⟩ := either_escape_iff.1 hw
    obtain ⟨rest', heq⟩ := hpre
    obtain ⟨rfl, rfl⟩ := List.cons.inj heq
    exact hnot high' low' rest' rfl rfl
  | case4 => exact .nil

/-! ### What a text is read as -/

theorem count_decode_percent (bs : List UInt8) : (decode bs).count '%' = bs.count 37 :=
  Text.Utf8.count_decode (by decide) (by decide) bs

/-- a signed digit takes its `%` with it, and no byte below 16 is one -/
theorem not_replaced_of_signed (hw : IsSigned w b) (hin : w <:+: bs) {out : List UInt8}
    (h : Replaced IsEscape bs out) : decode (decodeBytes bs) ≠ decode out := by
  intro heq
  have hcount := (replaced_decodeBytes bs).countP_le (p := (· == 37)) marked_escape ?_ ?_ h
  · have hlt := hcount.2 w b hw hin
    have hcount' := congrArg (List.count '%') heq
    rw [count_decode_percent, count_decode_percent] at hcount'
    exact absurd hlt hcount'.not_lt
  · intro w b hsigned hescape
    obtain ⟨low, hl, rfl⟩ := isSigned_iff.1 hsigned
    obtain ⟨high, low', h, l, hh, -, heq, -⟩ := isEscape_iff.1 hescape
    cases heq
    cases hh
  · intro w b hsigned
    obtain ⟨low, hl, rfl⟩ := isSigned_iff.1 hsigned
    have hne : b ≠ 37 := by
      rintro rfl
      exact absurd (lt_of_digit? hl) (by decide)
    simp [hne]

/-- Every escape is replaced by its byte, and the bytes that this gives are read as text.  Nothing
else is replaced but digits with a sign, so that a text is read as its escapes say just where none
of those stands in it.  Nothing is replaced where no `%` stands. -/
theorem unescape_replaced (raw : String) :
    (∃ bytes, (∀ out, Replaced (Either IsEscape IsSigned) (encode raw.toList) out ↔ out = bytes) ∧
      unescape raw = String.ofList (decode bytes)) ∧
    ((∃ bytes, (∀ out, Replaced IsEscape (encode raw.toList) out ↔ out = bytes) ∧
      unescape raw = String.ofList (decode bytes)) ↔
        ∀ d n, IsDigit 16 d n → ¬['%', '+', d] <:+: raw.toList) ∧
    ('%' ∈ raw.toList ∨ unescape raw = raw) := by
  have hread := replaced_decodeBytes (encode raw.toList)
  refine ⟨⟨_, fun out => hread.iff_eq marked_escape, rfl⟩, ⟨?_, fun h => ?_⟩, ?_⟩
  · rintro ⟨bytes, hbytes, heq⟩ d n hd ⟨front, back, hin⟩
    have hsame : (UInt8.ofNat n).toNat = n := Text.Utf8.toNat_byte (hd.1.trans (by decide))
    have hsigned : IsSigned (encode ['%', '+', d]) (.ofNat n) := ⟨d, hsame.symm ▸ hd, rfl⟩
    refine not_replaced_of_signed hsigned ?_ ((hbytes bytes).2 rfl) (String.ofList_injective heq)
    rw [← hin]
    exact ⟨encode front, encode back, by simp only [encode, List.flatMap_append]⟩
  · refine ⟨_, fun out => (hread.without ?_).iff_eq marked_escape.left, rfl⟩
    rintro w b ⟨d, hd, rfl⟩ hin
    exact h d _ hd (Text.Utf8.infix_of_encode (by decide) hin)
  · by_cases hmem : '%' ∈ raw.toList
    · exact .inl hmem
    · exact .inr (unescape_of_not_mem hmem)

/-- a digit with a sign is no escape, and is replaced -/
theorem unescape_signed :
    Replaced IsEscape (encode "%+5".toList) (encode "%+5".toList) ∧ unescape "%+5" = "\x05" := by
  refine ⟨.self ?_, by decide +kernel⟩
  intro w b hw hin
  obtain ⟨high, low, h, l, hh, -, rfl, -⟩ := isEscape_iff.1 hw
  have heq : [37, high, low] = [37, 43, 53] := hin.eq_of_length rfl
  cases heq
  cases hh

end ProjectSense.Escape
