import ProjectSense.Proofs.Text.Utf8

/-!
# Case in bytes

The case of ASCII letters can be taken off a text or, byte by byte, off its UTF-8 form.

* `of_ascii`: what is checked for every ASCII character.
* `Text.Utf8.encode_toLower`: the bytes of a lowered text are the bytes of the text, each lowered.
-/

namespace ProjectSense

variable {c : Char}

/-- what is checked for the ASCII characters -/
theorem of_ascii {p : Char → Prop} (h : ∀ n < 128, p (Char.ofNat n)) (hc : c.toNat < 128) : p c :=
  Char.ofNat_toNat c ▸ h c.toNat hc

theorem toLower_of_not_ascii (h : ¬c.toNat < 128) : c.toLower = c := by
  have hnot : ¬(c.val ≥ 'A'.val ∧ c.val ≤ 'Z'.val) := fun hrange =>
    h (Nat.lt_of_le_of_lt (UInt32.le_iff_toNat_le.1 hrange.2) (by decide))
  exact dif_neg hnot

namespace Text.Utf8

/-- the byte, lowered if it is one of `A` to `Z` -/
def lowerByte (b : UInt8) : UInt8 := if 0x41 ≤ b ∧ b ≤ 0x5A then b + 0x20 else b

theorem lowerByte_of_le {b : UInt8} (h : 0x80 ≤ b.toNat) : lowerByte b = b := by
  have hnot : ¬(0x41 ≤ b ∧ b ≤ 0x5A) := fun hrange =>
    Nat.not_le_of_lt (Nat.lt_of_lt_of_le (by decide) h) (UInt8.le_iff_toNat_le.1 hrange.2)
  rw [lowerByte, if_neg hnot]

theorem encodeChar_toLower (c : Char) :
    encodeChar c.toLower = (encodeChar c).map lowerByte := by
  by_cases hc : c.toNat < 128
  · exact of_ascii (p := fun c => encodeChar c.toLower = (encodeChar c).map lowerByte)
      (by decide +kernel) hc
  · -- no byte of a longer form is that of a letter
    have hbytes : ∀ b ∈ encodeChar c, lowerByte b = b := fun b hb =>
      lowerByte_of_le (Nat.le_of_not_lt fun hlt => hc (toNat_of_mem_encodeChar hb hlt ▸ hlt))
    rw [toLower_of_not_ascii hc, List.map_congr_left hbytes, List.map_id']

theorem encode_toLower (cs : List Char) :
    encode (cs.map Char.toLower) = (encode cs).map lowerByte := by
  induction cs with
  | nil => rfl
  | cons c cs ih =>
    rw [List.map_cons, encode_cons, encode_cons, List.map_append, encodeChar_toLower, ih]

end Text.Utf8
end ProjectSense
