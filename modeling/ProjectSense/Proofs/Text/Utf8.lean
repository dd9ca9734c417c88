import ProjectSense.Text.Utf8
import ProjectSense.Text.Width

/-!
# Reading written bytes

The bytes of a text are read as the text, and are as many as its width says.

* `Text.Utf8.decodeFrom_encodeChar`: one character, whatever follows.
* `Text.Utf8.decode_encode`: a whole text.
* `Text.Utf8.length_encode`: how many bytes there are.
* `Text.Utf8.mem_encodeChar_cases`: and which.
-/

namespace ProjectSense.Text.Utf8

variable {n b : Nat} {p : Partial}

theorem toNat_byte (h : n < 256) : (UInt8.ofNat n).toNat = n := by
  simp [Nat.mod_eq_of_lt h]

/-! ### One byte -/

theorem decodeFrom_lead (h : lead? b = some p) (hlow : 0x80 ≤ b) (hb : b < 256)
    (bs : List UInt8) : decodeFrom none (.ofNat b :: bs) = decodeFrom (some p) bs := by
  have hnot : ¬b < 0x80 := by omega
  simp [decodeFrom, step, begin, toNat_byte hb, h, hnot]

/-- a tail that more follow -/
theorem decodeFrom_tail (ho : p.owed ≠ 1) (h1 : p.low ≤ b) (h2 : b ≤ p.high) (hb : b < 256)
    (bs : List UInt8) :
    decodeFrom (some p) (.ofNat b :: bs) =
      decodeFrom (some ⟨p.owed - 1, 0x80, 0xBF, p.bits * 0x40 + (b - 0x80)⟩) bs := by
  simp [decodeFrom, step, toNat_byte hb, h1, h2, ho]

/-- the tail that ends a character -/
theorem decodeFrom_last (ho : p.owed = 1) (h1 : p.low ≤ b) (h2 : b ≤ p.high) (hb : b < 256)
    (bs : List UInt8) :
    decodeFrom (some p) (.ofNat b :: bs) =
      Char.ofNat (p.bits * 0x40 + (b - 0x80)) :: decodeFrom none bs := by
  simp [decodeFrom, step, toNat_byte hb, h1, h2, ho]

theorem lead?_two (h1 : 2 ≤ n) (h2 : n < 32) : lead? (0xC0 + n) = some ⟨1, 0x80, 0xBF, n⟩ := by
  rw [lead?, if_pos (by omega), Nat.add_sub_cancel_left]

/-- what a lead byte of three announces: no overlong form, and no surrogate -/
theorem lead?_three : ∀ n < 16, lead? (0xE0 + n) =
    some ⟨2, if n = 0 then 0xA0 else 0x80, if n = 13 then 0x9F else 0xBF, n⟩ := by
  decide

/-- what a lead byte of four announces: no overlong form, and nothing past the last character -/
theorem lead?_four : ∀ n < 5, lead? (0xF0 + n) =
    some ⟨3, if n = 0 then 0x90 else 0x80, if n = 4 then 0x8F else 0xBF, n⟩ := by
  decide

/-! ### Characters -/

/-- the bytes of a character are read as the character -/
theorem decodeFrom_encodeChar (c : Char) (bs : List UInt8) :
    decodeFrom none (encodeChar c ++ bs) = c :: decodeFrom none bs := by
  have hvalid : c.toNat < 0xD800 ∨ (0xDFFF < c.toNat ∧ c.toNat < 0x110000) := c.valid
  have hchar : Char.ofNat c.toNat = c := Char.ofNat_toNat c
  unfold encodeChar
  generalize c.toNat = n at *
  simp only
  split
  · next h1 =>
    simp [decodeFrom, step, begin, toNat_byte (show n < 256 by omega), h1, hchar]
  split
  · have hbits : n / 0x40 * 0x40 + (0x80 + n % 0x40 - 0x80) = n := by omega
    have hlead := lead?_two (n := n / 0x40) (by omega) (by omega)
    simp only [List.cons_append, List.nil_append]
    rw [decodeFrom_lead hlead (by omega) (by omega),
      decodeFrom_last rfl (by simp) (by simp; omega) (by omega), hbits, hchar]
  split
  · have hbits : (n / 0x1000 * 0x40 + (0x80 + n / 0x40 % 0x40 - 0x80)) * 0x40 +
        (0x80 + n % 0x40 - 0x80) = n := by omega
    have hlead := lead?_three (n / 0x1000) (by omega)
    have hlow : (if n / 0x1000 = 0 then 0xA0 else 0x80) ≤ 0x80 + n / 0x40 % 0x40 := by
      split <;> omega
    have hhigh : 0x80 + n / 0x40 % 0x40 ≤ (if n / 0x1000 = 13 then 0x9F else 0xBF) := by
      split <;> omega
    simp only [List.cons_append, List.nil_append]
    rw [decodeFrom_lead hlead (by omega) (by omega),
      decodeFrom_tail (by simp) hlow hhigh (by omega),
      decodeFrom_last rfl (by simp) (by simp; omega) (by omega), hbits, hchar]
  · have hbits : ((n / 0x40000 * 0x40 + (0x80 + n / 0x1000 % 0x40 - 0x80)) * 0x40 +
        (0x80 + n / 0x40 % 0x40 - 0x80)) * 0x40 + (0x80 + n % 0x40 - 0x80) = n := by omega
    have hlead := lead?_four (n / 0x40000) (by omega)
    have hlow : (if n / 0x40000 = 0 then 0x90 else 0x80) ≤ 0x80 + n / 0x1000 % 0x40 := by
      split <;> omega
    have hhigh : 0x80 + n / 0x1000 % 0x40 ≤ (if n / 0x40000 = 4 then 0x8F else 0xBF) := by
      split <;> omega
    simp only [List.cons_append, List.nil_append]
    rw [decodeFrom_lead hlead (by omega) (by omega),
      decodeFrom_tail (by simp) hlow hhigh (by omega),
      decodeFrom_tail (by simp) (by simp) (by simp; omega) (by omega),
      decodeFrom_last rfl (by simp) (by simp; omega) (by omega), hbits, hchar]

/-- the bytes of a text are read as the text, whatever follows -/
theorem decode_encode_append (cs : List Char) (bs : List UInt8) :
    decode (encode cs ++ bs) = cs ++ decode bs := by
  induction cs with
  | nil => rfl
  | cons c cs ih =>
    rw [decode, encode_cons, List.append_assoc, decodeFrom_encodeChar]
    exact congrArg (c :: ·) ih

theorem decode_encode (cs : List Char) : decode (encode cs) = cs := by
  have h := decode_encode_append cs []
  rwa [List.append_nil, decode, decode, decodeFrom, List.append_nil] at h

theorem encode_inj {cs ds : List Char} : encode cs = encode ds ↔ cs = ds := by
  refine ⟨fun h => ?_, congrArg encode⟩
  rw [← decode_encode cs, h, decode_encode]

theorem length_encodeChar (c : Char) : (encodeChar c).length = c.utf8Size := by
  have hle : ∀ n : UInt32, c.val ≤ n ↔ c.toNat ≤ n.toNat := fun n => UInt32.le_iff_toNat_le
  simp only [encodeChar, Char.utf8Size, hle, UInt32.toNat_ofNatLT]
  split
  · rw [if_pos (by omega)]; rfl
  split
  · rw [if_neg (by omega), if_pos (by omega)]; rfl
  split
  · rw [if_neg (by omega), if_neg (by omega), if_pos (by omega)]; rfl
  · rw [if_neg (by omega), if_neg (by omega), if_neg (by omega)]; rfl

theorem length_encode (cs : List Char) : (encode cs).length = width cs := by
  induction cs with
  | nil => rfl
  | cons c cs ih => rw [encode_cons, List.length_append, length_encodeChar, ih, width_cons]

/-- a byte of a character is all of it, or one of those from 128 on that longer forms have -/
theorem mem_encodeChar_cases {c : Char} {d : UInt8} (h : d ∈ encodeChar c) :
    c.toNat = d.toNat ∧ d.toNat < 0x80 ∨ 0x80 ≤ d.toNat ∧ d.toNat < 0xF8 := by
  have hvalid : c.toNat < 0xD800 ∨ (0xDFFF < c.toNat ∧ c.toNat < 0x110000) := c.valid
  unfold encodeChar at h
  generalize c.toNat = n at *
  have hbyte : ∀ m, 0x80 ≤ m → m < 0xF8 → d = .ofNat m → 0x80 ≤ d.toNat ∧ d.toNat < 0xF8 := by
    rintro m h1 h2 rfl
    rw [toNat_byte (by omega)]
    exact ⟨h1, h2⟩
  simp only at h
  split at h
  · next hn =>
    obtain rfl := List.mem_singleton.1 h
    rw [toNat_byte (by omega)]
    exact .inl ⟨rfl, hn⟩
  right
  split at h
  · simp only [List.mem_cons, List.not_mem_nil, or_false] at h
    rcases h with h | h
    all_goals exact hbyte _ (by omega) (by omega) h
  split at h
  · simp only [List.mem_cons, List.not_mem_nil, or_false] at h
    rcases h with h | h | h
    all_goals exact hbyte _ (by omega) (by omega) h
  · simp only [List.mem_cons, List.not_mem_nil, or_false] at h
    rcases h with h | h | h | h
    all_goals exact hbyte _ (by omega) (by omega) h

/-- a byte below 128 stands for itself, never for a part of a longer form -/
theorem toNat_of_mem_encodeChar {c : Char} {d : UInt8} (h : d ∈ encodeChar c)
    (hd : d.toNat < 0x80) : c.toNat = d.toNat :=
  ((mem_encodeChar_cases h).resolve_right fun hlong => by omega).1

/-- no byte of a text is from 248 on -/
theorem lt_of_mem_encode {cs : List Char} {d : UInt8} (h : d ∈ encode cs) : d.toNat < 0xF8 := by
  obtain ⟨c, -, hc⟩ := List.mem_flatMap.1 h
  rcases mem_encodeChar_cases hc with ⟨-, hlt⟩ | ⟨-, hlt⟩
  · omega
  · exact hlt

end ProjectSense.Text.Utf8
