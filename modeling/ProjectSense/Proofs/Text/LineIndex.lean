import Mathlib.Data.List.Basic
import Mathlib.Data.Prod.Lex
import Mathlib.Order.Interval.Set.Defs
import ProjectSense.Proofs.Text.Utf8
import ProjectSense.Text.LineIndex

/-!
# Lines and columns of the bytes

The lines of a text end at the newlines among its bytes, which no longer character holds.  An
offset is a line and a column and the other way round; a column that lies behind its line stands
for the end of the text, unless it is so great that its offset exceeds 32 bits.

* `LineIndex.starts_ofText`: where lines start.
* `LineIndex.position_eq`: the line and column of an offset, by the newlines before it.
* `LineIndex.lineFound_iff`: the line that a search of the starts finds.
* `LineIndex.position_newlines`: lines and columns give the offset back, in the same order.
* `LineIndex.offset?_clamped`: the offset of a line and a column, and where there is none.
-/

namespace ProjectSense
namespace LineIndex

open Text.Utf8 (encode encodeChar)

variable {text : String} {bytes : List UInt8} {offset line : Nat}

/-! ### Where lines start -/

/-- the byte of a line feed -/
def newline : UInt8 := 0x0A

theorem idxsOf_encodeChar {c : Char} (hc : c ≠ '\n') (pos : Nat) :
    (encodeChar c).idxsOf newline pos = [] := by
  rw [List.idxsOf_eq_nil_iff]
  refine fun b hb => beq_false_of_ne ?_
  rintro rfl
  exact hc (Char.ext (UInt32.toNat_inj.1 (Text.Utf8.toNat_of_mem_encodeChar hb (by decide))))

theorem startsFrom_eq (pos : Nat) (cs : List Char) :
    startsFrom pos cs = (encode cs).idxsOf newline (pos + 1) := by
  induction cs generalizing pos with
  | nil => rfl
  | cons c cs ih =>
    rw [startsFrom, Text.Utf8.encode_cons, List.idxsOf_append]
    split
    · next hc =>
      subst hc
      rw [ih]
      rfl
    · next hc =>
      rw [ih, idxsOf_encodeChar hc, Text.Utf8.length_encodeChar, List.nil_append,
        Nat.add_right_comm]

/-- a line starts at the front and just after each newline -/
theorem starts_ofText (text : String) :
    (ofText text).starts = 0 :: (encode text.toList).idxsOf newline 1 := by
  rw [ofText, startsFrom_eq]

theorem width_ofText (text : String) : (ofText text).width = (encode text.toList).length :=
  (Text.Utf8.length_encode text.toList).symm

/-! ### The starts before an offset -/

/-- the offsets just after the newlines that stand before an offset -/
def breaks (bytes : List UInt8) (offset : Nat) : List Nat := (bytes.take offset).idxsOf newline 1

theorem length_breaks : (breaks bytes offset).length = (bytes.take offset).count newline :=
  List.length_idxsOf

theorem le_of_mem_breaks {s : Nat} (h : s ∈ breaks bytes offset) : s ≤ offset := by
  have hlt := List.lt_add_of_mem_idxsOf s h
  have hle := List.length_take_le offset bytes
  omega

theorem getLastD_breaks_le (bytes : List UInt8) (offset : Nat) :
    (breaks bytes offset).getLastD 0 ≤ offset := by
  rcases List.eq_nil_or_concat (breaks bytes offset) with h | ⟨more, last, h⟩
  · rw [h]
    exact Nat.zero_le offset
  · rw [List.concat_eq_append] at h
    rw [h, List.getLastD_concat]
    exact le_of_mem_breaks (h ▸ List.mem_append_right more List.mem_cons_self)

/-- the other lines start behind the offset -/
theorem breaks_append (bytes : List UInt8) (h : offset ≤ bytes.length) :
    ∃ far, bytes.idxsOf newline 1 = breaks bytes offset ++ far ∧ ∀ s ∈ far, offset < s := by
  refine ⟨(bytes.drop offset).idxsOf newline (1 + offset), ?_, fun s hs => ?_⟩
  · conv_lhs => rw [← List.take_append_drop offset bytes, List.idxsOf_append,
      List.length_take_of_le h]
    rfl
  · have hge := List.ge_of_mem_idxsOf s hs
    omega

/-- a greater offset has the same newlines before it, and perhaps more -/
theorem breaks_prefix (bytes : List UInt8) {more : Nat} (h : offset ≤ more) :
    breaks bytes offset <+: breaks bytes more := by
  obtain ⟨rest, hrest⟩ := List.take_prefix_take_left (l := bytes) h
  rw [breaks, breaks, ← hrest, List.idxsOf_append]
  exact List.prefix_append _ _

/-! ### From offsets to lines and columns -/

theorem locate_append {near far : List Nat} (hnear : ∀ s ∈ near, s ≤ offset)
    (hfar : ∀ s ∈ far, offset < s) (line start : Nat) :
    locate offset line start (near ++ far) =
      ⟨line + near.length, offset - near.getLastD start⟩ := by
  induction near generalizing line start with
  | nil =>
    cases far with
    | nil => rfl
    | cons next far => exact if_neg (Nat.not_le.2 (hfar next List.mem_cons_self))
  | cons next near ih =>
    obtain ⟨hnext, hnear⟩ := List.forall_mem_cons.1 hnear
    rw [List.cons_append, locate, if_pos hnext, ih hnear, List.getLastD_cons, List.length_cons,
      Nat.add_right_comm, Nat.add_assoc]

/-- the line counts the newlines before the offset, and the column the bytes after the last -/
theorem position_eq (text : String) (offset : Nat) :
    let bytes := encode text.toList
    let clamped := min offset bytes.length
    (ofText text).position offset =
      ⟨(breaks bytes clamped).length, clamped - (breaks bytes clamped).getLastD 0⟩ := by
  intro bytes clamped
  obtain ⟨far, hsplit, hfar⟩ := breaks_append bytes (Nat.min_le_right offset bytes.length)
  rw [position, width_ofText, starts_ofText, List.tail_cons, hsplit,
    locate_append (fun _ => le_of_mem_breaks) hfar, Nat.zero_add]

/-- the last line that starts before an offset is the one at the place of their number -/
theorem starts_getElem?_breaks (text : String) (h : offset ≤ (encode text.toList).length) :
    let near := breaks (encode text.toList) offset
    (ofText text).starts[near.length]? = some (near.getLastD 0) := by
  intro near
  obtain ⟨far, hsplit, -⟩ := breaks_append (encode text.toList) h
  have hlength : (0 :: near).length - 1 = near.length := rfl
  rw [starts_ofText, hsplit, ← List.cons_append,
    List.getElem?_append_left (Nat.lt_succ_self near.length), ← hlength,
    ← List.getLast?_eq_getElem?, List.getLast?_cons, List.getLastD_eq_getLast?]

theorem offset?_position (text : String) (h : (encode text.toList).length < UInt32.size)
    (offset : Nat) :
    (ofText text).offset? ((ofText text).position offset) =
      some (min offset (encode text.toList).length) := by
  have hle := Nat.min_le_right offset (encode text.toList).length
  have hstart := getLastD_breaks_le (encode text.toList) (min offset (encode text.toList).length)
  rw [position_eq, offset?, starts_getElem?_breaks text hle]
  dsimp only
  rw [Nat.add_sub_of_le hstart, width_ofText, Nat.min_eq_left hle, if_pos]
  exact Nat.le_sub_one_of_lt (Nat.lt_of_le_of_lt hle h)

/-- where one offset is before another, its line is, or its column in the same line -/
theorem position_lt (text : String) {near far : Nat} (hlt : near < far)
    (hfar : far ≤ (encode text.toList).length) :
    let p := (ofText text).position near
    let q := (ofText text).position far
    p.line < q.line ∨ p.line = q.line ∧ p.column < q.column := by
  intro p q
  have hp : p = _ := position_eq text near
  have hq : q = _ := position_eq text far
  rw [Nat.min_eq_left (hlt.le.trans hfar)] at hp
  rw [Nat.min_eq_left hfar] at hq
  obtain ⟨more, hmore⟩ := breaks_prefix (encode text.toList) hlt.le
  rw [hp, hq, ← hmore]
  cases more with
  | nil =>
    rw [List.append_nil]
    have hle := getLastD_breaks_le (encode text.toList) near
    exact .inr ⟨rfl, by dsimp only; omega⟩
  | cons s more =>
    left
    dsimp only
    rw [List.length_append, List.length_cons]
    omega

/-- Below 32 bits lines and columns are exact: an offset, cut off at the end of the text, has as many
lines before its own as there are newlines before it, its column counts the bytes since the last of
them, and both give it back.  A greater offset has a greater line, or a greater column in it. -/
theorem position_newlines (text : String) (h : (encode text.toList).length < UInt32.size) :
    let bytes := encode text.toList
    let index := ofText text
    (∀ offset,
      let clamped := min offset bytes.length
      index.position offset =
          ⟨(bytes.take clamped).count newline, clamped - (breaks bytes clamped).getLastD 0⟩ ∧
        index.offset? (index.position offset) = some clamped) ∧
      StrictMonoOn
        (fun offset => toLex ((index.position offset).line, (index.position offset).column))
        (Set.Iic bytes.length) := by
  intro bytes index
  refine ⟨fun offset => ⟨?_, offset?_position text h offset⟩, fun near _ far hfar hlt => ?_⟩
  · rw [← length_breaks]
    exact position_eq text offset
  · exact Prod.Lex.toLex_lt_toLex.2 (position_lt text hlt hfar)

/-- offsets in a longer character, between two newlines and past the end -/
theorem position_newlines_empty_line :
    let index := ofText "é\n\nb"
    (encode "é\n\nb".toList).length < UInt32.size ∧ index.position 1 = ⟨0, 1⟩ ∧
      index.position 3 = ⟨1, 0⟩ ∧ index.position 9 = ⟨2, 1⟩ ∧ index.offset? ⟨1, 0⟩ = some 3 := by
  intro index
  have h : (encode "é\n\nb".toList).length < UInt32.size := by decide
  obtain ⟨hposition, -⟩ := position_newlines "é\n\nb" h
  have hback := (hposition 3).2
  rw [(hposition 3).1] at hback
  exact ⟨h, (hposition 1).1.trans (by decide), (hposition 3).1.trans (by decide),
    (hposition 9).1.trans (by decide), hback⟩

/-! ### Searching the starts -/

/-- the line that a search for an offset among the starts finds: the place of the offset if it
stands there, and else the place before the one where it would be put in -/
inductive LineFound (starts : List Nat) (offset line : Nat) : Prop
  | hit (at_line : starts[line]? = some offset)
  | miss (inside : line < starts.length) (before : ∀ s ∈ starts.take (line + 1), s < offset)
      (after : ∀ s ∈ starts.drop (line + 1), offset < s)

theorem lineFound_append {init far : List Nat} {last : Nat} (hinit : ∀ s ∈ init, s < last)
    (hlast : last ≤ offset) (hfar : ∀ s ∈ far, offset < s) :
    LineFound (init ++ last :: far) offset line ↔ line = init.length := by
  -- a start behind the last one before the offset is not before the offset
  have hbehind : ∀ s, init.length < line → (init ++ last :: far)[line]? = some s → offset < s := by
    intro s hlt hs
    rw [List.getElem?_append_right hlt.le, List.getElem?_cons, if_neg (by omega)] at hs
    exact hfar s (List.mem_of_getElem? hs)
  constructor
  · rintro (hs | ⟨hinside, hbefore, hafter⟩)
    · rcases Nat.lt_trichotomy line init.length with hlt | heq | hlt
      · rw [List.getElem?_append_left hlt] at hs
        have := hinit offset (List.mem_of_getElem? hs)
        omega
      · exact heq
      · exact absurd (hbehind offset hlt hs) (Nat.lt_irrefl offset)
    · rcases Nat.lt_trichotomy line init.length with hlt | heq | hlt
      · have := hafter last (by rw [List.drop_append_of_le_length hlt]; simp)
        omega
      · exact heq
      · have hs := List.getElem?_eq_getElem hinside
        have := hbefore _ (List.mem_of_getElem? ((List.getElem?_take_of_succ).trans hs))
        have := hbehind _ hlt hs
        omega
  · rintro rfl
    rcases Nat.lt_or_eq_of_le hlast with hlt | rfl
    · refine .miss (by simp) (fun s hs => ?_) (fun s hs => ?_)
      · rw [List.append_cons, List.take_left' (by simp), List.mem_append] at hs
        rcases hs with hs | hs
        · exact (hinit s hs).trans hlt
        · exact (List.mem_singleton.1 hs).trans_lt hlt
      · rw [List.append_cons, List.drop_left' (by simp)] at hs
        exact hfar s hs
    · exact .hit (by simp)

/-- an offset parts the starts: the last one at or before it has as many before it as there are
newlines before the offset -/
theorem exists_starts_split (text : String) (h : offset ≤ (encode text.toList).length) :
    ∃ init last far, (ofText text).starts = init ++ last :: far ∧ (∀ s ∈ init, s < last) ∧
      last ≤ offset ∧ (∀ s ∈ far, offset < s) ∧
      init.length = (breaks (encode text.toList) offset).length := by
  obtain ⟨far, hsplit, hfar⟩ := breaks_append (encode text.toList) h
  obtain ⟨init, last, hnear⟩ :=
    List.eq_nil_or_concat' (0 :: breaks (encode text.toList) offset) |>.resolve_left (by simp)
  have hsorted : (0 :: breaks (encode text.toList) offset).Pairwise (· < ·) :=
    List.pairwise_cons.2 ⟨fun s hs => List.ge_of_mem_idxsOf s hs, List.pairwise_idxsOf⟩
  have hmem : last ∈ 0 :: breaks (encode text.toList) offset := by rw [hnear]; simp
  have hlength := congrArg List.length hnear
  rw [hnear] at hsorted
  refine ⟨init, last, far, ?_, fun s hs => ?_, ?_, hfar, by simpa using hlength.symm⟩
  · rw [starts_ofText, hsplit, ← List.cons_append, hnear, ← List.append_cons]
  · exact (List.pairwise_append.1 hsorted).2.2 s hs last List.mem_cons_self
  · rcases List.mem_cons.1 hmem with rfl | hmem
    · exact Nat.zero_le _
    · exact le_of_mem_breaks hmem

/-- the line of an offset is the only one that a search of the starts finds -/
theorem lineFound_iff (text : String) (offset : Nat) :
    let index := ofText text
    LineFound index.starts (min offset index.width) line ↔ line = (index.position offset).line := by
  intro index
  have hle : min offset index.width ≤ (encode text.toList).length :=
    width_ofText text ▸ Nat.min_le_right offset _
  obtain ⟨init, last, far, hstarts, hinit, hlast, hfar, hlength⟩ := exists_starts_split text hle
  rw [hstarts, position_eq, lineFound_append hinit hlast hfar, hlength, ← width_ofText]

/-! ### From lines and columns to offsets -/

/-- where a line starts: at the front, or just after so many newlines -/
def lineStart (bytes : List UInt8) : Nat → Nat
  | 0 => 0
  | line + 1 => bytes.idxOfNth newline line + 1

theorem starts_getElem? (text : String) (line : Nat) :
    let bytes := encode text.toList
    (ofText text).starts[line]? =
      if line ≤ bytes.count newline then some (lineStart bytes line) else none := by
  intro bytes
  rw [starts_ofText]
  cases line with
  | zero => rfl
  | succ line =>
    have hlength : (bytes.idxsOf newline 1).length = bytes.count newline := List.length_idxsOf
    rw [List.getElem?_cons_succ]
    split
    · next hle =>
      rw [List.getElem?_eq_getElem (hlength ▸ hle), List.getElem_idxOf_eq_idxOfNth_add]
      rfl
    · next hle => exact List.getElem?_eq_none (hlength ▸ Nat.le_of_not_lt hle)

/-- the offset of a column of a line, the end of the text where they lie behind it -/
def clampedOffset (bytes : List UInt8) (p : Position) : Nat :=
  if p.line ≤ bytes.count newline then min (lineStart bytes p.line + p.column) bytes.length
  else bytes.length

/-- the line is there, and its start and the column add up to more than an offset can hold -/
def Overflows (bytes : List UInt8) (p : Position) : Prop :=
  p.line ≤ bytes.count newline ∧ UInt32.size ≤ lineStart bytes p.line + p.column

instance (bytes : List UInt8) (p : Position) : Decidable (Overflows bytes p) :=
  inferInstanceAs (Decidable (_ ∧ _))

theorem offset?_eq (text : String) (p : Position) :
    let bytes := encode text.toList
    (ofText text).offset? p =
      if Overflows bytes p then none else some (clampedOffset bytes p) := by
  intro bytes
  have hfits : ∀ n, n ≤ maxOffset ↔ ¬UInt32.size ≤ n := fun n =>
    (Nat.le_sub_one_iff_lt (by decide)).trans Nat.not_le.symm
  rw [offset?, starts_getElem?, width_ofText]
  by_cases hline : p.line ≤ bytes.count newline
  · simp only [bytes, Overflows, clampedOffset, hline, true_and, if_true, hfits, ite_not]
  · simp only [bytes, Overflows, clampedOffset, hline, false_and, if_false]

theorem Overflows.mono {near far : Nat} (hle : near ≤ far) (h : Overflows bytes ⟨line, near⟩) :
    Overflows bytes ⟨line, far⟩ := ⟨h.1, h.2.trans (Nat.add_le_add_left hle _)⟩

theorem clampedOffset_mono {near far : Nat} (hle : near ≤ far) :
    clampedOffset bytes ⟨line, near⟩ ≤ clampedOffset bytes ⟨line, far⟩ := by
  unfold clampedOffset
  split
  · dsimp only
    omega
  · exact Nat.le_refl _

/-- only the first line starts so early that no column of 32 bits is too great -/
theorem exists_overflows_iff :
    (∃ column < UInt32.size, Overflows bytes ⟨line, column⟩) ↔
      0 < line ∧ line ≤ bytes.count newline := by
  constructor
  · rintro ⟨column, hcolumn, hline, hsum⟩
    refine ⟨Nat.pos_of_ne_zero ?_, hline⟩
    rintro rfl
    rw [lineStart, Nat.zero_add] at hsum
    exact absurd hcolumn (Nat.not_lt.2 hsum)
  · rintro ⟨hpos, hline⟩
    obtain ⟨line, rfl⟩ := Nat.exists_eq_succ_of_ne_zero hpos.ne'
    refine ⟨UInt32.size - 1, by decide, hline, ?_⟩
    show UInt32.size ≤ bytes.idxOfNth newline line + 1 + (UInt32.size - 1)
    omega

/-- A line and a column stand for the start of the line and the column after it, at most for the end
of the text, and for the end where there is no such line, unless the sum exceeds 32 bits, where
there is no offset.  So on each line a smaller column has an offset that is no greater.  Columns of
32 bits that exceed are on every line but the first. -/
theorem offset?_clamped (text : String) :
    let bytes := encode text.toList
    let index := ofText text
    (∀ p, index.offset? p = if Overflows bytes p then none else some (clampedOffset bytes p)) ∧
    (∀ line near far, near ≤ far → ∀ last ∈ index.offset? ⟨line, far⟩,
      ∃ first ∈ index.offset? ⟨line, near⟩, first ≤ last) ∧
    (∀ line, (∃ column < UInt32.size, index.offset? ⟨line, column⟩ = none) ↔
      0 < line ∧ line ≤ bytes.count newline) := by
  intro bytes index
  have hoffset : ∀ p, index.offset? p = _ := offset?_eq text
  refine ⟨hoffset, fun line near far hle last hlast => ?_, fun line => ?_⟩
  · rw [Option.mem_def, hoffset] at hlast
    split at hlast
    · cases hlast
    · next hfits =>
      obtain rfl := Option.some.inj hlast
      refine ⟨_, ?_, clampedOffset_mono hle⟩
      rw [Option.mem_def, hoffset, if_neg fun h => hfits (h.mono hle)]
  · rw [← exists_overflows_iff]
    simp only [hoffset, ite_eq_left_iff, reduceCtorEq, imp_false, not_not]
    rfl

/-- behind the start of a second line the greatest column of 32 bits has no offset -/
theorem offset?_unclamped :
    let p : Position := ⟨1, UInt32.size - 1⟩
    (ofText "a\nb").offset? p = none ∧ clampedOffset (encode "a\nb".toList) p = 3 := by
  decide

end LineIndex
end ProjectSense
