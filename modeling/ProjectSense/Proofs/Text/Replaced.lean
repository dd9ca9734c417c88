import Mathlib.Data.List.Infix

/-!
# Written forms replaced

A text is read from left to right.  Where a written form stands, what it stands for takes its place;
everything else is copied, and what was put in is not read again.

* `Text.Replaced`: a text, and what reading it gives.
* `Text.Replaced.unique`: reading gives one result where a mark begins every form.
* `Text.Replaced.without`: forms that do not stand in the text make no difference.
* `Text.Replaced.countP_le`: forms that do give less.
-/

namespace ProjectSense.Text

variable {α : Type} {form extra : List α → α → Prop} {mark a b : α} {v w text out out' : List α}

/-- reading the text with every written form replaced gives `out` -/
inductive Replaced (form : List α → α → Prop) : List α → List α → Prop
  | nil : Replaced form [] []
  | replace {w text out : List α} {a : α} (h : form w a) (hrest : Replaced form text out) :
    Replaced form (w ++ text) (a :: out)
  | copy {a : α} {text out : List α} (h : ∀ w b, form w b → ¬w <+: a :: text)
    (hrest : Replaced form text out) : Replaced form (a :: text) (a :: out)

/-- a mark begins every form and stands nowhere else in it, and no form begins with another -/
structure Marked (mark : α) (form : List α → α → Prop) : Prop where
  shape : ∀ {w a}, form w a → ∃ tail, w = mark :: tail ∧ mark ∉ tail
  unique : ∀ {v b w a}, form v b → form w a → v <+: w → v = w ∧ b = a

/-- the forms of one kind or the other -/
def Either (form extra : List α → α → Prop) (w : List α) (a : α) : Prop := form w a ∨ extra w a

/-! ### Forms at a place -/

/-- no form begins but at a mark -/
theorem Marked.not_prefix (hm : Marked mark form) (ha : mark ≠ a) (text : List α) :
    ∀ w b, form w b → ¬w <+: a :: text := by
  intro w b hw hpre
  obtain ⟨tail, rfl, -⟩ := hm.shape hw
  exact ha (List.cons_prefix_cons.1 hpre).1

/-- a text begins with one form at most -/
theorem Marked.eq_of_prefix (hm : Marked mark form) (hv : form v b) (hw : form w a)
    (h : v <+: w ++ text) : v = w ∧ b = a := by
  rcases List.prefix_or_prefix_of_prefix h (List.prefix_append w text) with hpre | hpre
  · exact hm.unique hv hw hpre
  · exact (hm.unique hw hv hpre).imp Eq.symm Eq.symm

/-- what begins with a mark stands behind a part without marks -/
theorem infix_of_mark {front : List α} (hfront : mark ∉ front)
    (h : mark :: v <:+: front ++ text) : mark :: v <:+: text := by
  induction front with
  | nil => exact h
  | cons a front ih =>
    rw [List.mem_cons, not_or] at hfront
    rcases List.infix_cons_iff.1 h with hpre | hin
    · exact absurd (List.cons_prefix_cons.1 hpre).1 hfront.1
    · exact ih hfront.2 hin

/-- a form in a text that begins with one is that one or stands behind it -/
theorem Marked.infix_cases (hm : Marked mark form) (hv : form v b) (hw : form w a)
    (h : v <:+: w ++ text) : (v = w ∧ b = a) ∨ v <:+: text := by
  obtain ⟨tail, rfl, htail⟩ := hm.shape hw
  obtain ⟨tail', rfl, -⟩ := hm.shape hv
  rcases List.infix_cons_iff.1 h with hpre | hin
  · exact .inl (hm.eq_of_prefix hv hw hpre)
  · exact .inr (infix_of_mark htail hin)

/-! ### What reading gives -/

theorem Replaced.of_nil (hm : Marked mark form) (h : Replaced form [] out) : out = [] := by
  generalize hs : [] = s at h
  cases h with
  | nil => rfl
  | replace hw hrest =>
    obtain ⟨tail, rfl, -⟩ := hm.shape hw
    cases hs
  | copy => cases hs

theorem Replaced.of_form (hm : Marked mark form) (h : Replaced form (w ++ text) out)
    (hw : form w a) : ∃ more, out = a :: more ∧ Replaced form text more := by
  generalize hs : w ++ text = s at h
  cases h with
  | nil =>
    obtain ⟨tail, rfl, -⟩ := hm.shape hw
    cases hs
  | @replace v text' more b hv hrest =>
    obtain ⟨rfl, rfl⟩ := hm.eq_of_prefix hv hw (hs ▸ List.prefix_append v text')
    obtain rfl := List.append_cancel_left hs
    exact ⟨more, rfl, hrest⟩
  | copy hnot hrest => exact absurd (hs ▸ List.prefix_append w text) (hnot w a hw)

theorem Replaced.of_copy (h : Replaced form (a :: text) out)
    (hnot : ∀ w b, form w b → ¬w <+: a :: text) :
    ∃ more, out = a :: more ∧ Replaced form text more := by
  generalize hs : a :: text = s at h
  cases h with
  | nil => cases hs
  | replace hw hrest => exact absurd (hs ▸ List.prefix_append _ _) (hnot _ _ hw)
  | copy hnot' hrest =>
    cases hs
    exact ⟨_, rfl, hrest⟩

/-- a part without marks is copied -/
theorem Replaced.of_plain (hm : Marked mark form) {front : List α} (hfront : mark ∉ front)
    (h : Replaced form (front ++ text) out) :
    ∃ more, out = front ++ more ∧ Replaced form text more := by
  induction front generalizing out with
  | nil => exact ⟨out, rfl, h⟩
  | cons a front ih =>
    rw [List.mem_cons, not_or] at hfront
    obtain ⟨more, rfl, hrest⟩ := h.of_copy (hm.not_prefix hfront.1 _)
    obtain ⟨more, rfl, hmore⟩ := ih hfront.2 hrest
    exact ⟨more, rfl, hmore⟩

/-- a text gives one result -/
theorem Replaced.unique (hm : Marked mark form) (h : Replaced form text out)
    (h' : Replaced form text out') : out' = out := by
  induction h generalizing out' with
  | nil => exact h'.of_nil hm
  | replace hw hrest ih =>
    obtain ⟨more, rfl, hmore⟩ := h'.of_form hm hw
    rw [ih hmore]
  | copy hnot hrest ih =>
    obtain ⟨more, rfl, hmore⟩ := h'.of_copy hnot
    rw [ih hmore]

theorem Replaced.iff_eq (hm : Marked mark form) (h : Replaced form text out) :
    Replaced form text out' ↔ out' = out :=
  ⟨h.unique hm, fun heq => heq ▸ h⟩

/-- a text without forms is copied -/
theorem Replaced.self (hnot : ∀ w a, form w a → ¬w <:+: text) : Replaced form text text := by
  induction text with
  | nil => exact .nil
  | cons a text ih =>
    refine .copy (fun w b hw hpre => hnot w b hw hpre.isInfix) (ih fun w b hw hin => ?_)
    exact hnot w b hw (hin.trans (List.suffix_cons a text).isInfix)

/-! ### More forms -/

theorem Marked.left (hm : Marked mark (Either form extra)) : Marked mark form where
  shape h := hm.shape (.inl h)
  unique h h' := hm.unique (.inl h) (.inl h')

/-- where no extra form stands, reading with them gives what reading without them gives -/
theorem Replaced.without (h : Replaced (Either form extra) text out)
    (hnot : ∀ w a, extra w a → ¬w <:+: text) : Replaced form text out := by
  induction h with
  | nil => exact .nil
  | @replace w text out a hw hrest ih =>
    have htext : ∀ v b, extra v b → ¬v <:+: text := fun v b hv hin =>
      hnot v b hv (hin.trans (List.suffix_append w text).isInfix)
    rcases hw with hw | hw
    · exact .replace hw (ih htext)
    · exact absurd (List.prefix_append w text).isInfix (hnot w a hw)
  | @copy a text out h hrest ih =>
    refine .copy (fun w b hw => h w b (.inl hw)) (ih fun w b hw hin => ?_)
    exact hnot w b hw (hin.trans (List.suffix_cons a text).isInfix)

/-- Let every extra form be longer than what it stands for, if only `p` counts.  Reading with them
gives no more than reading without them, and less where one of them stands in the text. -/
theorem Replaced.countP_le {p : α → Bool} (hm : Marked mark (Either form extra))
    (hapart : ∀ {w a}, extra w a → ¬form w a)
    (hp : ∀ {w a}, extra w a → [a].countP p < w.countP p)
    (h : Replaced (Either form extra) text out) (h' : Replaced form text out') :
    out.countP p ≤ out'.countP p ∧
      ∀ w a, extra w a → w <:+: text → out.countP p < out'.countP p := by
  induction h generalizing out' with
  | nil =>
    refine ⟨Nat.zero_le _, fun w a hw hin => ?_⟩
    obtain ⟨tail, rfl, -⟩ := hm.shape (.inr hw)
    cases List.infix_nil.1 hin
  | @replace w text out a hw hrest ih =>
    rcases hw with hw | hw
    · obtain ⟨more, rfl, hmore⟩ := h'.of_form hm.left hw
      obtain ⟨hle, hlt⟩ := ih hmore
      rw [List.countP_cons, List.countP_cons]
      refine ⟨by omega, fun v b hv hin => ?_⟩
      rcases hm.infix_cases (.inr hv) (.inl hw) hin with ⟨rfl, rfl⟩ | hin
      · exact absurd hw (hapart hv)
      · have := hlt v b hv hin
        omega
    · -- without the extra forms all of it is copied
      obtain ⟨tail, rfl, htail⟩ := hm.shape (.inr hw)
      have hnot : ∀ v b, form v b → ¬v <+: mark :: (tail ++ text) := by
        intro v b hv hpre
        obtain ⟨rfl, rfl⟩ := hm.eq_of_prefix (.inl hv) (.inr hw) hpre
        exact hapart hw hv
      rw [List.cons_append] at h'
      obtain ⟨copied, rfl, hcopied⟩ := h'.of_copy hnot
      obtain ⟨more, rfl, hmore⟩ := hcopied.of_plain hm.left htail
      have hle := (ih hmore).1
      have hcount := hp hw
      have hlt : (a :: out).countP p < (mark :: (tail ++ more)).countP p := by
        rw [← List.singleton_append, ← List.cons_append, List.countP_append, List.countP_append]
        omega
      exact ⟨hlt.le, fun _ _ _ _ => hlt⟩
  | @copy a text out hnot hrest ih =>
    obtain ⟨more, rfl, hmore⟩ := h'.of_copy fun w b hw => hnot w b (.inl hw)
    obtain ⟨hle, hlt⟩ := ih hmore
    rw [List.countP_cons, List.countP_cons]
    refine ⟨by omega, fun w b hw hin => ?_⟩
    rcases List.infix_cons_iff.1 hin with hpre | hin
    · exact absurd hpre (hnot w b (.inr hw))
    · have := hlt w b hw hin
      omega

end ProjectSense.Text
