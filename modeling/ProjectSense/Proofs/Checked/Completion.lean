import ProjectSense.Completion.Basic
import ProjectSense.Proofs.Checked.Document
import ProjectSense.Proofs.Checked.Resolve
import ProjectSense.Proofs.Completion.Present
import ProjectSense.Proofs.Expr.Words
import ProjectSense.Proofs.Text.Break

/-!
# Completing at offsets

What can be written at an offset, found once more by steps that can fail: the text before the offset
is cut at the last whole character, and the folder that is typed after the last separator.  In a
document of a short text no step fails, at whatever offset.

* `Checked.fileCandidates?_eq`: the entries of the directories that an expression stands for.
* `Checked.typed?_eq`, `Checked.typedFolder?_eq`: what was typed before an offset.
* `Checked.candidates?_eq`: the candidates at an offset.
* `Checked.queries_succeed`: no query on a short text can fail.
-/

namespace ProjectSense.Checked

open Text (width takeWidth dropWidth)

/-! ### Paths -/

/-- the template of a part; text loses its last `n` characters -/
def templateOf? (n : Nat) : Expr → Option (Option (List Char))
  | .text _ raw => do
    let value ← unescape? raw
    (dropLast? n value.toList).map some
  | part => some (PathSource.templateOf? n part)

/-- the template of the parts of a concatenation, the last of which loses `n` characters -/
def templateOfParts? (n : Nat) : List Expr → Option (Option (List Char))
  | [] => some (some [])
  | [last] => templateOf? n last
  | part :: parts => do
    match ← templateOf? 0 part with
    | none => some none
    | some front => (templateOfParts? n parts).map fun back => back.map (front ++ ·)

/-- what the end of an expression stands for, seen from a directory and without its last `n`
characters -/
def pathSource? (base : List Char) (n : Nat) : Option Expr → Option PathSource
  | none => some (.path base)
  | some e =>
    match e.lastEntry with
    | .text _ raw => do
      let value ← unescape? raw
      match ← dropLast? n value.toList with
      | [] => some (.path base)
      | typed => (place? typed base).map fun place => place.elim .nothing .path
    | .concat _ parts => (templateOfParts? n parts).map fun t => t.elim .nothing .template
    | _ => some .nothing

/-- all paths that a template stands for, seen from a directory -/
def templatePaths? (values : Values) (template base : List Char) : Option (List String) := do
  let parts ← template? template
  let texts := (values.odometer (Values.namesIn parts)).combinations.map (·.instantiate parts)
  let places ← texts.mapM fun text => place? text base
  some ((places.filterMap id).map String.ofList)

/-- the paths that an expression stands for, seen from a directory -/
def pathsOf? (d : Document) (e : Option Expr) (n : Nat) (base : Option String) :
    Option (List String) := do
  let base := (base.getD d.directory).toList
  match ← pathSource? base n e with
  | .nothing => some []
  | .path p => some [String.ofList p]
  | .template t => templatePaths? d.values t base

/-- the entries to offer for a path -/
def fileCandidates? (d : Document) (kind : ValueKind) (typed : Option Expr) (length : Nat)
    (s : Option Site) (config : CompletionConfig) (cancelled : Bool) :
    Option (Option (List Descriptor)) :=
  match Document.offersFiles? kind with
  | none => some none
  | some files => do
    match ← pathsOf? d typed (length + 1) (s >>= d.sdkFolder?) with
    | [] => some none
    | dirs => some (some (directoryCandidates d.listing files config.parentFolder cancelled dirs))

theorem templateOf?_eq (n : Nat) (part : Expr) :
    templateOf? n part = some (PathSource.templateOf? n part) := by
  cases part with
  | text span raw =>
    rw [templateOf?, unescape?_eq, PathSource.templateOf?]
    simp only [dropLast?_eq, Option.bind_eq_bind, Option.bind_some, Option.map_some]
  | property | item | metadata | call | concat | list => rfl

theorem templateOfParts?_eq (n : Nat) (parts : List Expr) :
    templateOfParts? n parts = some (PathSource.templateOfParts? n parts) := by
  fun_induction PathSource.templateOfParts? n parts with
  | case1 => rfl
  | case2 last => exact templateOf?_eq n last
  | case3 part parts hne ih =>
    rw [templateOfParts?, templateOf?_eq, ih]
    · cases PathSource.templateOf? 0 part with
      | none => rfl
      | some front => cases PathSource.templateOfParts? n parts <;> rfl
    · exact hne

theorem pathSource?_eq (base : List Char) (n : Nat) (e : Option Expr) :
    pathSource? base n e = some (PathSource.ofExpr? base n e) := by
  cases e with
  | none => rfl
  | some e =>
    simp only [pathSource?, PathSource.ofExpr?]
    cases e.lastEntry with
    | text span raw =>
      simp only [unescape?_eq, dropLast?_eq, Option.bind_eq_bind, Option.bind_some]
      cases dropLastChars n (unescape raw).toList with
      | nil => rfl
      | cons c typed =>
        simp only [place?_eq, Option.map_some]
        cases Path.resolve? (c :: typed) base <;> rfl
    | concat span parts =>
      simp only [templateOfParts?_eq, Option.map_some]
      cases PathSource.templateOfParts? n parts <;> rfl
    | property | item | metadata | call | list => rfl

theorem templatePaths?_eq (values : Values) (template base : List Char) :
    templatePaths? values template base = some (values.paths template base) := by
  rw [templatePaths?, template?_eq, Values.paths, Values.expansions]
  simp only [mapM_of_eq fun text => place?_eq text base, Option.bind_eq_bind, Option.bind_some,
    List.filterMap_map, List.map_filterMap]
  rfl

theorem pathsOf?_eq (d : Document) (e : Option Expr) (n : Nat) (base : Option String) :
    pathsOf? d e n base = some (d.pathsOf e n base none) := by
  rw [pathsOf?, Document.pathsOf]
  simp only [pathSource?_eq, Option.bind_eq_bind, Option.bind_some]
  cases PathSource.ofExpr? (base.getD d.directory).toList n e with
  | nothing | path => rfl
  | template t => exact templatePaths?_eq d.values t _

theorem fileCandidates?_eq (d : Document) (kind : ValueKind) (typed : Option Expr) (length : Nat)
    (s : Option Site) (config : CompletionConfig) (cancelled : Bool) :
    fileCandidates? d kind typed length s config cancelled =
      some (d.fileCandidates? kind typed length s config cancelled) := by
  rw [fileCandidates?, Document.fileCandidates?]
  cases Document.offersFiles? kind with
  | none => rfl
  | some files =>
    simp only [pathsOf?_eq, Option.bind_eq_bind, Option.bind_some]
    cases d.pathsOf typed (length + 1) (s >>= d.sdkFolder?) none <;> rfl

/-! ### What was typed -/

/-- the last byte up to `n` at which the text can be cut -/
def boundary? (cs : List Char) : Nat → Option Nat
  | 0 => if (cut? 0 cs).isSome then some 0 else none
  | n + 1 => if (cut? (n + 1) cs).isSome then some (n + 1) else boundary? cs n

/-- the part of a text that begins at `start` which stands before an offset -/
def typed? (cs : List Char) (start offset : Nat) : Option (List Char) := do
  let stop ← boundary? cs (min (offset - start) (width cs))
  upto? stop cs

/-- the last entry of what was typed from `start`, up to its last separator -/
def typedFolder? (typed : List Char) (start : Nat) (e : Expr) : Option Expr := do
  let entryStart := e.lastEntry.span.start
  let front ← typed? typed start entryStart
  let tail ← from? (width front) typed
  let folder ← upto? ((rfind Path.isSeparator tail).elim 0 (· + 1)) tail
  parse? (String.ofList folder) entryStart

variable {cs : List Char} {m n : Nat}

/-- the last whole character is the same for both bytes -/
theorem takeWidth_of_le (h : width (takeWidth n cs) ≤ m) (hmn : m ≤ n) :
    takeWidth m cs = takeWidth n cs := by
  induction cs generalizing m n with
  | nil => rfl
  | cons c cs ih =>
    rw [takeWidth, takeWidth]
    rw [takeWidth] at h
    by_cases hn : c.utf8Size ≤ n
    · rw [if_pos hn, Text.width_cons] at h
      have htail : takeWidth (m - c.utf8Size) cs = takeWidth (n - c.utf8Size) cs :=
        ih (by omega) (by omega)
      rw [if_pos hn, if_pos (by omega), htail]
    · rw [if_neg hn, if_neg (by omega)]

theorem boundary?_eq (cs : List Char) (n : Nat) :
    boundary? cs n = some (width (takeWidth n cs)) := by
  by_cases hcut : (cut? n cs).isSome = true
  · obtain ⟨⟨front, back⟩, hcut'⟩ := Option.isSome_iff_exists.1 hcut
    obtain ⟨rfl, rfl⟩ := cut?_eq_some_iff.1 hcut'
    rw [Text.takeWidth_append]
    cases hw : width front <;> rw [boundary?, ← hw, if_pos hcut]
  · -- what is taken does not end at `n`, so less is enough to take it
    have hne : width (takeWidth n cs) ≠ n := by
      intro heq
      have hsome := cut?_append (takeWidth n cs) (dropWidth n cs)
      rw [Text.takeWidth_append_dropWidth, heq] at hsome
      exact hcut (by rw [hsome]; rfl)
    have hle := Text.width_takeWidth_le n cs
    cases n with
    | zero => omega
    | succ n =>
      rw [boundary?, if_neg hcut, boundary?_eq cs n,
        takeWidth_of_le (n := n + 1) (by omega) (Nat.le_succ n)]

theorem typed?_eq (cs : List Char) (start offset : Nat) :
    typed? cs start offset = some (typedBefore cs start offset) := by
  have hparts := Text.takeWidth_append_dropWidth (offset - start) cs
  have hle : width (takeWidth (offset - start) cs) ≤ min (offset - start) (width cs) := by
    have htotal := congrArg width hparts
    rw [Text.width_append] at htotal
    have := Text.width_takeWidth_le (offset - start) cs
    omega
  rw [typed?, boundary?_eq, takeWidth_of_le hle (Nat.min_le_left ..)]
  exact upto?_of_eq hparts.symm rfl

theorem utf8Size_of_isSeparator {c : Char} (h : Path.isSeparator c = true) : c.utf8Size = 1 := by
  simp only [Path.isSeparator, Bool.or_eq_true, beq_iff_eq] at h
  rcases h with rfl | rfl <;> rfl

/-- a text can be cut after its last separator -/
theorem upto?_rfind (cs : List Char) :
    upto? ((rfind Path.isSeparator cs).elim 0 (· + 1)) cs =
      some (Text.uptoLast Path.isSeparator cs) := by
  cases h : rfind Path.isSeparator cs with
  | none =>
    rw [Text.uptoLast_eq_nil (rfind_none h)]
    exact upto?_append [] cs
  | some n =>
    obtain ⟨front, c, back, rfl, hc, rfl, hback⟩ := rfind_some h
    rw [Text.uptoLast_append front hc hback]
    refine upto?_of_eq (List.append_cons ..) ?_
    rw [Text.width_append, Text.width_cons, utf8Size_of_isSeparator hc]
    rfl

theorem parse?_ofList {typed : List Char} {start : Nat}
    (hw : start + width typed < UInt32.size) :
    parse? (String.ofList typed) start = some (Expr.parse (String.ofList typed) start) := by
  refine parse?_eq ?_
  rwa [String.toList_ofList]

theorem typedFolder?_eq {typed : List Char} {start : Nat} {e : Expr}
    (hw : start + width typed < UInt32.size)
    (hb : Text.Boundary start typed e.lastEntry.span.start) :
    typedFolder? typed start e = some (typedFolder typed start e) := by
  obtain ⟨front, ⟨tail, rfl⟩, hstart⟩ := hb
  have hoffset : e.lastEntry.span.start - start = width front := by omega
  have hfront : typedBefore (front ++ tail) start e.lastEntry.span.start = front := by
    rw [typedBefore, hoffset, Text.takeWidth_append]
  have hshort : e.lastEntry.span.start + width (Text.uptoLast Path.isSeparator tail) <
      UInt32.size := by
    have hparts := congrArg width (Text.afterLast_append Path.isSeparator tail)
    rw [Text.width_append] at hparts hw
    omega
  rw [typedFolder?, typedFolder, typed?_eq, hfront, hoffset, Text.dropWidth_append]
  simp only [from?_append, upto?_rfind, Option.bind_eq_bind, Option.bind_some]
  exact parse?_ofList hshort

/-- the last entry of what was typed begins between two characters -/
theorem typedFolder?_parse {typed : List Char} {start : Nat}
    (hw : start + width typed < UInt32.size) :
    typedFolder? typed start (Expr.parse (String.ofList typed) start) =
      some (typedFolder typed start (Expr.parse (String.ofList typed) start)) := by
  have hentry := (Expr.sound_lastEntry (String.ofList typed) start).within.start
  rw [String.toList_ofList] at hentry
  exact typedFolder?_eq hw hentry

/-! ### Candidates -/

/-- the values to offer for a kind: only paths are read once more -/
def valueCandidates? (d : Document) (kind : ValueKind) (s : Option Site) (typed : Option Expr)
    (config : CompletionConfig) (cancelled : Bool) : Option (Option (List Descriptor)) :=
  match simpleValues? kind.asScalar, Document.offersFiles? kind with
  | none, some _ => fileCandidates? d kind typed 0 s config cancelled
  | _, _ => some (d.valueCandidates? kind s typed config cancelled)

/-- the value at a resolution and where it begins -/
def valueText? (d : Document) (found : Resolution) (offset : Nat) :
    Option (Option (String × Nat)) :=
  match found.place with
  | .attributeValue =>
    match d.tree.element? found.site.element, found.site.attr with
    | some e, some a => do
      let a ← e.attributes[a.index]?
      some (a.valueSpan.map fun span => (a.value.getD "", span.start))
    | _, _ => some none
  | .content => do
    match ← textAt? d.tree found.site.element offset with
    | some (raw, span) => some (some (raw, span.start))
    | none => some (some ("", offset))
  | _ => some none

/-- the candidates for a value at an offset -/
def candidatesInValue? (d : Document) (r : Registry) (found : Resolution) (offset : Nat)
    (config : CompletionConfig) (cancelled : Bool) : Option (Option (List Descriptor)) := do
  match ← valueText? d found offset with
  | none => some none
  | some (raw, start) =>
    let typed ← typed? raw.toList start offset
    let e ← parse? (String.ofList typed) start
    match e.findAt offset >>= referenceCandidates? r found.site with
    | some names => some (some names)
    | none =>
      match r.valueAt? found.site with
      | none => some none
      | some value =>
        let kind ← inferredKind? value
        let folder ← typedFolder? typed start e
        valueCandidates? d kind found.site folder config cancelled

/-- the candidates at an offset -/
def candidates? (d : Document) (offset : Nat) (config : CompletionConfig) (cancelled : Bool) :
    Option (Except SchemaError (List Descriptor)) := do
  let r : Registry := { d.registry with cancelled := cancelled }
  match ← resolve? d offset with
  | none => some (elementCandidates r none)
  | some found =>
    match found.place with
    | .elementName =>
      some (elementCandidates r
        (d.tree.parentElement? found.site.element >>= Site.ofElement? d.tree))
    | .tag | .attributeName =>
      some (.ok (attrCandidates r d.tree found.site d.toolsVersion config))
    | .attributeValue | .content =>
      (candidatesInValue? d r found offset config cancelled).map fun values =>
        .ok (values.getD [])
    | .closingTag => some (.ok [])

/-- the items to show at an offset -/
def completions? (d : Document) (offset : Nat) (config : CompletionConfig) (cancelled : Bool) :
    Option (Except SchemaError (List CompletionItem)) :=
  (candidates? d offset config cancelled).map fun found => found.map CompletionItem.present

theorem valueCandidates?_eq (d : Document) (kind : ValueKind) (s : Option Site)
    (typed : Option Expr) (config : CompletionConfig) (cancelled : Bool) :
    valueCandidates? d kind s typed config cancelled =
      some (d.valueCandidates? kind s typed config cancelled) := by
  unfold valueCandidates?
  split
  · next hsimple hfiles =>
    have hbase : d.valueCandidates? kind s typed config cancelled =
        d.fileCandidates? kind typed 0 s config cancelled := by
      rw [Document.valueCandidates?, hsimple]
      unfold Document.offersFiles? at hfiles
      split at hfiles
      case h_6 => cases hfiles
      all_goals next hkind => rw [hkind]
    rw [fileCandidates?_eq, hbase]
  · rfl

variable {d : Document} {text : String} {found : Resolution} {offset : Nat} {raw : String}
  {start : Nat}

/-- the resolution is in the element, and on one of its attributes if on any -/
def InElement (s : Site) (e : Element) (found : Resolution) : Prop :=
  found.site.element = s.element ∧ ∀ a, found.site.attr = some a → a.index < e.attributes.size

theorem inElement_of_none {s : Site} (hs : s.attr = none) (e : Element) (place : Place)
    (ref : Option Reference) (range : Option Span) : InElement s e ⟨s, place, ref, range⟩ := by
  refine ⟨rfl, fun a ha => ?_⟩
  rw [hs] at ha
  cases ha

theorem inElement_resolveInTag {s : Site} (hs : s.attr = none) (e : Element) :
    InElement s e (d.resolveInTag s e offset) := by
  unfold Document.resolveInTag
  split
  · exact inElement_of_none hs e _ _ _
  next index hindex =>
  have hlt : index < e.attributes.size := (Array.findIdx?_eq_some_iff_getElem.1 hindex).1
  split
  · exact inElement_of_none hs e _ _ _
  · simp only
    split <;> exact ⟨rfl, by rintro a ⟨⟩; exact hlt⟩

theorem inElement_resolveIn {s : Site} (hs : s.attr = none) (e : Element) :
    InElement s e (d.resolveIn s e offset) := by
  unfold Document.resolveIn
  split
  · exact inElement_of_none hs e _ _ _
  split
  · exact inElement_resolveInTag hs e
  split <;> exact inElement_of_none hs e _ _ _

/-- the attribute that a resolution is on is one of its element -/
theorem resolve?_index {e : Element} {a : AttributeAt} (hr : d.resolve? offset = some found)
    (he : d.tree.element? found.site.element = some e) (ha : found.site.attr = some a) :
    a.index < e.attributes.size := by
  simp only [Document.resolve?, Option.bind_eq_bind, Option.bind_eq_some_iff] at hr
  obtain ⟨id, -, e', he', s, hs, hr⟩ := hr
  obtain ⟨hid, hattr⟩ : s.element = id ∧ s.attr = none := by
    obtain ⟨name, -, rfl⟩ := Option.map_eq_some_iff.1 hs
    exact ⟨rfl, rfl⟩
  obtain rfl := Option.some.inj hr
  obtain ⟨helement, hindex⟩ : InElement s e' (d.resolveIn s e' offset) :=
    inElement_resolveIn hattr e'
  rw [helement, hid] at he
  obtain rfl : e' = e := Option.some.inj (he'.symm.trans he)
  exact hindex a ha

theorem valueText?_eq (hr : d.resolve? offset = some found) :
    valueText? d found offset = some (d.valueText? found offset) := by
  unfold valueText? Document.valueText?
  cases found.place with
  | attributeValue =>
    simp only
    cases he : d.tree.element? found.site.element with
    | none => rfl
    | some e =>
      cases ha : found.site.attr with
      | none => rfl
      | some a =>
        have hlt := resolve?_index hr he ha
        simp only [Array.getElem?_eq_getElem hlt, Option.bind_eq_bind, Option.bind_some]
        cases e.attributes[a.index].valueSpan <;> rfl
  | content =>
    simp only [textAt?_eq, Option.bind_eq_bind, Option.bind_some]
    cases d.tree.textAt? found.site.element offset <;> rfl
  | elementName | attributeName | tag | closingTag => rfl

/-- a value in a short text ends at an offset of 32 bits -/
theorem valueText?_short (hw : width text.toList < UInt32.size) (ht : d.tree = Tree.parse text)
    (ho : offset < UInt32.size) (h : d.valueText? found offset = some (raw, start)) :
    start + width raw.toList < UInt32.size := by
  unfold Document.valueText? at h
  split at h
  · simp only [Option.bind_eq_bind, Option.bind_eq_some_iff] at h
    obtain ⟨e, he, a, ha, a', ha', span, hspan, h⟩ := h
    obtain ⟨rfl, rfl⟩ := Prod.mk.inj (Option.some.inj h)
    obtain ⟨-, outer, hsound⟩ := Document.parted_of_parse ht he
    have hmem : a' ∈ e.attributes.toList := List.mem_of_getElem? (Array.getElem?_toList.trans ha')
    have hattr := (hsound.attributes a' hmem).1
    -- an attribute with the span of a value has the value
    obtain ⟨raw, hraw⟩ : ∃ raw, a'.value = some raw := by
      rw [← Option.isSome_iff_exists, hattr.isSome_eq, hspan]
      rfl
    rw [hraw]
    exact short_of_holds hw (hattr.value raw span hraw hspan).1
  · split at h
    · next raw' span htext =>
      obtain ⟨rfl, rfl⟩ := Prod.mk.inj (Option.some.inj h)
      obtain ⟨child, -, n, hn, hraw, rfl⟩ := Tree.textAt?_some htext
      rw [ht] at hn
      exact short_of_holds hw ((Tree.sound_parse hn).text raw' hraw)
    · obtain ⟨rfl, rfl⟩ := Prod.mk.inj (Option.some.inj h)
      exact ho
  · cases h

/-- what stands before an offset is no longer than the whole -/
theorem width_typedBefore_le (cs : List Char) (start offset : Nat) :
    width (typedBefore cs start offset) ≤ width cs := by
  have hparts := congrArg width (Text.takeWidth_append_dropWidth (offset - start) cs)
  rw [Text.width_append] at hparts
  rw [typedBefore]
  omega

theorem candidatesInValue?_eq (hw : width text.toList < UInt32.size)
    (ht : d.tree = Tree.parse text) (ho : offset < UInt32.size)
    (hr : d.resolve? offset = some found) (r : Registry) (config : CompletionConfig)
    (cancelled : Bool) : candidatesInValue? d r found offset config cancelled =
      some (d.candidatesInValue? r found offset config cancelled) := by
  rw [candidatesInValue?, Document.candidatesInValue?, valueText?_eq hr]
  cases htext : d.valueText? found offset with
  | none => rfl
  | some value =>
    obtain ⟨raw, start⟩ := value
    have hshort := valueText?_short hw ht ho htext
    have htyped : start + width (typedBefore raw.toList start offset) < UInt32.size := by
      have := width_typedBefore_le raw.toList start offset
      omega
    have hparse := parse?_ofList htyped
    have hfolder := typedFolder?_parse htyped
    simp only [typed?_eq, hparse, hfolder, inferredKind?_eq, valueCandidates?_eq,
      Option.bind_eq_bind, Option.bind_some]
    generalize typedBefore raw.toList start offset = typed
    cases ((Expr.parse (String.ofList typed) start).findAt offset).bind
      (referenceCandidates? r found.site) with
    | some names => rfl
    | none => cases r.valueAt? found.site <;> rfl

theorem candidates?_eq (hw : width text.toList < UInt32.size) (ht : d.tree = Tree.parse text)
    (ho : offset < UInt32.size) (config : CompletionConfig) (cancelled : Bool) :
    candidates? d offset config cancelled = some (d.candidates offset config cancelled) := by
  rw [candidates?, Document.candidates, resolve?_eq hw ht]
  cases hr : d.resolve? offset with
  | none => rfl
  | some found =>
    simp only [candidatesInValue?_eq hw ht ho hr, Option.bind_eq_bind, Option.bind_some,
      Option.map_some]
    cases found.place <;> rfl

/-- no query on a short text can fail, whatever the text, the schemas and surroundings that it is
read with, and the offset; and there is always a list of completions -/
theorem queries_succeed {text : String} (hw : width text.toList < UInt32.size) (path : String) :
    document? path text =
      some (Document.parse path text, (Document.parse path text).harvest.frameworks) ∧
    ∀ d : Document, d.tree = (Document.parse path text).tree → ∀ offset < UInt32.size,
      resolve? d offset = some (d.resolve? offset) ∧
      (∀ policy found, d.resolve? offset = some found →
        declaration? d policy found = some (d.declaration? policy found)) ∧
      ∀ config cancelled, ∃ items, d.completions offset config cancelled = .ok items ∧
        completions? d offset config cancelled = some (.ok items) := by
  refine ⟨document?_eq hw path, fun d ht offset ho => ⟨resolve?_eq hw ht offset, ?_, ?_⟩⟩
  · exact fun policy found _ => declaration?_eq d policy found
  · intro config cancelled
    obtain ⟨found, hfound⟩ := d.exists_candidates offset config cancelled
    refine ⟨CompletionItem.present found, ?_, ?_⟩
    · rw [Document.completions, hfound]
      rfl
    · rw [completions?, candidates?_eq hw ht ho, hfound]
      rfl

/-- an offset inside a character of a value that never ends, and one far behind the text -/
theorem queries_succeed_inside :
    let text := "<Project><Import Project=\"b\u00e9\\$(Conf"
    let schema : Schema := { Harvest.empty.schema with configurations := ["Debug"] }
    let d := Document.build { Document.parse "/a.proj" text with schemas := [schema] }
    width text.toList = 36 ∧ document? "/a.proj" text ≠ none ∧
      ∀ offset ∈ [28, 4000000000], resolve? d offset = some (d.resolve? offset) ∧
        ∃ items, completions? d offset {} false = some (.ok items) := by
  intro text schema d
  have hw : width text.toList = 36 := by decide +kernel
  obtain ⟨hdocument, hqueries⟩ := @queries_succeed text (by rw [hw]; decide) "/a.proj"
  refine ⟨hw, by rw [hdocument]; exact Option.some_ne_none _, fun offset hoffset => ?_⟩
  have ho : offset < UInt32.size := by
    revert offset
    decide
  obtain ⟨hresolve, -, hcompletions⟩ := hqueries d rfl offset ho
  obtain ⟨items, -, hitems⟩ := hcompletions {} false
  exact ⟨hresolve, items, hitems⟩

end ProjectSense.Checked
