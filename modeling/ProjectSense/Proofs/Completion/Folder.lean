import ProjectSense.Proofs.Completion.Cancelled
import ProjectSense.Proofs.Completion.Open
import ProjectSense.Proofs.Expr.Escape
import ProjectSense.Proofs.Expr.Last
import ProjectSense.Proofs.Path.Normal

/-!
# Completing in the folder that was typed

What was typed of a path is cut after its last separator and read again, and then loses the
separator.  The folder that is listed is the one that the text up to the separator names, unless
nothing stands before it: then the folder of the document is listed, not the root.

* `Document.TypedPath`: an offset where a folder and the beginning of a name have been typed.
* `Document.TypedPath.completions_eq`: one folder is listed there.
* `Document.completions_folder`: which one it is.
-/

namespace ProjectSense

variable {base dir name before place : List Char} {s : Char} {start : Nat} {e : Expr}

/-! ### The text up to the separator -/

/-- text without references, escapes and wildcards -/
def PlainPath (cs : List Char) : Prop := ∀ c ∈ cs, c ∉ ['$', '@', '%', '*', '?', '\x00']

instance (cs : List Char) : Decidable (PlainPath cs) :=
  List.decidableBAll _ cs

theorem PlainPath.mono {cs ds : List Char} (h : PlainPath cs) (hsub : ds ⊆ cs) : PlainPath ds :=
  fun c hc => h c (hsub hc)

theorem PlainPath.not_wild {cs : List Char} (h : PlainPath cs) : cs.any Path.isWild = false := by
  refine List.any_eq_false.2 fun c hc hwild => ?_
  have hne := h c hc
  simp only [List.mem_cons, not_or] at hne
  simp [Path.isWild, hne] at hwild

theorem PlainPath.not_sign {cs : List Char} (h : PlainPath cs) :
    ∀ c ∈ cs, c ∉ ['$', '@', '%'] := fun c hc hsign =>
  h c hc (List.mem_append_left ['*', '?', '\x00'] hsign)

/-- text without references and separators of entries is read as it is -/
theorem Expr.parse_plain {text : String} (hplain : PlainPath text.toList)
    (hsemi : ';' ∉ text.toList) (base : Nat) :
    parse text base = .text ⟨base, base + Text.width text.toList⟩ text := by
  have hmem : ∀ t ∈ Token.lex text.toList, ∀ c ∈ t.text, c ∈ text.toList := by
    intro t ht c hc
    rw [← Token.texts_lex text.toList]
    exact List.mem_flatMap_of_mem ht hc
  refine parse_literal (fun t ht => ⟨fun hk => ?_, Bool.eq_false_iff.2 fun hk => ?_⟩) base
  · refine hsemi (hmem t ht ';' ?_)
    rw [Token.text_of_semicolon ht hk]
    exact List.mem_singleton_self _
  · obtain ⟨c, hc, hsign⟩ := Token.mem_of_isOpener (Token.formed_of_mem_lex ht) hk
    exact hplain.not_sign c (hmem t ht c hc) hsign

/-- the last entry is cut after its last separator -/
theorem typedFolder_eq (hs : Path.isSeparator s = true)
    (hname : ∀ c ∈ name, Path.isSeparator c = false) (hplain : PlainPath (dir ++ [s]))
    (hsemi : ';' ∉ dir ++ [s]) (hstart : e.lastEntry.span.start = start + Text.width before) :
    ∃ span, typedFolder (before ++ (dir ++ s :: name)) start e =
      .text span (String.ofList (dir ++ [s])) := by
  rw [← String.toList_ofList (l := dir ++ [s])] at hplain hsemi
  refine ⟨_, Eq.trans ?_ (Expr.parse_plain hplain hsemi e.lastEntry.span.start)⟩
  rw [typedFolder, hstart, Nat.add_sub_cancel_left, Text.dropWidth_append,
    Text.uptoLast_append dir hs hname]

namespace PathSource

theorem folder_of_text (hplain : PlainPath (dir ++ [s])) :
    dropLastChars 1 (unescape (String.ofList (dir ++ [s]))).toList = dir := by
  have hpercent : '%' ∉ (String.ofList (dir ++ [s])).toList := by
    rw [String.toList_ofList]
    exact fun hmem => hplain '%' hmem (by decide)
  rw [Escape.unescape_of_not_mem hpercent, String.toList_ofList, dropLastChars, List.length_append,
    List.length_singleton, Nat.add_sub_cancel, List.take_left]

/-- nothing is left of a separator alone -/
theorem ofExpr?_separator (hplain : PlainPath [s]) (base : List Char) (span : Span) :
    ofExpr? base 1 (some (.text span (String.ofList [s]))) = path base := by
  have hfolder := @folder_of_text [] s hplain
  rw [List.nil_append] at hfolder
  simp only [ofExpr?, Expr.lastEntry, hfolder]

theorem ofExpr?_folder (hne : dir ≠ []) (hplain : PlainPath (dir ++ [s]))
    (hplace : Path.resolve? dir base = some place) (span : Span) :
    ofExpr? base 1 (some (.text span (String.ofList (dir ++ [s])))) = path place := by
  have hfolder := folder_of_text hplain
  obtain ⟨c, cs, rfl⟩ := List.exists_cons_of_ne_nil hne
  simp only [ofExpr?, Expr.lastEntry, hfolder, hplace]

end PathSource

namespace Document

variable {d : Document} {offset : Nat}

/-- paths have no other values than the entries of folders -/
theorem valueCandidates?_files {kind : ValueKind} {files : Bool}
    (h : offersFiles? kind = some files) (site : Option Site) (typed : Option Expr)
    (config : CompletionConfig) (cancelled : Bool) :
    d.valueCandidates? kind site typed config cancelled =
      d.fileCandidates? kind typed 0 site config cancelled := by
  cases hbase : kind.base with
  | file | projectFile | fileOrFolder | folder | folderWithSlash =>
    simp [valueCandidates?, simpleValues?, ValueKind.asScalar, Constant.ofBase?, hbase]
  | _ => simp [offersFiles?, hbase] at h

/-- what was typed of a path at an offset: a folder, a separator and the beginning of a name, which
are the last entry of the value so far -/
structure TypedPath (d : Document) (offset : Nat) where
  found : Resolution
  raw : String
  start : Nat
  /-- files can be values, too -/
  files : Bool
  /-- the entries in front -/
  before : List Char
  dir : List Char
  sep : Char
  name : List Char
  resolved : d.resolve? offset = some found
  text : d.valueText? found offset = some (raw, start)
  kind : (d.registry.valueAt? found.site).bind (fun v => offersFiles? v.inferredKind) = some files
  noSdk : d.sdkFolder? found.site = none
  typed : typedBefore raw.toList start offset = before ++ (dir ++ sep :: name)
  entry : (Expr.parse (String.ofList (before ++ (dir ++ sep :: name))) start).lastEntry.span.start =
    start + Text.width before
  isSeparator : Path.isSeparator sep = true
  isName : ∀ c ∈ name, Path.isSeparator c = false
  plain : PlainPath (dir ++ sep :: name)

namespace TypedPath

variable (p : d.TypedPath offset)

theorem folder_subset : p.dir ++ [p.sep] ⊆ p.dir ++ p.sep :: p.name := by
  rw [List.append_cons p.dir p.sep p.name]
  exact List.subset_append_left _ _

theorem plain_folder : PlainPath (p.dir ++ [p.sep]) := p.plain.mono p.folder_subset

/-- what was typed, before it is cut -/
def expr : Expr := Expr.parse (String.ofList (p.before ++ (p.dir ++ p.sep :: p.name))) p.start

/-- the last entry separates no others, and no reference is open there -/
theorem last_entry : ';' ∉ p.dir ++ p.sep :: p.name ∧
    ∀ r, (p.expr.findAt offset >>= referenceCandidates? r p.found.site) = none := by
  have htext : (String.ofList (p.before ++ (p.dir ++ p.sep :: p.name))).toList =
      p.before ++ (p.dir ++ p.sep :: p.name) := String.toList_ofList
  obtain ⟨hsemi, hfind⟩ := Expr.lastEntry_plain htext (by simp) p.entry p.plain.not_sign
  -- what was typed ends at the offset, or in the middle of the character there
  have hoffset : p.start +
      Text.width (String.ofList (p.before ++ (p.dir ++ p.sep :: p.name))).toList ≤ offset := by
    have hle := Text.width_takeWidth_le (offset - p.start) p.raw.toList
    rw [← typedBefore, p.typed] at hle
    have hpos := p.sep.utf8Size_pos
    rw [htext]
    simp only [Text.width_append, Text.width_cons] at hle ⊢
    omega
  refine ⟨hsemi, fun r => ?_⟩
  cases hnode : p.expr.findAt offset with
  | none => rfl
  | some f =>
    obtain htext | ⟨span, entries, rfl⟩ := hfind offset f hoffset hnode
    · cases f with
      | text => rfl
      | _ => cases htext
    · rfl

/-- the entries of one folder are offered -/
theorem completions_eq {folder : List Char}
    (hfolder : ∀ span, PathSource.ofExpr? d.directory.toList 1
      (some (.text span (String.ofList (p.dir ++ [p.sep])))) = .path folder)
    (config : CompletionConfig) (cancelled : Bool) :
    d.completions offset config cancelled = .ok (CompletionItem.present
      (directoryCandidates d.listing p.files config.parentFolder cancelled
        [String.ofList folder])) := by
  obtain ⟨hsemi, hclosed⟩ := p.last_entry
  obtain ⟨v, hvalue, hfiles⟩ := Option.bind_eq_some_iff.1 p.kind
  obtain ⟨span, htyped⟩ := typedFolder_eq p.isSeparator p.isName p.plain_folder
    (fun hc => hsemi (p.folder_subset hc)) p.entry
  have hpaths : d.pathsOf (some (.text span (String.ofList (p.dir ++ [p.sep])))) (0 + 1)
      (d.sdkFolder? p.found.site) none = [String.ofList folder] := by
    rw [pathsOf, p.noSdk, Option.getD_none, hfolder]
    rfl
  have hin : d.candidatesInValue? (d.registry.cancel cancelled) p.found offset config cancelled =
      some (directoryCandidates d.listing p.files config.parentFolder cancelled
        [String.ofList folder]) := by
    rw [expr] at hclosed
    rw [candidatesInValue?, p.text, Option.bind_eq_bind, Option.bind_some]
    simp only [p.typed, hclosed]
    simp only [Registry.valueAt?_cancel, hvalue, Option.bind_some, valueCandidates?_files hfiles,
      fileCandidates?, hfiles, htyped, Option.bind_eq_bind, hpaths]
  have hcandidates := candidates_value p.resolved p.text config cancelled
  rw [← Registry.cancel, hin] at hcandidates
  rw [completions, hcandidates]
  rfl

/-- a separator alone does not name the folder that is listed -/
theorem completions_separator (hdir : p.dir = []) (config : CompletionConfig) (cancelled : Bool) :
    Path.resolve? (p.dir ++ [p.sep]) d.directory.toList = some ['/'] ∧
      d.completions offset config cancelled = .ok (CompletionItem.present
        (directoryCandidates d.listing p.files config.parentFolder cancelled [d.directory])) := by
  have hplain := p.plain_folder
  rw [hdir, List.nil_append] at hplain
  have hfolder := PathSource.ofExpr?_separator hplain d.directory.toList
  have hitems := p.completions_eq (by rwa [hdir]) config cancelled
  rw [String.ofList_toList] at hitems
  refine ⟨?_, hitems⟩
  rw [hdir, List.nil_append]
  rcases Bool.or_eq_true_iff.1 p.isSeparator with h | h <;> rw [eq_of_beq h] <;> rfl

end TypedPath

/-- Where a path is typed, the entries of one folder are offered.  It is the one that the text up to
the last separator names, seen from the folder of the document, but for a separator at its end; and
its normal form is its own, unless neither has a root and a drive has come to stand in front.  Only
of a separator alone, which names the root, the folder of the document is listed. -/
theorem completions_folder (p : d.TypedPath offset) (config : CompletionConfig)
    (cancelled : Bool) : ∃ folder place,
      Path.resolve? (p.dir ++ [p.sep]) d.directory.toList = some place ∧
        d.completions offset config cancelled = .ok (CompletionItem.present
          (directoryCandidates d.listing p.files config.parentFolder cancelled
            [String.ofList folder])) ∧
        (p.dir = [] → place = ['/'] ∧ folder = d.directory.toList) ∧
        (p.dir ≠ [] → Path.dropTrailing folder = Path.dropTrailing place ∧
          (Path.isRooted p.dir = true ∨ Path.isRooted d.directory.toList = true ∨
            (Path.splitDrive folder).1 = [] → Path.normalize folder = folder)) := by
  by_cases hdir : p.dir = []
  · obtain ⟨hplace, hitems⟩ := p.completions_separator hdir config cancelled
    refine ⟨d.directory.toList, ['/'], hplace, ?_, fun _ => ⟨rfl, rfl⟩, fun hne => absurd hdir hne⟩
    rwa [String.ofList_toList]
  · have hplain := (p.plain_folder.mono (List.subset_append_left _ _)).not_wild
    obtain ⟨folder, place, hfolder, hplace, htrailing, hnormal⟩ :=
      Path.resolve?_concat p.isSeparator hdir hplain d.directory.toList
    have hitems := p.completions_eq (PathSource.ofExpr?_folder hdir p.plain_folder hfolder) config
      cancelled
    exact ⟨folder, place, hplace, hitems, fun hnil => absurd hnil hdir,
      fun _ => ⟨htrailing, hnormal⟩⟩

/-- the beginning of a name in a folder, after another file -/
def folderText : String :=
  "<Project><ItemGroup><Compile Include=\"a.cs;src\\b\"/></ItemGroup></Project>"

theorem exists_typed_folder : ∃ p : (build (parse "/proj/a.proj" folderText)).TypedPath 48,
    p.dir = "src".toList ∧ p.sep = '\\' ∧ p.files = true := by
  obtain ⟨found, hfound, htext, hkind, hsdk⟩ : let d := build (parse "/proj/a.proj" folderText)
      ∃ found ∈ d.resolve? 48, d.valueText? found 48 = some ("a.cs;src\\b", 38) ∧
        (d.registry.valueAt? found.site).bind (fun v => offersFiles? v.inferredKind) = some true ∧
        d.sdkFolder? found.site = none := by decide +kernel
  refine ⟨⟨found, _, _, _, "a.cs;".toList, _, _, ['b'], hfound, htext, hkind, hsdk, ?_, ?_, rfl,
    List.forall_mem_singleton.2 rfl, ?_⟩, rfl, rfl, rfl⟩
  all_goals decide +kernel

theorem completions_folder_source :
    let d := build (parse "/proj/a.proj" folderText)
    ∃ folder, d.completions 48 {} false = .ok (CompletionItem.present
        (directoryCandidates d.listing true true false [String.ofList folder])) ∧
      Path.dropTrailing folder = "/proj/src".toList := by
  intro d
  obtain ⟨p, hdir, hsep, hfiles⟩ := exists_typed_folder
  obtain ⟨folder, place, hplace, hitems, -, hfolder⟩ := completions_folder p {} false
  rw [hdir, hsep] at hplace
  have heq : Path.resolve? ("src".toList ++ ['\\']) d.directory.toList =
      some "/proj/src/".toList := by decide +kernel
  obtain rfl := Option.some.inj (heq.symm.trans hplace)
  rw [hfiles] at hitems
  refine ⟨folder, hitems, ?_⟩
  rw [(hfolder (by rw [hdir]; decide)).1]
  rfl

/-- a separator alone, which names the root -/
def rootText : String := "<Project><ItemGroup><Compile Include=\"/\"/></ItemGroup></Project>"

/-- a folder at the root and another one next to the project -/
def twoFolders : Listing where
  isFolder _ := true
  entries? dir := .ok [if dir = "/" then ⟨"etc", "/etc", true⟩ else ⟨"src", "/proj/src", true⟩]

theorem exists_typed_root :
    ∃ p : ((build (parse "/proj/a.proj" rootText)).withListing twoFolders).TypedPath 39,
      p.dir = [] ∧ p.sep = '/' ∧ p.name = [] ∧ p.files = true := by
  obtain ⟨found, hfound, htext, hkind, hsdk⟩ :
      let d := (build (parse "/proj/a.proj" rootText)).withListing twoFolders
      ∃ found ∈ d.resolve? 39, d.valueText? found 39 = some ("/", 38) ∧
        (d.registry.valueAt? found.site).bind (fun v => offersFiles? v.inferredKind) = some true ∧
        d.sdkFolder? found.site = none := by decide +kernel
  refine ⟨⟨found, _, _, _, [], _, _, [], hfound, htext, hkind, hsdk, ?_, ?_, rfl,
    List.forall_mem_nil _, ?_⟩, rfl, rfl, rfl, rfl⟩
  all_goals decide +kernel

/-- the root is typed, and the folder of the project is listed -/
theorem exists_folder_not_typed :
    let d := (build (parse "/proj/a.proj" rootText)).withListing twoFolders
    ∃ p : d.TypedPath 39, p.dir = [] ∧ p.sep = '/' ∧
      Path.resolve? (p.dir ++ [p.sep]) d.directory.toList = some ['/'] ∧
        ∃ items, d.completions 39 {} false = .ok items ∧
          (∃ i ∈ items, sameName i.label "src" = true) ∧
            ¬∃ i ∈ items, sameName i.label "etc" = true := by
  intro d
  obtain ⟨p, hdir, hsep, -, hfiles⟩ := exists_typed_root
  obtain ⟨hplace, hitems⟩ := p.completions_separator hdir {} false
  refine ⟨p, hdir, hsep, hplace, _, hitems, ?_, ?_⟩
  all_goals rw [(CompletionItem.presents_present _).exists_label_iff, hfiles]
  all_goals decide +kernel

end Document
end ProjectSense
