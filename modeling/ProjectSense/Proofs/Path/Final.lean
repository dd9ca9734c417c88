import ProjectSense.Proofs.Path.Canonical

/-!
# Paths that are final

A path whose segments are those of a normal path is its own normal form.  So the normal form of a
normal form is the same, unless its first segment is a drive and a `.`: that is then read as one,
and the `.` is dropped.  A path seen from a base at the root has no such segment in front.

* `Path.Canonical.normalizeRest_eq`: canonical paths stay as they are.
* `Path.normalize_normalize_iff`: which normal forms do.
* `Path.resolve?_final`: paths from a base at the root.
-/

namespace ProjectSense.Path

variable {absolute : Bool} {path base rest segment tail : List Char}
  {segments walked names : List (List Char)} {ups : Nat} {c : Char}

/-! ### Canonical paths -/

theorem joinSegments_append (h : segments ≠ []) {more : List (List Char)} (hmore : more ≠ []) :
    joinSegments (segments ++ more) = joinSegments segments ++ '/' :: joinSegments more := by
  induction segments with
  | nil => exact absurd rfl h
  | cons first segments ih =>
    rw [List.cons_append]
    by_cases hnil : segments = []
    · rw [hnil, List.nil_append, joinSegments_cons hmore, joinSegments_singleton]
    · rw [joinSegments_cons (by simp [hnil]), joinSegments_cons hnil, ih hnil, List.append_assoc,
        List.cons_append]

/-- a text without the other separator is its segments with `/` between them -/
theorem joinSegments_splitOn (h : '\\' ∉ path) :
    joinSegments (Text.splitOn isSeparator path) = path := by
  induction path with
  | nil => rfl
  | cons c cs ih =>
    rw [List.mem_cons, not_or] at h
    rw [Text.splitOn]
    split
    · next hc =>
      obtain rfl : c = '/' := by
        rcases Bool.or_eq_true_iff.1 hc with hc | hc
        · exact eq_of_beq hc
        · exact absurd (eq_of_beq hc) (Ne.symm h.1)
      rw [joinSegments_cons (Text.splitOn_ne_nil _ _), ih h.2, List.nil_append]
    · have hjoin := ih h.2
      cases hcs : Text.splitOn isSeparator cs with
      | nil => exact absurd hcs (Text.splitOn_ne_nil _ _)
      | cons piece pieces =>
        rw [hcs] at hjoin
        dsimp only
        rw [← hjoin]
        cases pieces with
        | nil => rw [joinSegments_singleton, joinSegments_singleton]
        | cons next more =>
          rw [joinSegments_cons (List.cons_ne_nil next more),
            joinSegments_cons (List.cons_ne_nil next more), List.cons_append]

/-- names after a run of `..` that no root has are what a walk leaves -/
theorem walked_names (hroot : absolute = true → ups = 0) (h : ∀ segment ∈ names, IsName segment) :
    Walked absolute (names ++ List.replicate ups ['.', '.']) := by
  induction names with
  | nil =>
    rw [List.nil_append]
    induction ups with
    | zero => exact .nil
    | succ ups ih =>
      have hrel : absolute = false := Bool.eq_false_iff.2 fun h => absurd (hroot h) (by simp)
      rw [List.replicate_succ]
      refine .up hrel (fun s hs => ?_) (ih fun h => absurd (hrel.symm.trans h) (by simp))
      exact List.eq_of_mem_replicate (List.mem_of_mem_head? hs)
  | cons first names ih =>
    obtain ⟨hfirst, hnames⟩ := List.forall_mem_cons.1 h
    exact .name hfirst (ih hnames)

/-- a walk through canonical segments leaves them all -/
theorem walk_names (hroot : absolute = true → ups = 0) (h : ∀ segment ∈ names, IsName segment) :
    walk absolute (List.replicate ups ['.', '.'] ++ names) =
      List.replicate ups ['.', '.'] ++ names := by
  have hwalked : Walked absolute (names.reverse ++ List.replicate ups ['.', '.']) :=
    walked_names hroot fun segment hmem => h segment (List.mem_reverse.1 hmem)
  have hfold := hwalked.foldl_reverse
  rw [List.reverse_append, List.reverse_reverse, List.reverse_replicate] at hfold
  rw [walk, hfold, List.reverse_append, List.reverse_reverse, List.reverse_replicate]

theorem Canonical.segmentsOf_eq (h : Canonical rest ups names) :
    segmentsOf rest = List.replicate ups ['.', '.'] ++ names := by
  have hkeep : (List.replicate ups ['.', '.'] ++ names).filter (· ≠ []) =
      List.replicate ups ['.', '.'] ++ names := by
    refine List.filter_eq_self.2 fun segment hmem => decide_eq_true ?_
    rcases List.mem_append.1 hmem with hup | hname
    · simp [List.eq_of_mem_replicate hup]
    · exact (h.names segment hname).1
  have hpieces : pieces rest = List.replicate ups ['.', '.'] ++ names := by
    rw [pieces, h.segments, List.append_assoc _ _ names, List.filter_append, List.filter_append,
      hkeep]
    split <;> split <;> simp
  rw [segmentsOf, hpieces, walk_names h.relative h.names]

/-- a canonical path is its own normal form -/
theorem Canonical.normalizeRest_eq (h : Canonical rest ups names) (hslash : '\\' ∉ rest) :
    normalizeRest rest = rest := by
  have hjoin := joinSegments_splitOn hslash
  rw [h.segments, List.append_assoc _ _ names, ← h.segmentsOf_eq] at hjoin
  by_cases hnil : segmentsOf rest = []
  · rw [normalizeRest_of_nil hnil, stem, hnil]
    rw [hnil, List.append_nil] at hjoin
    cases hroot : startsAtRoot rest with
    | false => cases hends : endsInSeparator rest <;> rw [hroot, hends] at hjoin <;> exact hjoin
    | true =>
      cases hends : endsInSeparator rest with
      | false =>
        -- one segment without anything in it is the empty text, which has no root
        rw [hroot, hends] at hjoin
        rw [← hjoin] at hroot
        cases hroot
      | true =>
        rw [hroot, hends] at hjoin
        exact hjoin
  · obtain ⟨hne, -⟩ := stem_ends hnil
    have hstem : joinSegments ((if startsAtRoot rest then [[]] else []) ++ segmentsOf rest) =
        stem rest := by
      rw [stem]
      split
      · exact joinSegments_append (List.cons_ne_nil _ _) hnil
      · rfl
    rw [Path.normalizeRest_eq]
    cases hends : endsInSeparator rest with
    | false =>
      rw [hends, if_neg Bool.false_ne_true, List.append_nil, hstem] at hjoin
      rw [if_neg (by simp), List.append_nil, hjoin]
    | true =>
      rw [hends, if_pos rfl, joinSegments_append (by simp [hnil]) (List.cons_ne_nil _ _), hstem]
        at hjoin
      have hlong : 1 < rest.length := by
        have := List.length_pos_iff.2 hne
        rw [← hjoin, List.length_append, List.length_cons]
        omega
      rw [if_pos ⟨hlong, rfl, hnil⟩]
      exact hjoin

/-! ### The first segment -/

/-- the first segment is a drive and a `.` -/
def DriveDot (path : List Char) : Prop :=
  ∃ c, c.isAlpha = true ∧ (Text.splitOn isSeparator path).head? = some [c, ':', '.']

/-- a normal form has no `.` among its segments -/
theorem dot_not_mem_splitOn (rest : List Char) :
    ['.'] ∉ Text.splitOn isSeparator (normalizeRest rest) := by
  by_cases hnil : normalizeRest rest = []
  · rw [hnil]
    decide
  obtain ⟨ups, names, h⟩ := canonical_normalizeRest hnil
  rw [h.segments, List.mem_append, List.mem_append, List.mem_append]
  rintro (((hmem | hmem) | hmem) | hmem)
  · split at hmem <;> simp at hmem
  · exact absurd (List.eq_of_mem_replicate hmem) (by decide)
  · exact (h.names _ hmem).2.1 rfl
  · split at hmem <;> simp at hmem

theorem normalize_drive (hc : c.isAlpha = true) (rest : List Char) :
    normalize (c :: ':' :: rest) = c :: ':' :: normalizeRest rest := by
  rw [normalize, splitDrive_drive hc]
  rfl

/-- the `.` after a drive is dropped -/
theorem not_driveDot_of_normal (h : normalize path = path) : ¬DriveDot path := by
  rintro ⟨c, hc, hhead⟩
  obtain ⟨_, rfl, -, hhead⟩ := Text.head?_splitOn_cons.1 hhead
  obtain ⟨rest, rfl, -, hhead⟩ := Text.head?_splitOn_cons.1 hhead
  rw [normalize_drive hc] at h
  have hrest : normalizeRest rest = rest := (List.cons.inj (List.cons.inj h).2).2
  rw [← hrest] at hhead
  exact dot_not_mem_splitOn rest (List.mem_of_mem_head? hhead)

/-- a path has a root just if nothing stands in its first segment -/
theorem startsAtRoot_iff (h : rest ≠ []) :
    startsAtRoot rest = true ↔ (Text.splitOn isSeparator rest).head? = some [] := by
  obtain ⟨d, cs, rfl⟩ := List.exists_cons_of_ne_nil h
  rw [startsAtRoot, Text.splitOn]
  split
  · next hd => simp [hd]
  · next hd =>
    cases hcs : Text.splitOn isSeparator cs with
    | nil => exact absurd hcs (Text.splitOn_ne_nil _ _)
    | cons => simp [hd]

theorem splitOn_drive (hc : c.isAlpha = true) {first : List Char} {more : List (List Char)}
    (h : Text.splitOn isSeparator rest = first :: more) :
    Text.splitOn isSeparator (c :: ':' :: rest) = (c :: ':' :: first) :: more := by
  rw [Text.splitOn, if_neg (by simp [isSeparator_of_isAlpha hc]), Text.splitOn,
    if_neg (by decide), h]

/-- the segment of the drive in front of a canonical path is the first of its names -/
theorem Canonical.drive_segments (h : Canonical (c :: ':' :: rest) ups names)
    (hc : c.isAlpha = true) (hnil : rest ≠ []) : ∃ first more,
      names = (c :: ':' :: first) :: more ∧
      Text.splitOn isSeparator rest = first :: more ++
        if endsInSeparator rest then [[]] else [] := by
  obtain ⟨first, more, hsplit⟩ :=
    List.exists_cons_of_ne_nil (Text.splitOn_ne_nil isSeparator rest)
  have hends : endsInSeparator (c :: ':' :: rest) = endsInSeparator rest :=
    endsInSeparator_append [c, ':'] hnil
  have hseg := h.segments
  rw [splitOn_drive hc hsplit, startsAtRoot, isSeparator_of_isAlpha hc, if_neg Bool.false_ne_true,
    List.nil_append, hends] at hseg
  cases ups with
  | succ ups => simp [List.replicate_succ] at hseg
  | zero =>
    rw [List.replicate_zero, List.nil_append] at hseg
    cases names with
    | nil => split at hseg <;> simp at hseg
    | cons name names =>
      obtain ⟨rfl, rfl⟩ := List.cons.inj hseg
      exact ⟨first, names, rfl, hsplit⟩

/-- what follows the drive in front of a canonical path is its own normal form, unless it begins
with a `.` -/
theorem Canonical.normalizeRest_drive (h : Canonical (c :: ':' :: rest) ups names)
    (hc : c.isAlpha = true) (hslash : '\\' ∉ rest) (hdot : ¬DriveDot (c :: ':' :: rest)) :
    normalizeRest rest = rest := by
  by_cases hnil : rest = []
  · rw [hnil]
    rfl
  obtain ⟨first, more, rfl, hsplit⟩ := h.drive_segments hc hnil
  have hnames := (List.forall_mem_cons.1 h.names).2
  have hroot : startsAtRoot rest = true ↔ first = [] := by
    rw [startsAtRoot_iff hnil, hsplit, List.cons_append, List.head?_cons, Option.some.injEq]
  -- the rest of that segment is a root, a step up or a name
  obtain ⟨ups', names', hcanonical⟩ : ∃ ups names, Canonical rest ups names := by
    by_cases hblank : first = []
    · refine ⟨0, more, ?_, fun _ => rfl, hnames⟩
      rw [hsplit, if_pos (hroot.2 hblank), hblank]
      rfl
    by_cases hup : first = ['.', '.']
    · refine ⟨1, more, ?_, fun hstarts => absurd (hroot.1 hstarts) hblank, hnames⟩
      rw [hsplit, if_neg (mt hroot.1 hblank), hup]
      rfl
    · have hfirst : IsName first := by
        refine ⟨hblank, ?_, hup⟩
        rintro rfl
        exact hdot ⟨c, hc, by rw [splitOn_drive hc hsplit, List.head?_cons]⟩
      refine ⟨0, first :: more, ?_, fun _ => rfl, List.forall_mem_cons.2 ⟨hfirst, hnames⟩⟩
      rw [hsplit, if_neg (mt hroot.1 hblank)]
      rfl
  exact hcanonical.normalizeRest_eq hslash

/-! ### The normal form of a normal form -/

/-- where a normal form is not its own, a segment is taken for a drive -/
theorem exists_drive (h : normalize (normalize path) ≠ normalize path) :
    ∃ c rest, normalize path = c :: ':' :: rest ∧ c.isAlpha = true ∧
      normalizeRest path = c :: ':' :: rest := by
  have hnot := mt normalize_normalize h
  rw [not_or] at hnot
  obtain ⟨hrooted, hdrive⟩ := hnot
  rcases splitDrive_cases (normalize path) with ⟨c, rest, hpath, hc, -⟩ | hnone
  · refine ⟨c, rest, hpath, hc, ?_⟩
    rcases splitDrive_cases path with ⟨d, back, -, -, heq⟩ | heq
    · refine absurd ?_ hrooted
      rw [isRooted, heq]
      exact Bool.or_true _
    · rw [normalize_of_no_drive heq] at hpath
      split at hpath
      · cases hpath
      · exact hpath
  · exact absurd (congrArg Prod.fst hnone) hdrive

/-- The normal form of a path is its own normal form just if it does not begin with a segment that
is a drive and a `.`.  The second time it always is. -/
theorem normalize_normalize_iff (path : List Char) :
    (normalize (normalize path) = normalize path ↔ ¬DriveDot (normalize path)) ∧
      normalize (normalize (normalize path)) = normalize (normalize path) := by
  constructor
  · refine ⟨not_driveDot_of_normal, fun hdot => ?_⟩
    by_contra hne
    obtain ⟨c, rest, hpath, hc, hrest⟩ := exists_drive hne
    have hnil : normalizeRest path ≠ [] := by
      rw [hrest]
      exact List.cons_ne_nil _ _
    obtain ⟨ups, names, hcanonical⟩ := canonical_normalizeRest hnil
    have hslash := not_mem_normalizeRest path
    rw [hrest] at hcanonical hslash
    rw [hpath] at hdot hne
    refine hne ?_
    rw [normalize_drive hc, hcanonical.normalizeRest_drive hc ?_ hdot]
    exact fun hmem => hslash (List.mem_cons_of_mem c (List.mem_cons_of_mem ':' hmem))
  · by_cases hfix : normalize (normalize path) = normalize path
    · rw [hfix, hfix]
    · obtain ⟨c, rest, hpath, hc, -⟩ := exists_drive hfix
      refine normalize_normalize (.inl ?_)
      rw [hpath, isRooted, splitDrive_drive hc]
      exact Bool.or_true _

/-- a segment is taken for a drive, and the `.` after it is dropped -/
theorem normalize_driveDot : normalize "./C:./x".toList = "C:./x".toList ∧
    normalize (normalize "./C:./x".toList) = "C:x".toList := by
  decide +kernel

/-! ### Paths from a base -/

theorem normalize_of_startsAtRoot (h : startsAtRoot path = true) :
    normalize path = normalizeRest path := by
  rw [normalize_of_no_drive (splitDrive_of_startsAtRoot h), if_neg]
  intro hnil
  have hroot := startsAtRoot_normalizeRest path
  rw [hnil, h] at hroot
  cases hroot

theorem head?_normalizeRest (h : startsAtRoot rest = true) :
    (normalizeRest rest).head? = some '/' := by
  rw [normalizeRest_eq, stem, if_pos h]
  rfl

/-- what is left of a path behind a base at the root -/
theorem normalizeRest_behind (h : startsAtRoot base = true) (path : List Char) :
    let segments := walk true (pieces base ++ pieces path)
    normalizeRest (base ++ '/' :: path) = '/' :: joinSegments segments ++
      if endsInSeparator ('/' :: path) ∧ segments ≠ [] then ['/'] else [] := by
  intro segments
  have hroot := startsAtRoot_behind h ('/' :: path)
  have hsegments : segmentsOf (base ++ '/' :: path) = segments := by
    rw [segmentsOf, hroot, pieces_append _ rfl]
  have hlong : 1 < (base ++ '/' :: path).length := by
    have := List.length_pos_iff.2 (ne_nil_of_startsAtRoot h)
    rw [List.length_append, List.length_cons]
    omega
  rw [normalizeRest_eq, stem, hroot, hsegments, endsInSeparator_append _ (List.cons_ne_nil _ _)]
  simp only [hlong, true_and]
  rfl

/-- the base can be brought into its normal form first -/
theorem normalizeRest_base (h : startsAtRoot base = true) (path : List Char) :
    normalizeRest (normalizeRest base ++ '/' :: path) = normalizeRest (base ++ '/' :: path) := by
  have hroot : startsAtRoot (normalizeRest base) = true := (startsAtRoot_normalizeRest base).trans h
  have hwalk : walk true (pieces (normalizeRest base) ++ pieces path) =
      walk true (pieces base ++ pieces path) := by
    rw [pieces_normalizeRest, segmentsOf, h, walk_append]
  rw [normalizeRest_behind hroot, normalizeRest_behind h, hwalk]

/-- behind a base the path leads on from where the base does -/
theorem leadsTo_behind (hbase : startsAtRoot base = true) (hpath : startsAtRoot path = false)
    (directory : List (List Char)) :
    leadsTo directory (base ++ '/' :: path) = leadsTo (leadsTo directory base) path := by
  rw [leadsTo, leadsTo, leadsTo, startsAtRoot_behind hbase, hbase, hpath, Text.splitOn_append _ rfl,
    List.foldl_append]
  rfl

theorem resolve?_eq_none_iff :
    resolve? path base = none ↔ ∃ c ∈ path, c ∈ ['*', '?', '\x00'] := by
  have hwild : path.any isWild = true ↔ ∃ c ∈ path, c ∈ ['*', '?', '\x00'] := by
    simp [isWild, or_assoc]
  rw [← hwild, resolve?]
  split
  · next h => simp [h]
  · next h => split <;> simp [h]

theorem not_wild_of_resolve? {place : List Char} (h : resolve? path base = some place) :
    path.any isWild = false := by
  rw [Bool.eq_false_iff]
  intro hwild
  rw [resolve?, if_pos hwild] at h
  cases h

theorem resolve?_of_isRooted (hplain : path.any isWild = false) (h : isRooted path = true)
    (base : List Char) : resolve? path base = some (normalize path) := by
  rw [resolve?, if_neg (Bool.eq_false_iff.1 hplain), h, Bool.true_or, if_pos rfl]

theorem resolve?_of_not_isRooted (hplain : path.any isWild = false) (h : isRooted path = false)
    (hbase : startsAtRoot base = true) :
    resolve? path base = some (normalizeRest (base ++ '/' :: path)) := by
  obtain ⟨c, cs, rfl⟩ := List.exists_cons_of_ne_nil (ne_nil_of_startsAtRoot hbase)
  rw [resolve?, if_neg (Bool.eq_false_iff.1 hplain), h, Bool.false_or, if_neg (by simp),
    normalize_of_startsAtRoot (startsAtRoot_behind hbase _)]

theorem drive_prefix_normalize (path : List Char) : (splitDrive path).1 <+: normalize path := by
  rw [normalize]
  split
  · next h =>
    rw [(List.append_eq_nil_iff.1 h).1]
    exact List.nil_prefix
  · exact List.prefix_append _ _

/-- without a drive a path is rooted just if it starts at the root -/
theorem isRooted_of_no_drive (h : (splitDrive path).1 = []) :
    isRooted path = startsAtRoot path := by
  rw [isRooted, h]
  exact Bool.or_false _

/-- A path seen from a base at the root names one place just if there is no wildcard in it.  The
place has a root, or the drive of the path; it is in normal form; the normal form of the base gives
it, too; and without a drive it is where the path leads to from the base. -/
theorem resolve?_final (hbase : startsAtRoot base = true) (path : List Char) :
    (resolve? path base = none ↔ ∃ c ∈ path, c ∈ ['*', '?', '\x00']) ∧
    ∀ place, resolve? path base = some place →
      (if (splitDrive path).1 = [] then place.head? = some '/'
        else (splitDrive path).1 <+: place) ∧
      normalize place = place ∧
      resolve? path (normalize base) = some place ∧
      ((splitDrive path).1 = [] → ∀ directory,
        leadsTo directory place = leadsTo (leadsTo directory base) path) := by
  refine ⟨resolve?_eq_none_iff, fun place hplace => ?_⟩
  have hplain := not_wild_of_resolve? hplace
  cases hrooted : isRooted path with
  | true =>
    -- the base does not matter
    obtain rfl := Option.some.inj ((resolve?_of_isRooted hplain hrooted base).symm.trans hplace)
    have hroot : (splitDrive path).1 = [] → startsAtRoot path = true := fun h =>
      (isRooted_of_no_drive h).symm.trans hrooted
    refine ⟨?_, normalize_normalize (.inl hrooted), resolve?_of_isRooted hplain hrooted _, ?_⟩
    · split
      · next h => rw [normalize_of_startsAtRoot (hroot h), head?_normalizeRest (hroot h)]
      · exact drive_prefix_normalize path
    · intro h directory
      rw [normalize_of_startsAtRoot (hroot h), leadsTo_normalizeRest, leadsTo, leadsTo, hroot h]
      rfl
  | false =>
    obtain rfl := Option.some.inj
      ((resolve?_of_not_isRooted hplain hrooted hbase).symm.trans hplace)
    obtain ⟨hroot, hdrive⟩ := Bool.or_eq_false_iff.1 hrooted
    have hnone : (splitDrive path).1 = [] := by simpa using hdrive
    have hjoint := startsAtRoot_behind hbase ('/' :: path)
    have hplaced := (startsAtRoot_normalizeRest (base ++ '/' :: path)).trans hjoint
    refine ⟨?_, ?_, ?_, fun _ directory => ?_⟩
    · rw [if_pos hnone, head?_normalizeRest hjoint]
    · rw [normalize_of_startsAtRoot hplaced, normalizeRest_normalizeRest]
    · rw [normalize_of_startsAtRoot hbase, resolve?_of_not_isRooted hplain hrooted
        ((startsAtRoot_normalizeRest base).trans hbase), normalizeRest_base hbase]
    · rw [leadsTo_normalizeRest, leadsTo_behind hbase hroot]

/-- `..` climbs out of the path into the base -/
theorem resolve?_final_up : startsAtRoot "/a//b".toList = true ∧
    resolve? "..\\x".toList "/a//b".toList = some "/a/x".toList ∧
    normalize "/a/x".toList = "/a/x".toList ∧
    resolve? "..\\x".toList (normalize "/a//b".toList) = some "/a/x".toList := by
  have hbase : startsAtRoot "/a//b".toList = true := rfl
  have hplace : resolve? "..\\x".toList "/a//b".toList = some "/a/x".toList := by decide +kernel
  obtain ⟨-, hfinal, hsame, -⟩ := (resolve?_final hbase "..\\x".toList).2 _ hplace
  exact ⟨hbase, hplace, hfinal, hsame⟩

end ProjectSense.Path
