import ProjectSense.Path.Normal
import ProjectSense.Proofs.Text.Break

/-!
# Normal forms of paths

Walking a path leaves names, after a run of `..` if the path is relative.  A walk through what is
left goes the same way, so that a normal form is its own, unless a name in it has come to stand in
front and looks like a drive.

* `Path.Walked.enter`: what every segment keeps of the walk.
* `Path.normalizeRest_normalizeRest`, `Path.normalize_normalize`: normal forms of normal forms.
* `Path.dropTrailing_normalize`: a separator at the end makes no other place.
-/

namespace ProjectSense.Path

variable {absolute : Bool} {path rest segment : List Char} {segments walked : List (List Char)}
  {s : Char}

/-! ### Walks -/

/-- a name of something, not a step in place or up -/
def IsName (segment : List Char) : Prop := segment ≠ [] ∧ segment ≠ ['.'] ∧ segment ≠ ['.', '.']

/-- what a walk leaves, the last segment first: names, above a run of `..` in a relative path -/
inductive Walked (absolute : Bool) : List (List Char) → Prop
  | nil : Walked absolute []
  | up {walked : List (List Char)} (hrel : absolute = false)
    (hups : ∀ s ∈ walked.head?, s = ['.', '.']) (h : Walked absolute walked) :
    Walked absolute (['.', '.'] :: walked)
  | name {segment : List Char} {walked : List (List Char)} (hname : IsName segment)
    (h : Walked absolute walked) : Walked absolute (segment :: walked)

theorem enter_stay (absolute : Bool) (walked : List (List Char))
    (h : segment = [] ∨ segment = ['.']) : enter absolute walked segment = walked := by
  unfold enter
  exact if_pos h

theorem enter_name (absolute : Bool) (walked : List (List Char)) (h : IsName segment) :
    enter absolute walked segment = segment :: walked := by
  obtain ⟨hblank, hhere, hup⟩ := h
  unfold enter
  rw [if_neg (by simp [hblank, hhere]), if_neg hup]

/-- `..` takes a name back, and is kept at the front of a relative path -/
theorem enter_up (absolute : Bool) (walked : List (List Char)) :
    enter absolute walked ['.', '.'] =
      match walked with
      | last :: before => if last = ['.', '.'] then ['.', '.'] :: walked else before
      | [] => if absolute then [] else [['.', '.']] := by
  unfold enter
  cases walked <;> exact (if_neg (by decide)).trans (if_pos rfl)

theorem Walked.enter (h : Walked absolute walked) (segment : List Char) :
    Walked absolute (enter absolute walked segment) := by
  by_cases hname : IsName segment
  · rw [enter_name absolute walked hname]
    exact .name hname h
  by_cases hup : segment = ['.', '.']
  · rw [hup, enter_up]
    cases h with
    | nil =>
      cases absolute with
      | true => exact .nil
      | false => exact .up rfl (by simp) .nil
    | up hrel hups h => exact .up hrel (by simp) (.up hrel hups h)
    | name hlast hbefore =>
      change Walked absolute (if _ then _ else _)
      rwa [if_neg hlast.2.2]
  · have hstay : segment = [] ∨ segment = ['.'] := by
      by_contra hne
      rw [not_or] at hne
      exact hname ⟨hne.1, hne.2, hup⟩
    rwa [enter_stay absolute walked hstay]

theorem walked_foldl (absolute : Bool) (segments : List (List Char)) :
    Walked absolute (segments.foldl (enter absolute) []) :=
  List.foldlRecOn segments _ .nil fun _ h segment _ => h.enter segment

/-- a walk through what a walk left ends there -/
theorem Walked.foldl_reverse (h : Walked absolute walked) :
    walked.reverse.foldl (Path.enter absolute) [] = walked := by
  induction h with
  | nil => rfl
  | name hname h ih => rw [List.reverse_cons, List.foldl_concat, ih, enter_name _ _ hname]
  | @up walked hrel hups h ih =>
    rw [List.reverse_cons, List.foldl_concat, ih, enter_up]
    cases walked with
    | nil => simp [hrel]
    | cons last before => exact if_pos (hups last rfl)

/-- a walk leaves nothing but segments of the path -/
theorem mem_of_mem_enter (h : segment ∈ enter absolute walked rest) :
    segment ∈ walked ∨ segment = rest := by
  unfold enter at h
  split at h
  · exact .inl h
  split at h
  · split at h
    · split at h
      · exact (List.mem_cons.1 h).symm
      · exact .inl (List.mem_cons_of_mem _ h)
    · split at h
      · cases h
      · exact .inr (List.mem_singleton.1 h)
  · exact (List.mem_cons.1 h).symm

theorem walk_subset (absolute : Bool) (segments : List (List Char)) :
    walk absolute segments ⊆ segments := by
  intro segment h
  refine List.foldlRecOn (motive := fun walked => segment ∈ walked → segment ∈ segments) segments
    (enter absolute) (by simp) (fun walked ih next hnext hmem => ?_) (List.mem_reverse.1 h)
  rcases mem_of_mem_enter hmem with hmem | rfl
  · exact ih hmem
  · exact hnext

/-- so it leaves a walk as it is -/
theorem walk_walk (absolute : Bool) (segments : List (List Char)) :
    walk absolute (walk absolute segments) = walk absolute segments :=
  congrArg List.reverse (walked_foldl absolute segments).foldl_reverse

/-- a walk goes on from what a walk left as it goes on from the walk -/
theorem walk_append (absolute : Bool) (segments more : List (List Char)) :
    walk absolute (walk absolute segments ++ more) = walk absolute (segments ++ more) := by
  rw [walk, walk, walk, List.foldl_append, List.foldl_append,
    (walked_foldl absolute segments).foldl_reverse]

/-- segments without anything in them make no difference -/
theorem walk_filter (absolute : Bool) (segments : List (List Char)) :
    walk absolute (segments.filter (· ≠ [])) = walk absolute segments := by
  rw [walk, walk, List.foldl_filter]
  congr 2
  funext walked segment
  split
  · rfl
  · next h => exact (enter_stay absolute walked (.inl (by simpa using h))).symm

/-! ### Segments of a text -/

/-- the segments of a path that hold something -/
def pieces (path : List Char) : List (List Char) :=
  (Text.splitOn isSeparator path).filter (· ≠ [])

/-- text that may stand between two separators -/
def Solid (segment : List Char) : Prop :=
  segment ≠ [] ∧ ∀ c ∈ segment, isSeparator c = false

@[simp] theorem pieces_nil : pieces [] = [] := rfl

theorem pieces_append (front : List Char) (hs : isSeparator s = true) (back : List Char) :
    pieces (front ++ s :: back) = pieces front ++ pieces back := by
  rw [pieces, Text.splitOn_append _ hs, List.filter_append]
  rfl

theorem pieces_of_solid (h : Solid segment) : pieces segment = [segment] := by
  rw [pieces, Text.splitOn_eq_singleton h.2]
  simp [h.1]

theorem solid_of_mem_pieces (h : segment ∈ pieces path) : Solid segment := by
  obtain ⟨hmem, hne⟩ := List.mem_filter.1 h
  exact ⟨of_decide_eq_true hne, Text.not_sep_of_mem_splitOn hmem⟩

theorem joinSegments_cons (h : segments ≠ []) :
    joinSegments (segment :: segments) = segment ++ '/' :: joinSegments segments := by
  rw [joinSegments, List.intercalate_cons_of_ne_nil h]
  simp [joinSegments]

theorem joinSegments_singleton (segment : List Char) : joinSegments [segment] = segment :=
  List.intercalate_singleton

theorem pieces_joinSegments (h : ∀ segment ∈ segments, Solid segment) :
    pieces (joinSegments segments) = segments := by
  induction segments with
  | nil => rfl
  | cons first more ih =>
    obtain ⟨hfirst, hmore⟩ := List.forall_mem_cons.1 h
    by_cases hne : more = []
    · rw [hne, joinSegments_singleton, pieces_of_solid hfirst]
    · rw [joinSegments_cons hne, pieces_append _ rfl, pieces_of_solid hfirst, ih hmore]
      rfl

theorem endsInSeparator_append (front : List Char) (h : rest ≠ []) :
    endsInSeparator (front ++ rest) = endsInSeparator rest := by
  rw [endsInSeparator, List.getLast?_append_of_ne_nil front h, endsInSeparator]

/-- joined segments begin and end in one of them -/
theorem joinSegments_ends (hne : segments ≠ []) (h : ∀ segment ∈ segments, Solid segment) :
    joinSegments segments ≠ [] ∧ startsAtRoot (joinSegments segments) = false ∧
      endsInSeparator (joinSegments segments) = false := by
  induction segments with
  | nil => exact absurd rfl hne
  | cons first more ih =>
    obtain ⟨⟨hfirst, hsolid⟩, hmore⟩ := List.forall_mem_cons.1 h
    obtain ⟨c, cs, rfl⟩ := List.exists_cons_of_ne_nil hfirst
    by_cases hnil : more = []
    · rw [hnil, joinSegments_singleton]
      refine ⟨hfirst, hsolid c List.mem_cons_self, ?_⟩
      rw [endsInSeparator, List.getLast?_eq_some_getLast hfirst]
      exact hsolid _ (List.getLast_mem hfirst)
    · obtain ⟨hjoin, -, hends⟩ := ih hnil hmore
      rw [joinSegments_cons hnil]
      refine ⟨by simp, hsolid c List.mem_cons_self, ?_⟩
      rwa [List.append_cons, endsInSeparator_append _ hjoin]

/-! ### What follows the drive -/

/-- the segments left of a path -/
def segmentsOf (rest : List Char) : List (List Char) := walk (startsAtRoot rest) (pieces rest)

theorem solid_of_mem_segmentsOf (h : segment ∈ segmentsOf rest) : Solid segment :=
  solid_of_mem_pieces (walk_subset _ _ h)

/-- the root, if the path begins there, and the segments left of it -/
def stem (rest : List Char) : List Char :=
  (if startsAtRoot rest then ['/'] else []) ++ joinSegments (segmentsOf rest)

theorem normalizeRest_eq (rest : List Char) : normalizeRest rest = stem rest ++
    if 1 < rest.length ∧ endsInSeparator rest ∧ segmentsOf rest ≠ [] then ['/'] else [] := by
  rw [normalizeRest, stem, segmentsOf, pieces, walk_filter]

theorem startsAtRoot_append (front : List Char) (h : rest ≠ []) :
    startsAtRoot (rest ++ front) = startsAtRoot rest := by
  cases rest with
  | nil => exact absurd rfl h
  | cons c cs => rfl

theorem ne_nil_of_startsAtRoot (h : startsAtRoot rest = true) : rest ≠ [] := by
  rintro rfl
  cases h

theorem startsAtRoot_behind (h : startsAtRoot rest = true) (back : List Char) :
    startsAtRoot (rest ++ back) = true :=
  (startsAtRoot_append back (ne_nil_of_startsAtRoot h)).trans h

/-- the normal form goes the same way from the same place -/
theorem startsAtRoot_stem (rest : List Char) : startsAtRoot (stem rest) = startsAtRoot rest := by
  rw [stem]
  cases hroot : startsAtRoot rest with
  | true => rfl
  | false =>
    by_cases hne : segmentsOf rest = []
    · rw [hne]
      rfl
    · exact (joinSegments_ends hne fun _ => solid_of_mem_segmentsOf).2.1

theorem pieces_stem (rest : List Char) : pieces (stem rest) = segmentsOf rest := by
  have hjoin : pieces (joinSegments (segmentsOf rest)) = segmentsOf rest :=
    pieces_joinSegments fun _ => solid_of_mem_segmentsOf
  rw [stem]
  split
  · exact (pieces_append [] rfl _).trans hjoin
  · exact hjoin

theorem segmentsOf_stem (rest : List Char) : segmentsOf (stem rest) = segmentsOf rest := by
  rw [segmentsOf, startsAtRoot_stem, pieces_stem, segmentsOf, walk_walk]

theorem stem_stem (rest : List Char) : stem (stem rest) = stem rest := by
  rw [stem, startsAtRoot_stem, segmentsOf_stem, ← stem]

/-- a path that has segments ends in one of them -/
theorem stem_ends (h : segmentsOf rest ≠ []) :
    stem rest ≠ [] ∧ endsInSeparator (stem rest) = false := by
  obtain ⟨hne, -, hends⟩ := joinSegments_ends h fun _ => solid_of_mem_segmentsOf
  rw [stem, endsInSeparator_append _ hne]
  exact ⟨by simp [hne], hends⟩

theorem startsAtRoot_normalizeRest (rest : List Char) :
    startsAtRoot (normalizeRest rest) = startsAtRoot rest := by
  rw [normalizeRest_eq]
  split
  · next h => rw [startsAtRoot_append _ (stem_ends h.2.2).1, startsAtRoot_stem]
  · rw [List.append_nil, startsAtRoot_stem]

/-- a separator at the end leaves the segments as they are -/
theorem segmentsOf_concat (hs : isSeparator s = true) (h : rest ≠ []) :
    segmentsOf (rest ++ [s]) = segmentsOf rest := by
  rw [segmentsOf, startsAtRoot_append _ h, pieces_append _ hs, pieces_nil, List.append_nil,
    segmentsOf]

theorem stem_concat (hs : isSeparator s = true) (h : rest ≠ []) :
    stem (rest ++ [s]) = stem rest := by
  rw [stem, startsAtRoot_append _ h, segmentsOf_concat hs h, stem]

/-- without segments nothing but the root is left -/
theorem normalizeRest_of_nil (h : segmentsOf rest = []) : normalizeRest rest = stem rest := by
  rw [normalizeRest_eq, if_neg (by simp [h]), List.append_nil]

theorem normalizeRest_concat_of_nil (hs : isSeparator s = true) (hne : rest ≠ [])
    (h : segmentsOf rest = []) : normalizeRest (rest ++ [s]) = normalizeRest rest := by
  rw [normalizeRest_of_nil h, normalizeRest_of_nil ((segmentsOf_concat hs hne).trans h),
    stem_concat hs hne]

theorem normalizeRest_separator (hs : isSeparator s = true) : normalizeRest [s] = ['/'] := by
  have hnil : segmentsOf [s] = [] :=
    congrArg (walk (startsAtRoot [s])) (pieces_append [] hs [])
  have hroot : startsAtRoot [s] = true := hs
  rw [normalizeRest_of_nil hnil, stem, hnil, if_pos hroot]
  rfl

/-- what follows the drive has its normal form for its own -/
theorem normalizeRest_normalizeRest (rest : List Char) :
    normalizeRest (normalizeRest rest) = normalizeRest rest := by
  by_cases hnil : segmentsOf rest = []
  · rw [normalizeRest_of_nil hnil, normalizeRest_of_nil ((segmentsOf_stem rest).trans hnil),
      stem_stem]
  · obtain ⟨hne, hends⟩ := stem_ends hnil
    rw [normalizeRest_eq rest]
    split
    · have hlong : 1 < (stem rest ++ ['/']).length := by
        have := List.length_pos_iff.2 hne
        simp
        omega
      rw [normalizeRest_eq, stem_concat rfl hne, stem_stem, segmentsOf_concat rfl hne,
        segmentsOf_stem, if_pos ⟨hlong, by rw [endsInSeparator_append _ (by simp)]; rfl, hnil⟩]
    · rw [List.append_nil, normalizeRest_eq, stem_stem, if_neg (by simp [hends]), List.append_nil]

/-! ### Whole paths -/

theorem isSeparator_of_isAlpha {c : Char} (hc : c.isAlpha = true) : isSeparator c = false := by
  rw [isSeparator, Bool.or_eq_false_iff, beq_eq_false_iff_ne, beq_eq_false_iff_ne]
  constructor <;> rintro rfl <;> cases hc

/-- a path begins with a drive or has none -/
theorem splitDrive_cases (path : List Char) :
    (∃ c rest, path = c :: ':' :: rest ∧ c.isAlpha = true ∧ splitDrive path = ([c, ':'], rest)) ∨
      splitDrive path = ([], path) := by
  fun_cases splitDrive path with
  | case1 c rest hc => exact .inl ⟨c, rest, rfl, hc, rfl⟩
  | case2 | case3 => exact .inr rfl

theorem splitDrive_drive {c : Char} (hc : c.isAlpha = true) (rest : List Char) :
    splitDrive (c :: ':' :: rest) = ([c, ':'], rest) := if_pos hc

theorem splitDrive_of_startsAtRoot (h : startsAtRoot path = true) :
    splitDrive path = ([], path) := by
  rcases splitDrive_cases path with ⟨c, rest, rfl, hc, -⟩ | heq
  · rw [startsAtRoot, isSeparator_of_isAlpha hc] at h
    cases h
  · exact heq

theorem splitDrive_of_ne {c d : Char} (h : d ≠ ':') (rest : List Char) :
    splitDrive (c :: d :: rest) = ([], c :: d :: rest) := by
  rcases splitDrive_cases (c :: d :: rest) with ⟨_, _, heq, -⟩ | heq
  · cases heq
    exact absurd rfl h
  · exact heq

theorem splitDrive_concat (path : List Char) (hs : isSeparator s = true) :
    splitDrive (path ++ [s]) = ((splitDrive path).1, (splitDrive path).2 ++ [s]) := by
  match path with
  | [] => rfl
  | [c] =>
    have hne : s ≠ ':' := by
      rintro rfl
      cases hs
    exact splitDrive_of_ne hne []
  | c :: d :: front =>
    by_cases hd : d = ':'
    · subst hd
      simp only [List.cons_append, splitDrive]
      split <;> rfl
    · rw [splitDrive_of_ne hd]
      exact splitDrive_of_ne hd _

/-- the path without a separator at its end, unless it is nothing but that -/
def dropTrailing (path : List Char) : List Char :=
  if 1 < path.length ∧ endsInSeparator path then path.dropLast else path

theorem dropTrailing_of_solid (h : endsInSeparator path = false) : dropTrailing path = path :=
  if_neg (by simp [h])

theorem dropTrailing_concat (hne : path ≠ []) (hs : isSeparator s = true) :
    dropTrailing (path ++ [s]) = path := by
  have hlong : 1 < (path ++ [s]).length := by
    have := List.length_pos_iff.2 hne
    simp
    omega
  have hends : endsInSeparator (path ++ [s]) = true := by
    rw [endsInSeparator_append _ (by simp)]
    exact hs
  rw [dropTrailing, if_pos ⟨hlong, hends⟩, List.dropLast_concat]

theorem dropTrailing_append_normalizeRest (drive : List Char) (h : segmentsOf rest ≠ []) :
    drive ++ normalizeRest rest ≠ [] ∧
      dropTrailing (drive ++ normalizeRest rest) = drive ++ stem rest := by
  obtain ⟨hne, hends⟩ := stem_ends h
  have hne' : drive ++ stem rest ≠ [] := by simp [hne]
  rw [normalizeRest_eq]
  split
  · rw [← List.append_assoc]
    exact ⟨by simp, dropTrailing_concat hne' rfl⟩
  · rw [List.append_nil]
    exact ⟨hne', dropTrailing_of_solid (by rw [endsInSeparator_append _ hne, hends])⟩

/-- a separator at the end makes no other place -/
theorem dropTrailing_normalize (hs : isSeparator s = true) (hne : path ≠ []) :
    dropTrailing (normalize (path ++ [s])) = dropTrailing (normalize path) := by
  rw [normalize, normalize, splitDrive_concat path hs]
  by_cases hrest : (splitDrive path).2 = []
  · -- nothing but a drive, which the separator makes absolute
    obtain ⟨c, rest, rfl, hc, heq⟩ | heq := splitDrive_cases path
    · rw [heq] at hrest ⊢
      obtain rfl : rest = [] := hrest
      change dropTrailing ([c, ':'] ++ normalizeRest [s]) = dropTrailing [c, ':']
      rw [normalizeRest_separator hs, dropTrailing_concat (by simp) rfl, dropTrailing_of_solid rfl]
    · rw [heq] at hrest
      exact absurd hrest hne
  by_cases hnil : segmentsOf (splitDrive path).2 = []
  · rw [normalizeRest_concat_of_nil hs hrest hnil]
  · obtain ⟨h1, h2⟩ := dropTrailing_append_normalizeRest (splitDrive path).1 hnil
    rw [← segmentsOf_concat hs hrest] at hnil
    obtain ⟨h3, h4⟩ := dropTrailing_append_normalizeRest (splitDrive path).1 hnil
    rw [if_neg h1, if_neg h3, h2, h4, stem_concat hs hrest]

theorem normalize_of_no_drive (h : splitDrive path = ([], path)) :
    normalize path = if normalizeRest path = [] then ['.'] else normalizeRest path := by
  rw [normalize, h]
  rfl

/-- The normal form of a path has itself for its normal form, unless the path has no root and a
drive has come to stand in front. -/
theorem normalize_normalize (h : isRooted path = true ∨ (splitDrive (normalize path)).1 = []) :
    normalize (normalize path) = normalize path := by
  have key : ∀ drive rest, splitDrive path = (drive, rest) → drive ++ normalizeRest rest ≠ [] →
      splitDrive (drive ++ normalizeRest rest) = (drive, normalizeRest rest) →
      normalize (normalize path) = normalize path := by
    intro drive rest hsplit hne hagain
    have hpath : normalize path = drive ++ normalizeRest rest := by
      rw [normalize, hsplit]
      exact if_neg hne
    rw [hpath, normalize, hagain, normalizeRest_normalizeRest]
    exact if_neg hne
  rcases splitDrive_cases path with ⟨c, rest, rfl, hc, heq⟩ | heq
  · exact key _ _ heq (by simp) (splitDrive_drive hc _)
  have hpath := normalize_of_no_drive heq
  by_cases hnil : normalizeRest path = []
  · rw [hpath, if_pos hnil]
    rfl
  · refine key [] path heq hnil ?_
    rcases h with h | h
    · rw [isRooted, heq] at h
      refine splitDrive_of_startsAtRoot ?_
      rw [List.nil_append, startsAtRoot_normalizeRest]
      simpa using h
    · rw [hpath, if_neg hnil] at h
      obtain ⟨c, rest, -, -, hdrive⟩ | hnone := splitDrive_cases (normalizeRest path)
      · rw [hdrive] at h
        cases h
      · exact hnone

theorem isRooted_concat (hs : isSeparator s = true) (hne : path ≠ []) :
    isRooted (path ++ [s]) = isRooted path := by
  rw [isRooted, isRooted, startsAtRoot_append _ hne, splitDrive_concat path hs]

theorem isRooted_append (h : isRooted path = true) (rest : List Char) :
    isRooted (path ++ rest) = true := by
  rw [isRooted, Bool.or_eq_true_iff] at h ⊢
  rcases splitDrive_cases path with ⟨c, back, rfl, hc, -⟩ | heq
  · exact .inr (by rw [List.cons_append, List.cons_append, splitDrive_drive hc]; rfl)
  · rw [heq] at h
    have hroot : startsAtRoot path = true := by simpa using h
    exact .inl (startsAtRoot_behind hroot rest)

/-- With a separator at its end a path names the same place.  It is in normal form, unless there is
no root and a drive has come to stand in front. -/
theorem resolve?_concat (hs : isSeparator s = true) (hne : path ≠ [])
    (hplain : path.any isWild = false) (base : List Char) : ∃ place place',
      resolve? path base = some place ∧ resolve? (path ++ [s]) base = some place' ∧
      dropTrailing place = dropTrailing place' ∧
      (isRooted path = true ∨ isRooted base = true ∨ (splitDrive place).1 = [] →
        normalize place = place) := by
  have hplain' : (path ++ [s]).any isWild = false := by
    have hwild : isWild s = false := by
      rcases Bool.or_eq_true_iff.1 hs with h | h <;> rw [eq_of_beq h] <;> rfl
    rw [List.any_append, hplain, Bool.false_or, List.any_cons, hwild]
    rfl
  rw [resolve?, resolve?, if_neg (Bool.eq_false_iff.1 hplain), if_neg (Bool.eq_false_iff.1 hplain'),
    isRooted_concat hs hne]
  split
  · next h =>
    refine ⟨_, _, rfl, rfl, (dropTrailing_normalize hs hne).symm, fun hroot => ?_⟩
    rcases Bool.or_eq_true_iff.1 h with hpath | hempty
    · exact normalize_normalize (.inl hpath)
    · have hbase : ¬isRooted base = true := by
        rw [List.isEmpty_iff.1 hempty]
        decide
      exact normalize_normalize (hroot.imp_right fun h => h.resolve_left hbase)
  · next h =>
    rw [Bool.or_eq_true_iff, not_or] at h
    refine ⟨_, _, rfl, rfl, ?_, fun hroot => ?_⟩
    · rw [← List.cons_append, ← List.append_assoc]
      exact (dropTrailing_normalize hs (by simp)).symm
    · exact normalize_normalize ((hroot.resolve_left h.1).imp_left fun hbase =>
        isRooted_append hbase _)

end ProjectSense.Path
