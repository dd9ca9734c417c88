import ProjectSense.Proofs.Path.Normal

/-!
# Where a path leads

Segments are walked from a directory: a name enters, `..` leaves, and a path with a root starts
over.  The normal form of a path leads where the path does, and there is one shape for its segments:
the empty one of a root, a run of `..` without a root, names, and the empty one after a separator at
the end.

* `Path.foldl_step_walk`: what a walk leaves leads where the segments do.
* `Path.splitOn_stem`, `Path.splitOn_normalizeRest`: the segments of a normal form.
* `Path.normalize_canonical`: the shape of a normal form, and where it leads.
-/

namespace ProjectSense.Path

variable {absolute : Bool} {path rest segment : List Char} {segments walked : List (List Char)}

/-- a segment walked from a directory, given by the names on the way to it, the last one first; at
the root there is nothing to leave -/
def step (directory : List (List Char)) (segment : List Char) : List (List Char) :=
  if segment = [] ∨ segment = ['.'] then directory
  else if segment = ['.', '.'] then directory.tail
  else segment :: directory

/-- where what follows a drive leads from a directory -/
def leadsTo (directory : List (List Char)) (rest : List Char) : List (List Char) :=
  (Text.splitOn isSeparator rest).foldl step (if startsAtRoot rest then [] else directory)

/-- The segments are those of a normal path: the empty one in front of a root, `ups` times `..`
without a root, the names, and the empty one after a separator at the end. -/
structure Canonical (rest : List Char) (ups : Nat) (names : List (List Char)) : Prop where
  segments : Text.splitOn isSeparator rest = (if startsAtRoot rest then [[]] else []) ++
    List.replicate ups ['.', '.'] ++ names ++ if endsInSeparator rest then [[]] else []
  relative : startsAtRoot rest = true → ups = 0
  names : ∀ segment ∈ names, IsName segment

/-! ### Walks -/

theorem step_name (directory : List (List Char)) (h : IsName segment) :
    step directory segment = segment :: directory := by
  obtain ⟨hblank, hhere, hup⟩ := h
  rw [step, if_neg (by simp [hblank, hhere]), if_neg hup]

theorem step_up (directory : List (List Char)) : step directory ['.', '.'] = directory.tail := rfl

/-- a segment entered after a walk is a segment walked after it -/
theorem foldl_step_enter (h : Walked absolute walked) {directory : List (List Char)}
    (hroot : absolute = true → directory = []) (segment : List Char) :
    (enter absolute walked segment).reverse.foldl step directory =
      step (walked.reverse.foldl step directory) segment := by
  by_cases hup : segment = ['.', '.']
  · rw [hup, enter_up]
    cases h with
    | nil =>
      cases absolute with
      | true =>
        rw [hroot rfl]
        rfl
      | false => rfl
    | up hrel hups h =>
      dsimp only
      rw [if_pos rfl, List.reverse_cons, List.foldl_concat]
    | name hname h =>
      -- the name that was entered last is left
      dsimp only
      rw [if_neg hname.2.2, List.reverse_cons, List.foldl_concat, step_name _ hname, step_up]
      rfl
  · unfold enter
    split
    · next hstay => rw [step, if_pos hstay]
    · next hmove =>
      rw [not_or] at hmove
      rw [List.reverse_cons, List.foldl_concat, step_name _ ⟨hmove.1, hmove.2, hup⟩]

/-- what a walk leaves leads where the segments do -/
theorem foldl_step_walk {directory : List (List Char)} (hroot : absolute = true → directory = [])
    (segments : List (List Char)) :
    (walk absolute segments).foldl step directory = segments.foldl step directory := by
  rw [walk]
  induction segments using List.reverseRecOn with
  | nil => rfl
  | append_singleton before last ih =>
    rw [List.foldl_concat, List.foldl_concat, ← ih]
    exact foldl_step_enter (walked_foldl absolute before) hroot last

/-- segments without anything in them lead nowhere -/
theorem foldl_step_pieces (directory : List (List Char)) (path : List Char) :
    (pieces path).foldl step directory = (Text.splitOn isSeparator path).foldl step directory := by
  rw [pieces, List.foldl_filter]
  congr 1
  funext directory segment
  split
  · rfl
  · next h => exact (if_pos (.inl (by simpa using h))).symm

theorem pieces_normalizeRest (rest : List Char) :
    pieces (normalizeRest rest) = segmentsOf rest := by
  rw [normalizeRest_eq]
  split
  · rw [pieces_append _ rfl, pieces_stem, pieces_nil, List.append_nil]
  · rw [List.append_nil, pieces_stem]

theorem leadsTo_normalizeRest (directory : List (List Char)) (rest : List Char) :
    leadsTo directory (normalizeRest rest) = leadsTo directory rest := by
  rw [leadsTo, leadsTo, startsAtRoot_normalizeRest, ← foldl_step_pieces, ← foldl_step_pieces,
    pieces_normalizeRest, segmentsOf]
  exact foldl_step_walk (fun h => if_pos h) _

/-! ### Segments of a normal form -/

/-- what a walk leaves: names, entered after a run of `..` that no root has -/
theorem Walked.exists_names (h : Walked absolute walked) : ∃ names ups,
    walked = names ++ List.replicate ups ['.', '.'] ∧ (absolute = true → ups = 0) ∧
      ∀ segment ∈ names, IsName segment := by
  induction h with
  | nil => exact ⟨[], 0, rfl, fun _ => rfl, by simp⟩
  | up hrel hups h ih =>
    obtain ⟨names, ups, rfl, -, hnames⟩ := ih
    -- the last one so far is `..`, which is no name
    obtain rfl : names = [] := by
      cases names with
      | nil => rfl
      | cons last names => exact absurd (hups last rfl) (hnames last List.mem_cons_self).2.2
    exact ⟨[], ups + 1, rfl, by simp [hrel], by simp⟩
  | name hname h ih =>
    obtain ⟨names, ups, rfl, hroot, hnames⟩ := ih
    exact ⟨_ :: names, ups, rfl, hroot, List.forall_mem_cons.2 ⟨hname, hnames⟩⟩

theorem splitOn_joinSegments (hne : segments ≠ []) (h : ∀ segment ∈ segments, Solid segment) :
    Text.splitOn isSeparator (joinSegments segments) = segments := by
  induction segments with
  | nil => exact absurd rfl hne
  | cons first more ih =>
    obtain ⟨hfirst, hmore⟩ := List.forall_mem_cons.1 h
    have hsplit : Text.splitOn isSeparator first = [first] := Text.splitOn_eq_singleton hfirst.2
    by_cases hnil : more = []
    · rw [hnil, joinSegments_singleton, hsplit]
    · rw [joinSegments_cons hnil, Text.splitOn_append _ rfl, hsplit, ih hnil hmore]
      rfl

/-- the segments left of a path, after the empty one of its root -/
theorem splitOn_stem (h : segmentsOf rest ≠ []) : Text.splitOn isSeparator (stem rest) =
    (if startsAtRoot rest then [[]] else []) ++ segmentsOf rest := by
  have hjoin := splitOn_joinSegments h fun _ => solid_of_mem_segmentsOf
  rw [stem]
  split
  · exact (Text.splitOn_append [] rfl _).trans (congrArg ([[]] ++ ·) hjoin)
  · exact hjoin

/-- where segments are left, the normal form ends in a separator or in the last of them -/
theorem splitOn_normalizeRest (h : segmentsOf rest ≠ []) :
    Text.splitOn isSeparator (normalizeRest rest) = (if startsAtRoot rest then [[]] else []) ++
      segmentsOf rest ++ if endsInSeparator (normalizeRest rest) then [[]] else [] := by
  obtain ⟨hne, hends⟩ := stem_ends h
  rw [normalizeRest_eq]
  split
  · have hlast : endsInSeparator (stem rest ++ ['/']) = true := by
      rw [endsInSeparator_append _ (by simp)]
      rfl
    rw [if_pos hlast, Text.splitOn_append _ rfl, splitOn_stem h]
    rfl
  · rw [List.append_nil, hends, splitOn_stem h]
    exact (List.append_nil _).symm

theorem canonical_normalizeRest (h : normalizeRest rest ≠ []) :
    ∃ ups names, Canonical (normalizeRest rest) ups names := by
  by_cases hnil : segmentsOf rest = []
  · -- nothing is left but the root
    rw [normalizeRest_of_nil hnil, stem, hnil] at h ⊢
    cases hroot : startsAtRoot rest with
    | true => exact ⟨0, [], by decide, fun _ => rfl, by simp⟩
    | false =>
      rw [hroot] at h
      exact absurd rfl h
  obtain ⟨names, ups, hwalk, hroot, hnames⟩ := (walked_foldl (startsAtRoot rest)
    (pieces rest)).exists_names
  have hsegments : segmentsOf rest = List.replicate ups ['.', '.'] ++ names.reverse := by
    rw [segmentsOf, walk, hwalk, List.reverse_append, List.reverse_replicate]
  refine ⟨ups, names.reverse, ?_, ?_, ?_⟩
  · rw [splitOn_normalizeRest hnil, startsAtRoot_normalizeRest, hsegments,
      List.append_assoc _ _ names.reverse]
  · rw [startsAtRoot_normalizeRest]
    exact hroot
  · exact fun segment hmem => hnames segment (List.mem_reverse.1 hmem)

theorem not_mem_joinSegments (h : ∀ segment ∈ segments, Solid segment) :
    '\\' ∉ joinSegments segments := by
  induction segments with
  | nil => exact List.not_mem_nil
  | cons first more ih =>
    obtain ⟨hfirst, hmore⟩ := List.forall_mem_cons.1 h
    have hne : '\\' ∉ first := fun hc => absurd (hfirst.2 _ hc) (by decide)
    by_cases hnil : more = []
    · rwa [hnil, joinSegments_singleton]
    · rw [joinSegments_cons hnil]
      simp [hne, ih hmore]

theorem not_mem_normalizeRest (rest : List Char) : '\\' ∉ normalizeRest rest := by
  have hjoin := not_mem_joinSegments fun segment => @solid_of_mem_segmentsOf rest segment
  rw [normalizeRest_eq, stem]
  split <;> split <;> simpa using hjoin

/-- The normal form of a path keeps the drive, the root and the place: from every directory it leads
where the path does.  After the drive it is empty only where there is one, it is a `.` alone, or it
has the segments of a normal path. -/
theorem normalize_canonical (path : List Char) : ∃ rest,
    normalize path = (splitDrive path).1 ++ rest ∧ '\\' ∉ rest ∧
    startsAtRoot rest = startsAtRoot (splitDrive path).2 ∧
    (rest = [] ∧ (splitDrive path).1 ≠ [] ∨ normalize path = ['.'] ∨
      ∃ ups names, Canonical rest ups names) ∧
    ∀ directory, leadsTo directory rest = leadsTo directory (splitDrive path).2 := by
  have hslash := not_mem_normalizeRest (splitDrive path).2
  have hroot := startsAtRoot_normalizeRest (splitDrive path).2
  have hleads := fun directory => leadsTo_normalizeRest directory (splitDrive path).2
  rw [normalize]
  generalize (splitDrive path).1 = drive, (splitDrive path).2 = rest at *
  by_cases hout : drive ++ normalizeRest rest = []
  · -- nothing is left, and a `.` stands for it
    obtain ⟨rfl, hnil⟩ := List.append_eq_nil_iff.1 hout
    rw [hnil] at hroot hleads
    exact ⟨['.'], if_pos hout, by decide, hroot, .inr (.inl (if_pos hout)), hleads⟩
  · refine ⟨normalizeRest rest, if_neg hout, hslash, hroot, ?_, hleads⟩
    by_cases hnil : normalizeRest rest = []
    · exact .inl ⟨hnil, fun hdrive => hout (by rw [hdrive, hnil]; rfl)⟩
    · exact .inr (.inr (canonical_normalizeRest hnil))

end ProjectSense.Path
