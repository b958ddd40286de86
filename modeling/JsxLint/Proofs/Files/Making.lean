import JsxLint.Proofs.Files.Growing
import JsxLint.Proofs.Files.Keeping
import JsxLint.Run.Project

/-!
# Making directories and writing into them

Making directories adds to a file tree what is missing and takes nothing away, so what was in the way
of a new file still is. A file can be written into a directory that is there when nothing stands at
its place, unless the directory is locked, or a file that may be written.

* `Files.follow_append`, `Files.isDirectoryAt_of_follow`: names that follow others;
* `Files.makeDirectories_grown`: what making directories does;
* `Files.TakesFile`: paths to which bytes can be written;
* `Files.writeReport_error_eq_none`: when a report can be written;
* `Files.writeReport_of_directory`, `Files.writeReport_of_file`: reports that cannot be.
-/

namespace JsxLint.Files

variable {f g : Files} {here directory place : RealPath} {names rest : List String} {p : Path}
  {links : Nat} {entry : Entry} {q : RealPath}

/-! ### Names behind names -/

theorem follow_of_arrived (h : f.advance here names = .arrived place) :
    f.follow links here names = .ok place := by
  unfold follow
  rw [h]

/-- Names that follow others are followed from where these come to, with the links that are left. -/
theorem follow_append (hfollow : f.follow links here names = .ok directory)
    (hstands : f.get? directory ≠ none) : ∃ left ≤ links, ∀ rest,
      f.follow links here (names ++ rest) = f.follow left directory rest := by
  fun_induction follow f links here names with
  | case1 links here names found ha =>
    cases hfollow
    refine ⟨links, Nat.le_refl links, fun rest => ?_⟩
    rw [Files.follow.eq_def, Files.follow.eq_def f links directory,
      advance_append_of_arrived ha hstands]
  | case2 links here names error ha => cases hfollow
  | case3 here names there target others ha => cases hfollow
  | case4 here names there target others ha links ih =>
    obtain ⟨left, hleft, hrest⟩ := ih hfollow
    refine ⟨left, by omega, fun rest => ?_⟩
    rw [← hrest, Files.follow.eq_def, advance_append_of_atLink ha, List.append_assoc]

/-- Names that follow others fail if these do not come to a directory. -/
theorem advance_append_failed (hrest : rest ≠ [])
    (h : (∃ e, f.advance here names = .failed e) ∨
      ∃ p, f.advance here names = .arrived p ∧ f.isDirectoryAt p = false) :
    ∃ e, f.advance here (names ++ rest) = .failed e := by
  fun_induction advance f here names with
  | case1 here =>
    rcases h with ⟨e, he⟩ | ⟨p, hp, hd⟩
    · cases he
    · cases hp
      cases rest with
      | nil => exact absurd rfl hrest
      | cons name rest => exact ⟨.notDirectory, by simp [advance, hd]⟩
  | case2 here name names hd => exact ⟨.notDirectory, by simp [advance, hd]⟩
  | case3 here names hd ih => simpa [advance, hd] using ih h
  | case4 here names hd _ ih => simpa [advance, hd] using ih h
  | case5 here name names hd hdot hup hlong =>
    exact ⟨.nameTooLong, by simp [advance, hd, hdot, hup, hlong]⟩
  | case6 here name names hd hdot hup hlong target hlink => simp at h
  | case7 here name names hd hdot hup hlong entry hlink hentry ih =>
    cases entry with
    | link target => exact (hlink target rfl).elim
    | _ => simpa [advance, hd, hdot, hup, hlong, hentry] using ih h
  | case8 here name names hd hdot hup hlong hentry hlast =>
    refine ⟨.missing, ?_⟩
    simp [advance, hd, hdot, hup, hlong, hentry, hrest]
  | case9 here name names hd hdot hup hlong hentry hlast =>
    refine ⟨.missing, ?_⟩
    simp [advance, hd, hdot, hup, hlong, hentry, hrest]

/-- What comes before names that lead somewhere leads to a directory. -/
theorem isDirectoryAt_of_follow (hrest : rest ≠ [])
    (h : f.follow links here (names ++ rest) = .ok q) :
    ∃ directory, f.follow links here names = .ok directory ∧ f.isDirectoryAt directory := by
  fun_induction follow f links here names with
  | case1 links here names found ha =>
    refine ⟨found, rfl, ?_⟩
    by_contra hd
    obtain ⟨e, he⟩ := advance_append_failed hrest (.inr ⟨found, ha, by simpa using hd⟩)
    rw [Files.follow.eq_def, he] at h
    cases h
  | case2 links here names error ha =>
    obtain ⟨e, he⟩ := advance_append_failed hrest (.inl ⟨error, ha⟩)
    rw [Files.follow.eq_def, he] at h
    cases h
  | case3 here names there target others ha =>
    rw [Files.follow.eq_def, advance_append_of_atLink ha] at h
    cases h
  | case4 here names there target others ha links ih =>
    rw [Files.follow.eq_def, advance_append_of_atLink ha] at h
    dsimp only at h
    rw [← List.append_assoc] at h
    exact ih h

/-! ### The directory of a path -/

/-- The text of names with one more. -/
theorem joined_concat {separator : String} {parts : List String} (hne : parts ≠ [])
    (last : String) : Text.joined separator (parts ++ [last]) =
      Text.joined separator parts ++ separator ++ last := by
  have hlists : ∀ ls : List (List Char), ls ≠ [] →
      separator.toList.intercalate (ls ++ [last.toList]) =
        separator.toList.intercalate ls ++ separator.toList ++ last.toList := by
    intro ls hls
    induction ls with
    | nil => exact absurd rfl hls
    | cons a ls ih =>
      cases ls with
      | nil => simp [List.intercalate_cons_cons]
      | cons b ls =>
        rw [List.cons_append, List.cons_append, List.intercalate_cons_cons, ← List.cons_append,
          ih (by simp), List.intercalate_cons_cons]
        simp only [List.append_assoc]
  apply String.toList_injective
  unfold Text.joined
  simpa [String.toList_intercalate] using hlists (parts.map String.toList) (by simpa using hne)

/-- The directory of a path that is not too long is not either. -/
theorem size_parent_le (p : Path) (hsize : p.toString.utf8ByteSize ≤ pathLimit) :
    p.parent.toString.utf8ByteSize ≤ pathLimit := by
  rcases List.eq_nil_or_concat p.names with hnil | ⟨init, last, hnames⟩
  · have hparent : p.parent = p := by
      cases p
      simp_all [Path.parent]
    rwa [hparent]
  · have hparent : p.parent = ⟨p.anchor, init⟩ := by simp [Path.parent, hnames]
    have htext : p.toString = p.anchor ++ Text.joined "/" (init ++ [last]) := by
      simp [Path.toString, hnames]
    rw [hparent]
    rw [htext, String.utf8ByteSize_append] at hsize
    unfold Path.toString
    by_cases hinit : init = []
    · subst hinit
      by_cases hanchor : p.anchor = ""
      · simp only [hanchor, List.isEmpty_nil, decide_true, Bool.and_self, if_true]
        decide
      · simp only [hanchor, List.isEmpty_nil, decide_false, Bool.false_and, Bool.false_eq_true,
          if_false, String.utf8ByteSize_append]
        have hnone : (Text.joined "/" []).utf8ByteSize = 0 := rfl
        omega
    · rw [joined_concat hinit, String.utf8ByteSize_append, String.utf8ByteSize_append] at hsize
      have hsome : init.isEmpty = false := by simpa using hinit
      simp only [hsome, Bool.and_false, Bool.false_eq_true, if_false, String.utf8ByteSize_append]
      omega

theorem names_eq_concat (hne : p.names ≠ []) : p.names = p.parent.names ++ [p.name] := by
  unfold Path.parent Path.name
  rw [List.getLast?_eq_some_getLast hne, Option.getD_some, List.dropLast_append_getLast hne]

theorem hasNull_parent (hnull : p.hasNull = false) : p.parent.hasNull = false := by
  unfold Path.hasNull Path.parent at *
  rw [List.any_eq_false] at hnull ⊢
  intro name hname
  exact hnull name (List.dropLast_subset _ hname)

/-- A path that leads somewhere has a directory. -/
theorem locate_parent (hne : p.names ≠ []) (h : f.locate p = .ok q) :
    ∃ directory, f.locate p.parent = .ok directory ∧ f.isDirectoryAt directory := by
  unfold locate at h ⊢
  split_ifs at h with hnull hsize
  rw [hasNull_parent (by simpa using hnull)]
  have hparent := size_parent_le p (by omega)
  rw [if_neg (by simp), if_neg (by omega)]
  rw [names_eq_concat hne] at h
  exact isDirectoryAt_of_follow (by simp) h

/-- A path leads where its name leads from its directory. -/
theorem locate_of_parent (hne : p.names ≠ []) (hnull : p.hasNull = false)
    (hsize : p.toString.utf8ByteSize ≤ pathLimit) (hlocate : f.locate p.parent = .ok directory)
    (hd : f.isDirectoryAt directory) :
    ∃ left ≤ linkLimit, f.locate p = f.follow left directory [p.name] := by
  unfold locate at hlocate ⊢
  split_ifs at hlocate
  obtain ⟨left, hleft, hrest⟩ := follow_append hlocate (by simp [isDirectoryAt_iff.1 hd])
  refine ⟨left, hleft, ?_⟩
  rw [hnull, if_neg (by simp), if_neg (by omega), ← hrest, ← names_eq_concat hne]
  rfl

theorem find_of_locate (hlocate : f.locate p = .ok q) (hq : f.get? q = some entry) :
    f.find p = .ok (q, entry) := by
  unfold find
  rw [hlocate]
  simp only [Except.bind, hq]

theorem isDirectory_of_locate (hlocate : f.locate p = .ok q) (hq : f.isDirectoryAt q) :
    f.isDirectory p := by
  unfold isDirectory
  rw [find_of_locate hlocate (isDirectoryAt_iff.1 hq)]

/-! ### Making -/

theorem Grown.trans {k : Files} (hg : f.Grown g) (hk : g.Grown k) : f.Grown k := by
  constructor
  · exact hk.working.trans hg.working
  · exact hk.locked.trans hg.locked
  · intro r content mode hr
    obtain ⟨content, mode, hr⟩ := hg.file hr
    exact hk.file hr
  · exact fun hr => hk.directory (hg.directory hr)
  · exact fun hr => hk.link (hg.link hr)

/-- A file tree grows when something is put where nothing stood. -/
theorem Grown.put_new (hq : q ≠ []) (hnone : f.get? q = none) (e : Entry) :
    f.Grown (f.put q e) := by
  have hkept : ∀ {r d}, f.get? r = some d → (f.put q e).get? r = some d := by
    intro r d hr
    rw [get?_put hq, if_neg, hr]
    rintro rfl
    rw [hnone] at hr
    cases hr
  exact ⟨rfl, rfl, fun {_ content mode} hr => ⟨content, mode, hkept hr⟩, hkept, hkept⟩

/-- Where a directory is made. -/
theorem makeDirectory_eq_ok (hmake : f.makeDirectory p = .ok g) :
    p.names ≠ [] ∧ p.toString.utf8ByteSize ≤ pathLimit ∧ p.hasNull = false ∧ ∃ directory,
      f.locate p.parent = .ok directory ∧ f.isDirectoryAt directory ∧ isTooLong p.name = false ∧
      (p.name ≠ "." ∧ p.name ≠ "..") ∧ f.get? (directory ++ [p.name]) = none ∧
      g = f.put (directory ++ [p.name]) .directory := by
  unfold makeDirectory at hmake
  split_ifs at hmake with hempty hsize
  · cases hfind : f.find p <;> rw [hfind] at hmake <;> cases hmake
  · simp only [Bool.or_eq_true, List.isEmpty_iff, decide_eq_true_eq, not_or, and_assoc] at hempty
    cases hentry : f.locateEntry p with
    | error e =>
      rw [hentry] at hmake
      cases hmake
    | ok place =>
      rw [hentry] at hmake
      simp only [Except.bind] at hmake
      split_ifs at hmake with hthere hlocked
      cases hmake
      have hp : p = p.parent.child p.name := by
        rcases p with ⟨anchor, names⟩
        exact congrArg (Path.mk anchor) (names_eq_concat (p := ⟨anchor, names⟩) hempty.1)
      rw [hp, locateEntry_child_iff, ← hp] at hentry
      obtain ⟨hnull, directory, hlocate, hd, hlong, rfl⟩ := hentry
      exact ⟨hempty.1, by omega, hnull, directory, hlocate, hd, hlong, hempty.2,
        by simpa using hthere, rfl⟩

/-- A directory that is there after it was made or found. -/
theorem ensureDirectory_grown (hensure : f.ensureDirectory p = .ok g) :
    f.Grown g ∧ g.isDirectory p := by
  unfold ensureDirectory at hensure
  split at hensure
  · next made hmake =>
    cases hensure
    obtain ⟨hne, hsize, hnull, directory, hlocate, hd, hlong, hdots, hnone, rfl⟩ :=
      makeDirectory_eq_ok hmake
    have hgrown : f.Grown (f.put (directory ++ [p.name]) .directory) := .put_new (by simp) hnone _
    refine ⟨hgrown, ?_⟩
    have hplace : (f.put (directory ++ [p.name]) .directory).isDirectoryAt
        (directory ++ [p.name]) := by
      rw [isDirectoryAt_iff, get?_put (by simp), if_pos rfl]
    have hparent := hgrown.locate hlocate (isDirectoryAt_iff.1 hd)
    have hd' := hgrown.isDirectoryAt hd
    obtain ⟨left, -, hleft⟩ := locate_of_parent hne hnull hsize hparent hd'
    refine isDirectory_of_locate (q := directory ++ [p.name]) ?_ hplace
    rw [hleft]
    refine follow_of_arrived ?_
    simp [Files.advance, hd', hdots, hlong, isDirectoryAt_iff.1 hplace]
  · next e hmake =>
    split_ifs at hensure with hthere
    cases hensure
    exact ⟨.refl f, (Bool.and_eq_true _ _ ▸ hthere).2⟩

/-- Making directories takes nothing away, and when it succeeds the directory is there. -/
theorem makeDirectoriesFrom_grown (f : Files) (p : Path) (above : Nat) :
    f.Grown (f.makeDirectoriesFrom p above).files ∧
      ((f.makeDirectoriesFrom p above).error = none →
        (f.makeDirectoriesFrom p above).files.isDirectory p) := by
  have hattempt : ∀ (f : Files) (p : Path), f.Grown (f.attempt (f.ensureDirectory p)).files ∧
      ((f.attempt (f.ensureDirectory p)).error = none →
        (f.attempt (f.ensureDirectory p)).files.isDirectory p) := by
    intro f p
    cases hensure : f.ensureDirectory p with
    | ok g => exact ⟨(ensureDirectory_grown hensure).1, fun _ => (ensureDirectory_grown hensure).2⟩
    | error e => exact ⟨.refl f, fun h => by cases h⟩
  induction above generalizing f p with
  | zero => exact hattempt f p
  | succ above ih =>
    unfold makeDirectoriesFrom
    split
    · dsimp only
      split_ifs with hfailed
      · refine ⟨(ih f p.parent).1, fun hnone => ?_⟩
        rw [hnone] at hfailed
        cases hfailed
      · have hlater := hattempt (f.makeDirectoriesFrom p.parent above).files p
        exact ⟨(ih f p.parent).1.trans hlater.1, hlater.2⟩
    · exact hattempt f p

theorem makeDirectories_grown (f : Files) (p : Path) : f.Grown (f.makeDirectories p).files ∧
    ((f.makeDirectories p).error = none → (f.makeDirectories p).files.isDirectory p) :=
  makeDirectoriesFrom_grown f p p.names.length

theorem isDirectory_iff_locate :
    f.isDirectory p ↔ ∃ place, f.locate p = .ok place ∧ f.isDirectoryAt place := by
  constructor
  · intro h
    unfold isDirectory at h
    split at h
    · next place hfind =>
      exact ⟨place, locate_of_find hfind, isDirectoryAt_iff.2 (get?_of_find hfind)⟩
    · cases h
  · rintro ⟨place, hlocate, hplace⟩
    exact isDirectory_of_locate hlocate hplace

/-- What leads to a directory has a directory above it. -/
theorem isDirectory_parent (h : f.isDirectory p) : f.isDirectory p.parent := by
  by_cases hne : p.names = []
  · have hparent : p.parent = p := by
      cases p
      simp_all [Path.parent]
    rwa [hparent]
  · obtain ⟨place, hlocate, -⟩ := isDirectory_iff_locate.1 h
    exact isDirectory_iff_locate.2 (locate_parent hne hlocate)

/-- A directory that is there is not made. -/
theorem ensureDirectory_of_isDirectory (h : f.isDirectory p) : f.ensureDirectory p = .ok f := by
  have hmake : ∃ e, f.makeDirectory p = .error e ∧ e ≠ .missing := by
    obtain ⟨place, hlocate, hplace⟩ := isDirectory_iff_locate.1 h
    unfold makeDirectory
    split_ifs with hempty hsize
    · rw [find_of_locate hlocate (isDirectoryAt_iff.1 hplace)]
      exact ⟨.exists, rfl, by simp⟩
    · exact ⟨.nameTooLong, rfl, by simp⟩
    · simp only [Bool.or_eq_true, List.isEmpty_iff, decide_eq_true_eq, not_or, and_assoc] at hempty
      obtain ⟨hne, hdots⟩ := hempty
      obtain ⟨directory, hparent, hd⟩ := locate_parent hne hlocate
      have hnull : p.hasNull = false := (leads_of_locate hlocate).1
      unfold locateEntry
      rw [hnull, hparent]
      cases hlong : isTooLong p.name with
      | true => exact ⟨.nameTooLong, by simp [Except.bind, hd], by simp⟩
      | false =>
        refine ⟨.exists, ?_, by simp⟩
        cases hentry : f.get? (directory ++ [p.name]) with
        | some entry => simp [Except.bind, hd, hentry]
        | none =>
          -- the path would lead to nothing
          obtain ⟨left, -, hleft⟩ := locate_of_parent hne hnull (by omega) hparent hd
          have harrived : f.advance directory [p.name] = .arrived (directory ++ [p.name]) := by
            simp [Files.advance, hd, hdots, hlong, hentry]
          rw [hleft, follow_of_arrived harrived] at hlocate
          cases hlocate
          rw [isDirectoryAt_iff, hentry] at hplace
          cases hplace
  obtain ⟨e, he, hne⟩ := hmake
  unfold ensureDirectory
  rw [he]
  simp [hne, h]

/-- Directories that are there are not made. -/
theorem makeDirectories_of_isDirectory (h : f.isDirectory p) : f.makeDirectories p = ⟨f, none⟩ := by
  unfold makeDirectories
  cases p.names.length with
  | zero =>
    unfold makeDirectoriesFrom
    rw [ensureDirectory_of_isDirectory h]
    rfl
  | succ above =>
    unfold makeDirectoriesFrom
    rw [ensureDirectory_of_isDirectory h]
    rfl

/-! ### Reports -/

variable {report : Report} {timestamp : String}

/-- Whether a path leads to a file that may be written, or to nothing in a directory that is not
locked. -/
def TakesFile (f : Files) (p : Path) : Prop :=
  ∃ place, f.locate p = .ok place ∧ (f.get? place = none ∧ place.dropLast ∉ f.locked ∨
    ∃ old mode, f.get? place = some (.file old mode) ∧ isWritable mode)

/-- When bytes can be written to a path. -/
theorem write_eq_ok_iff (bytes : Bytes) : (∃ g, f.write p bytes = .ok g) ↔ f.TakesFile p := by
  unfold write TakesFile
  cases hlocate : f.locate p with
  | error e => simp [Except.bind]
  | ok place =>
    simp only [Except.bind, Except.ok.injEq, exists_eq_left']
    cases hentry : f.get? place with
    | none => by_cases hlocked : place.dropLast ∈ f.locked <;> simp [hlocked]
    | some entry =>
      cases entry with
      | file old mode => cases hmode : isWritable mode <;> simp [hmode]
      | _ => simp

/-- A report is written when the directories above it can be made and it can be written into what
they come to. -/
theorem writeReport_error_eq_none : (f.writeReport report p timestamp).error = none ↔
    (f.makeDirectories p.parent).error = none ∧
      (f.makeDirectories p.parent).files.TakesFile p := by
  rw [← write_eq_ok_iff (Utf8.encode (report.fileText timestamp))]
  unfold writeReport
  dsimp only
  cases hmade : (f.makeDirectories p.parent).error with
  | some e => simp [hmade]
  | none =>
    cases (f.makeDirectories p.parent).files.write p (Utf8.encode (report.fileText timestamp)) <;>
      simp [attempt]

/-- A report takes the place of no directory. -/
theorem writeReport_of_directory (h : f.isDirectory p) :
    f.writeReport report p timestamp = ⟨f, some .isDirectory⟩ := by
  obtain ⟨place, hlocate, hplace⟩ := isDirectory_iff_locate.1 h
  unfold writeReport write
  rw [makeDirectories_of_isDirectory (isDirectory_parent h)]
  dsimp only
  rw [hlocate]
  simp only [Except.bind, isDirectoryAt_iff.1 hplace]
  rfl

/-- No report is written below a file. -/
theorem writeReport_of_file {names : List String} {old : Bytes} {mode : Nat}
    (habove : names <+: p.parent.names)
    (hfile : f.find ⟨p.anchor, names⟩ = .ok (place, .file old mode)) :
    (f.writeReport report p timestamp).error ≠ none := by
  obtain ⟨hgrown, hthere⟩ := makeDirectories_grown f p.parent
  unfold writeReport
  dsimp only
  split_ifs with hfailed
  · intro hnone
    rw [hnone] at hfailed
    cases hfailed
  · exfalso
    obtain ⟨rest, hrest⟩ := habove
    obtain ⟨directory, hlocate, hd⟩ := isDirectory_iff_locate.1 (hthere (by simpa using hfailed))
    obtain ⟨content, mode', hplace⟩ := hgrown.file (get?_of_find hfile)
    have hleads := (leads_of_find (hgrown.find hfile hplace)).2.1
    have hdirectory := (leads_of_locate hlocate).2
    rw [← hrest] at hdirectory
    exact LeadsToFile.not_leads ⟨place, content, hleads, hplace⟩ hd hdirectory

end JsxLint.Files
