import JsxLint.Proofs.Scan.Shown
import Mathlib.Data.List.Perm.Subperm
import Mathlib.Data.String.Basic

/-!
# The directories that a scan enters

A scan enters one directory after the other, each once, under the names by which it comes there
first. Nothing on these ways is left out, so neither is anything on the way to a file that it takes.

* `Selection.visits`: the directories that a walk enters, with the names by which it comes there;
* `Selection.walk_eq_flatMap`: what it takes are the files in these directories;
* `Selection.Way`: ways through directories on which nothing is left out;
* `Settings.Wants`: what settings ask of a file;
* `Settings.scan_sound`: every scanned file is such a one, and none is scanned twice.
-/

namespace JsxLint

/-- The names in a directory are distinct when all entries have places of their own. -/
theorem Files.nodup_names {f : Files} (hf : f.places.Nodup) (directory : RealPath) :
    (f.names directory).Nodup := by
  have hnames : f.names directory = f.places.filterMap fun p =>
      if p.dropLast = directory then p.getLast? else none := by
    unfold places names
    rw [List.filterMap_map]
    rfl
  rw [hnames]
  refine List.Nodup.filterMap (fun p q name hp hq => ?_) hf
  rw [Option.mem_def, Option.ite_none_right_eq_some] at hp hq
  rw [← List.dropLast_append_getLast? name hp.2, ← List.dropLast_append_getLast? name hq.2,
    hp.1, hq.1]

namespace Selection

variable {s : Selection} {f : Files} {root : Path} {visited : List RealPath} {pending : List Names}
  {names : Names} {here there : RealPath} {name : String}

/-! ### Entered directories -/

/-- The directories that a walk enters, each with the names by which it comes there. -/
def visits (s : Selection) (f : Files) (root : Path) (visited : List RealPath) :
    List Names → List (Names × RealPath)
  | [] => []
  | names :: pending =>
    match _ : f.find (below root names) with
    | .ok (here, .directory) =>
      if _ : here ∈ visited then s.visits f root visited pending
      else (names, here) ::
        s.visits f root (here :: visited) (s.subdirectories f root names here ++ pending)
    | _ => s.visits f root visited pending
termination_by pending => (f.unvisited visited, pending.length)
decreasing_by
  · exact Prod.Lex.right _ (by simp)
  · exact Prod.Lex.left _ _
      (Files.unvisited_cons_lt (Files.mem_directories (Files.get?_of_find ‹_›)) ‹_›)
  · exact Prod.Lex.right _ (by simp)

/-- The directories that a scan enters. -/
def entered (s : Selection) (f : Files) (root : Path) : List (Names × RealPath) :=
  s.visits f root [] [[]]

theorem visits_cons_of_new (hfind : f.find (below root names) = .ok (here, .directory))
    (hvisited : here ∉ visited) : s.visits f root visited (names :: pending) =
      (names, here) ::
        s.visits f root (here :: visited) (s.subdirectories f root names here ++ pending) := by
  rw [visits]
  split
  · next other hother =>
    cases hfind.symm.trans hother
    rw [dif_neg hvisited]
  · next hne => exact absurd hfind (hne here)

theorem visits_cons_of_visited (hfind : f.find (below root names) = .ok (here, .directory))
    (hvisited : here ∈ visited) :
    s.visits f root visited (names :: pending) = s.visits f root visited pending := by
  rw [visits]
  split
  · next other hother =>
    cases hfind.symm.trans hother
    rw [dif_pos hvisited]
  · next hne => exact absurd hfind (hne here)

theorem visits_cons_of_ne (hfind : ∀ here, f.find (below root names) ≠ .ok (here, .directory)) :
    s.visits f root visited (names :: pending) = s.visits f root visited pending := by
  rw [visits]
  split
  · next other hother => exact absurd hother (hfind other)
  · rfl

/-- A walk takes the files in the directories that it enters. -/
theorem walk_eq_flatMap (s : Selection) (f : Files) (root : Path) (visited : List RealPath)
    (pending : List Names) : s.walk f root visited pending =
      (s.visits f root visited pending).flatMap fun v => s.filesIn f root v.1 v.2 := by
  fun_induction walk s f root visited pending with
  | case1 visited => rw [visits, List.flatMap_nil]
  | case2 visited names pending here hfind hvisited ih =>
    rw [visits_cons_of_visited hfind hvisited, ih]
  | case3 visited names pending here hfind hvisited ih =>
    rw [visits_cons_of_new hfind hvisited, List.flatMap_cons, ih]
  | case4 visited names pending hfind ih => rw [visits_cons_of_ne hfind, ih]

/-- No directory is entered twice, and none that was visited before. -/
theorem nodup_visits (s : Selection) (f : Files) (root : Path) (visited : List RealPath)
    (pending : List Names) : ((s.visits f root visited pending).map (·.2)).Nodup ∧
      ∀ v ∈ s.visits f root visited pending, v.2 ∉ visited := by
  fun_induction visits s f root visited pending with
  | case1 visited => simp
  | case2 visited names pending here hfind hvisited ih => exact ih
  | case3 visited names pending here hfind hvisited ih =>
    obtain ⟨hnodup, hnew⟩ := ih
    rw [List.map_cons, List.nodup_cons, List.forall_mem_cons]
    -- the second part carries the first: what is entered later is not among the visited ones
    refine ⟨⟨fun hmem => ?_, hnodup⟩, hvisited, fun v hv => ?_⟩
    · obtain ⟨v, hv, heq⟩ := List.mem_map.1 hmem
      exact hnew v hv (heq ▸ List.mem_cons_self)
    · exact fun hmem => hnew v hv (List.mem_cons_of_mem _ hmem)
  | case4 visited names pending hfind ih => exact ih

/-! ### Ways -/

/-- Ways from the root through directories, be they entries or linked, to the one with the given
names, on which no directory is left out. -/
inductive Way (s : Selection) (f : Files) (root : Path) : Names → RealPath → Prop
  | root {here : RealPath} (hfind : f.find (below root []) = .ok (here, .directory)) :
      Way s f root [] here
  | step {names : Names} {here there : RealPath} {name : String} (hway : Way s f root names here)
      (hentry : name ∈ f.names here)
      (hfind : f.find (below root (names ++ [name])) = .ok (there, .directory))
      (hname : name ∉ s.ignoredNames)
      (hlisted : s.isIgnored (text (names ++ [name]) true) = false) :
      Way s f root (names ++ [name]) there

theorem Way.find (h : s.Way f root names here) :
    f.find (Selection.below root names) = .ok (here, .directory) := by
  cases h with
  | root hfind => exact hfind
  | step _ _ hfind _ _ => exact hfind

theorem Way.unignored (h : s.Way f root names here) : ∀ name ∈ names, name ∉ s.ignoredNames := by
  induction h with
  | root _ => simp
  | step _ _ _ hname _ ih =>
    rw [List.forall_mem_append, List.forall_mem_singleton]
    exact ⟨ih, hname⟩

theorem Way.unlisted (h : s.Way f root names here) (hne : names ≠ []) :
    s.isIgnored (text names true) = false := by
  cases h with
  | root _ => exact absurd rfl hne
  | step _ _ _ _ hlisted => exact hlisted

/-- The way up to a directory on it. -/
theorem Way.above (h : s.Way f root names here) {above : Names} (habove : above <+: names) :
    ∃ there, s.Way f root above there := by
  induction h with
  | root hfind =>
    rw [List.prefix_nil.1 habove]
    exact ⟨_, .root hfind⟩
  | step hway hentry hfind hname hlisted ih =>
    rcases List.prefix_concat_iff.1 habove with rfl | habove
    · exact ⟨_, .step hway hentry hfind hname hlisted⟩
    · exact ih habove

/-! ### What is left out -/

theorem isDirectory_iff : f.isDirectory (below root names) ↔
    ∃ here, f.find (below root names) = .ok (here, .directory) := by
  unfold Files.isDirectory
  split
  · next here hfind => exact ⟨fun _ => ⟨here, hfind⟩, fun _ => rfl⟩
  · next hne => exact ⟨fun h => absurd h (by simp), fun ⟨here, h⟩ => absurd h (hne here)⟩

/-- When a directory is not left out. -/
theorem leavesOut_directory (h : f.find (below root names) = .ok (here, .directory)) :
    s.leavesOut f root names = false ↔
      (∀ name ∈ names, name ∉ s.ignoredNames) ∧ s.isIgnored (text names true) = false := by
  have hdirectory : f.isDirectory (below root names) = true := isDirectory_iff.2 ⟨here, h⟩
  unfold leavesOut isTooLarge Files.isBarred Files.size?
  rw [hdirectory, h]
  simp

/-- When a file, or what is in its place, is taken. -/
theorem takes_iff (h : f.isDirectory (below root names) = false) : s.takes f root names ↔
    Letter.lower (below root names).suffix ∈ s.suffixes ∧
    (∀ name ∈ names, name ∉ s.ignoredNames) ∧
    (f.isBarred (below root names) = false → s.isIgnored (text names false) = false ∧
      ∀ size, f.size? (below root names) = some size → (size : Int) ≤ s.maxFileSize) := by
  unfold takes leavesOut isTooLarge
  rw [h]
  cases hbarred : f.isBarred (below root names) with
  | true => simp
  | false => cases hsize : f.size? (below root names) <;> simp

/-- The subdirectories of a directory that are entered, unless they were visited. -/
theorem mem_subdirectories {path : Names} : path ∈ s.subdirectories f root names here ↔
    ∃ name ∈ f.names here, path = names ++ [name] ∧ f.isDirectory (below root path) ∧
      s.leavesOut f root path = false := by
  unfold subdirectories namesWhere
  rw [List.mem_mergeSort, List.mem_filter, List.mem_filter, List.mem_map]
  constructor
  · rintro ⟨⟨⟨name, hname, rfl⟩, hdirectory⟩, hkept⟩
    exact ⟨name, hname, rfl, by simpa using hdirectory, by simpa using hkept⟩
  · rintro ⟨name, hname, rfl, hdirectory, hkept⟩
    exact ⟨⟨⟨name, hname, rfl⟩, by simpa using hdirectory⟩, by simpa using hkept⟩

theorem mem_filesIn {path : Names} : path ∈ s.filesIn f root names here ↔
    ∃ name ∈ f.names here, path = names ++ [name] ∧ f.isDirectory (below root path) = false ∧
      (s.takes f root path ∨ s.isStuck f root path (here ++ [name])) := by
  unfold filesIn namesWhere
  rw [List.mem_filter, List.mem_filter, List.mem_map]
  constructor
  · rintro ⟨⟨⟨name, hname, rfl⟩, hdirectory⟩, htakes⟩
    exact ⟨name, hname, rfl, by simpa using hdirectory, by simpa using htakes⟩
  · rintro ⟨name, hname, rfl, hdirectory, htakes⟩
    exact ⟨⟨⟨name, hname, rfl⟩, by simpa using hdirectory⟩, by simpa using htakes⟩

/-- What is taken of a directory, unless looking it up is barred. -/
theorem takes_of_mem_filesIn {path : Names} (h : path ∈ s.filesIn f root names here)
    (hbarred : f.isBarred (below root path) = false) : s.takes f root path := by
  obtain ⟨name, -, rfl, -, htakes | hstuck⟩ := mem_filesIn.1 h
  · exact htakes
  · simp [isStuck, hbarred] at hstuck

/-- There is a way to a subdirectory of a directory that there is a way to. -/
theorem Way.subdirectory (h : s.Way f root names here) {path : Names}
    (hpath : path ∈ s.subdirectories f root names here)
    (hfind : f.find (Selection.below root path) = .ok (there, .directory)) :
    s.Way f root path there := by
  obtain ⟨name, hname, rfl, -, hkept⟩ := mem_subdirectories.1 hpath
  obtain ⟨hignored, hlisted⟩ := (leavesOut_directory hfind).1 hkept
  exact .step h hname hfind (hignored name (by simp)) hlisted

/-- There are ways to the directories that a walk enters, if there are to those it starts from. -/
theorem way_of_mem_visits (hpending : ∀ names ∈ pending, ∀ here,
      f.find (below root names) = .ok (here, .directory) → s.Way f root names here) :
    ∀ v ∈ s.visits f root visited pending, s.Way f root v.1 v.2 := by
  fun_induction visits s f root visited pending with
  | case1 visited => simp
  | case2 visited names pending here hfind hvisited ih =>
    exact ih (List.forall_mem_cons.1 hpending).2
  | case3 visited names pending here hfind hvisited ih =>
    obtain ⟨hhead, htail⟩ := List.forall_mem_cons.1 hpending
    have hway := hhead here hfind
    rw [List.forall_mem_cons]
    refine ⟨hway, ih fun path hpath there hthere => ?_⟩
    rcases List.mem_append.1 hpath with hpath | hpath
    · exact hway.subdirectory hpath hthere
    · exact htail path hpath there hthere
  | case4 visited names pending hfind ih => exact ih (List.forall_mem_cons.1 hpending).2

theorem way_of_mem_entered {v : Names × RealPath} (hv : v ∈ s.entered f root) :
    s.Way f root v.1 v.2 := by
  refine way_of_mem_visits (fun names hnames here hfind => ?_) v hv
  obtain rfl := List.mem_singleton.1 hnames
  exact .root hfind

/-- How many directories a scan enters at most. -/
theorem length_entered_le (s : Selection) (f : Files) (root : Path) :
    (s.entered f root).length ≤ f.directories.length := by
  have hsubset : (s.entered f root).map (·.2) ⊆ f.directories := by
    intro here hhere
    obtain ⟨v, hv, rfl⟩ := List.mem_map.1 hhere
    exact Files.mem_directories (Files.get?_of_find (way_of_mem_entered hv).find)
  have hnodup : ((s.entered f root).map (·.2)).Nodup := (s.nodup_visits f root [] [[]]).1
  have hlength := (List.subperm_of_subset hnodup hsubset).length_le
  rwa [List.length_map] at hlength

/-! ### Files -/

/-- A scan takes the files in the directories that it enters. -/
theorem scan_eq_mergeSort (s : Selection) (f : Files) (root : Path) : s.scan f root =
    ((s.entered f root).flatMap fun v => s.filesIn f root v.1 v.2).mergeSort namesLe := by
  unfold scan entered
  rw [walk_eq_flatMap]

theorem mem_scan {path : Names} : path ∈ s.scan f root ↔
    ∃ v ∈ s.entered f root, path ∈ s.filesIn f root v.1 v.2 := by
  rw [scan_eq_mergeSort, List.mem_mergeSort, List.mem_flatMap]

/-- No file is scanned twice: its directory is entered once, and by one way. -/
theorem nodup_scan (hf : f.places.Nodup) (s : Selection) (root : Path) :
    (s.scan f root).Nodup := by
  rw [scan_eq_mergeSort, (List.mergeSort_perm _ _).nodup_iff, List.nodup_flatMap]
  constructor
  · intro v _
    refine List.Nodup.filter _ (List.Nodup.filter _ ?_)
    refine List.Nodup.map (fun a b hab => ?_) (Files.nodup_names hf v.2)
    simpa using hab
  · -- a path in the files of two directories has one directory above it
    have hnodup := (s.nodup_visits f root [] [[]]).1
    refine (List.pairwise_map.1 hnodup).imp_of_mem fun {v w} hv hw hne => ?_
    rw [Function.onFun_apply, List.disjoint_left]
    intro path hpath hpath'
    obtain ⟨name, -, rfl, -⟩ := mem_filesIn.1 hpath
    obtain ⟨name', -, heq, -⟩ := mem_filesIn.1 hpath'
    have hnames := (List.append_inj' heq rfl).1
    have hv := (way_of_mem_entered hv).find
    rw [hnames, (way_of_mem_entered hw).find] at hv
    simp only [Except.ok.injEq, Prod.mk.injEq, and_true] at hv
    exact hne hv.symm

theorem namesLe_iff {a b : Names} : namesLe a b ↔ ¬ List.Lex (· < ·) b a := by
  unfold namesLe
  rw [Bool.not_eq_true', ← Bool.not_eq_true, List.lex_eq_true_iff_lex]
  simp only [decide_eq_true_eq]

/-- Scanned files are in the strict order of the names on their ways. -/
theorem pairwise_scan (hf : f.places.Nodup) (s : Selection) (root : Path) :
    (s.scan f root).Pairwise (List.Lex (· < ·)) := by
  have hle : (s.scan f root).Pairwise fun a b => namesLe a b = true := by
    refine List.pairwise_mergeSort (fun a b c hab hbc => ?_) (fun a b => ?_) _
    · rw [namesLe_iff] at hab hbc ⊢
      exact List.le_trans (α := String) hab hbc
    · rw [Bool.or_eq_true, namesLe_iff, namesLe_iff]
      exact List.le_total a b
  refine (hle.and (s.nodup_scan hf root)).imp fun ⟨hab, hne⟩ => ?_
  by_contra hlt
  exact hne (Std.Trichotomous.trichotomous (r := List.Lex (· < ·)) _ _ hlt (namesLe_iff.1 hab))

end Selection

/-! ### Scans -/

/-- What settings ask of a file below a root, given the decisions on ignored paths. -/
structure Settings.Wants (s : Settings) (isIgnored : String → Bool) (f : Files) (root : Path)
    (names : Names) : Prop where
  nonempty : names ≠ []
  extension : ∃ extension ∈ s.extensions,
    Letter.lower extension = Letter.lower (Selection.below root names).suffix
  unignored : ∀ name ∈ names, name ∉ s.ignoredNames
  unlisted : isIgnored (Selection.text names false) = false
  notDirectory : f.isDirectory (Selection.below root names) = false
  above : ∀ above, above <+: names → above ≠ [] → above ≠ names →
    f.isDirectory (Selection.below root above) ∧ isIgnored (Selection.text above true) = false
  size : ∀ size, f.size? (Selection.below root names) = some size → (size : Int) ≤ s.maxFileSize

namespace Settings

variable {s : Settings} {f : Files} {path root : Path} {isIgnored : String → Bool} {names : Names}

/-- What settings ask of the files that a scan takes. -/
theorem wants_of_mem_scan (hnames : names ∈ (s.selection isIgnored).scan f root)
    (hbarred : f.isBarred (Selection.below root names) = false) :
    s.Wants isIgnored f root names := by
  obtain ⟨v, hv, hpath⟩ := Selection.mem_scan.1 hnames
  have htakes := Selection.takes_of_mem_filesIn hpath hbarred
  obtain ⟨name, -, rfl, hdirectory, -⟩ := Selection.mem_filesIn.1 hpath
  obtain ⟨hsuffix, hignored, hkept⟩ := (Selection.takes_iff hdirectory).1 htakes
  obtain ⟨hlisted, hsize⟩ := hkept hbarred
  refine ⟨by simp, List.mem_map.1 hsuffix, hignored, hlisted, hdirectory,
    fun above habove hne hne' => ?_, hsize⟩
  -- what is above the file is on the way by which its directory was entered
  have habove := (List.prefix_concat_iff.1 habove).resolve_left hne'
  obtain ⟨there, hway⟩ := (Selection.way_of_mem_entered hv).above habove
  exact ⟨Selection.isDirectory_iff.2 ⟨there, hway.find⟩, hway.unlisted hne⟩

/-- What a scan comes to when its root and the decisions on ignored paths are known. -/
theorem scan_eq (hroot : f.scanRoot path = .ok root) (hignored : s.ignored f root = .ok isIgnored) :
    s.scan f path =
      if ((s.selection isIgnored).scan f root).any fun names =>
        f.isBarred (Selection.below root names) then .error (.barred .nameTooLong)
      else .ok ⟨root, (s.selection isIgnored).scan f root⟩ := by
  unfold scan
  rw [hroot]
  dsimp only
  rw [hignored]

/-- A scan enters every directory at most once, whatever links lead there, and so it ends. What it
takes are the files in these directories, each once and in the order of the names on their ways, and
all of them are such as settings ask for, be the decisions on ignored paths what they may. This is
the result of the scan, unless one of the files cannot be looked up because a name or a path is too
long. -/
theorem scan_sound (s : Settings) {f : Files} (hf : f.places.Nodup) (root : Path)
    (isIgnored : String → Bool) :
    ((((s.selection isIgnored).entered f root).map (·.2)).Nodup ∧
      (∀ v ∈ (s.selection isIgnored).entered f root,
        f.find (Selection.below root v.1) = .ok (v.2, .directory)) ∧
      ((s.selection isIgnored).entered f root).length ≤ f.directories.length ∧
      ((s.selection isIgnored).scan f root).Perm (((s.selection isIgnored).entered f root).flatMap
        fun v => (s.selection isIgnored).filesIn f root v.1 v.2)) ∧
    ((s.selection isIgnored).scan f root).Pairwise (List.Lex (· < ·)) ∧
    (∀ names ∈ (s.selection isIgnored).scan f root,
      f.isBarred (Selection.below root names) = false → s.Wants isIgnored f root names) ∧
    ∀ path, f.scanRoot path = .ok root → s.ignored f root = .ok isIgnored →
      s.scan f path = .ok ⟨root, (s.selection isIgnored).scan f root⟩ ∨
      s.scan f path = .error (.barred .nameTooLong) ∧
        ∃ names ∈ (s.selection isIgnored).scan f root, f.isBarred (Selection.below root names) := by
  refine ⟨⟨(Selection.nodup_visits _ f root [] [[]]).1, fun v hv => ?_,
    Selection.length_entered_le _ f root, ?_⟩, Selection.pairwise_scan hf _ root,
    fun names => wants_of_mem_scan, fun path hroot hignored => ?_⟩
  · exact (Selection.way_of_mem_entered hv).find
  · rw [Selection.scan_eq_mergeSort]
    exact List.mergeSort_perm _ _
  · rw [scan_eq hroot hignored]
    split
    · next hany => exact .inr ⟨rfl, List.any_eq_true.1 hany⟩
    · exact .inl rfl

end Settings

/-! ### A tree with links -/

/-- A directory with two files and a link that leads back up, a link to the directory, and a list
that ignores one of the files under the name of the link. -/
def aliasFiles : Files :=
  ⟨[([".gitignore"], .file (Utf8.encode "/a/x.jsx\n") 0o644), (["a"], .link "b"),
    (["b"], .directory), (["b", "up"], .link ".."), (["b", "x.jsx"], .file [] 0o644),
    (["b", "y.JSX"], .file [] 0o644)], [], []⟩

/-- The top directory of `aliasFiles`. -/
def aliasRoot : Path :=
  ⟨"/", []⟩

/-- The decisions of the list in `aliasFiles`. -/
def aliasIgnored : String → Bool :=
  (aliasFiles.ignoreList aliasRoot).toOption.getD fun _ => false

theorem scanRoot_aliasFiles : aliasFiles.scanRoot (.ofString "/") = .ok aliasRoot :=
  Reading.eq_ok_of_toOption (by decide +kernel)

theorem ignored_aliasFiles : Settings.usual.ignored aliasFiles aliasRoot = .ok aliasIgnored := by
  have hlist : (aliasFiles.ignoreList aliasRoot).toOption.isSome := by decide +kernel
  obtain ⟨isIgnored, hignored⟩ := Option.isSome_iff_exists.1 hlist
  unfold aliasIgnored
  rw [hignored]
  exact Reading.eq_ok_of_toOption hignored

theorem Selection.subdirectories_eq {s : Selection} {f : Files} {root : Path} {names : Names}
    {here : RealPath} {l : List Names} (h : (namesWhere f root names here true).filter
      (fun names => !s.leavesOut f root names) = l) (hl : l.Pairwise fun a b => namesLe a b) :
    s.subdirectories f root names here = l := by
  unfold subdirectories
  rw [h]
  exact List.mergeSort_of_pairwise hl

/-- The directory of `aliasFiles` is entered by the link, which comes first. -/
theorem entered_aliasFiles : (Settings.usual.selection aliasIgnored).entered aliasFiles aliasRoot =
    [([], []), (["a"], ["b"])] := by
  have htop : aliasFiles.find (Selection.below aliasRoot []) = .ok ([], .directory) := by
    decide +kernel
  have hlink : aliasFiles.find (Selection.below aliasRoot ["a"]) = .ok (["b"], .directory) := by
    decide +kernel
  have hup : aliasFiles.find (Selection.below aliasRoot ["a", "up"]) = .ok ([], .directory) := by
    decide +kernel
  have hdirectory : aliasFiles.find (Selection.below aliasRoot ["b"]) = .ok (["b"], .directory) := by
    decide +kernel
  have hfirst : (Settings.usual.selection aliasIgnored).subdirectories aliasFiles aliasRoot [] [] =
      [["a"], ["b"]] := Selection.subdirectories_eq (by decide +kernel) (by decide +kernel)
  have hsecond : (Settings.usual.selection aliasIgnored).subdirectories aliasFiles aliasRoot ["a"]
      ["b"] = [["a", "up"]] := Selection.subdirectories_eq (by decide +kernel) (by decide +kernel)
  unfold Selection.entered
  rw [Selection.visits_cons_of_new htop (by decide), hfirst, List.append_nil,
    Selection.visits_cons_of_new hlink (by decide), hsecond, List.singleton_append,
    Selection.visits_cons_of_visited hup (by decide),
    Selection.visits_cons_of_visited hdirectory (by decide), Selection.visits]

/-- One of the files of `aliasFiles` is scanned. -/
theorem scan_aliasFiles : (Settings.usual.selection aliasIgnored).scan aliasFiles aliasRoot =
    [["a", "y.JSX"]] := by
  have htop : (Settings.usual.selection aliasIgnored).filesIn aliasFiles aliasRoot [] [] = [] := by
    decide +kernel
  have hlinked : (Settings.usual.selection aliasIgnored).filesIn aliasFiles aliasRoot ["a"] ["b"] =
      [["a", "y.JSX"]] := by decide +kernel
  rw [Selection.scan_eq_mergeSort, entered_aliasFiles]
  simp [htop, hlinked]

/-- The scan of `aliasFiles` enters the linked directory once and comes back to the top by the link
in it. -/
theorem alias_scan_sound : aliasFiles.places.Nodup ∧
    (((Settings.usual.selection aliasIgnored).entered aliasFiles aliasRoot).map (·.2)).Nodup ∧
    Settings.usual.scan aliasFiles (.ofString "/") = .ok ⟨aliasRoot, [["a", "y.JSX"]]⟩ ∧
    Settings.usual.Wants aliasIgnored aliasFiles aliasRoot ["a", "y.JSX"] := by
  have hdistinct : aliasFiles.places.Nodup := by decide
  have hbarred : aliasFiles.isBarred (Selection.below aliasRoot ["a", "y.JSX"]) = false := by
    decide +kernel
  obtain ⟨⟨hentered, -⟩, -, hwants, hscan⟩ :=
    Settings.scan_sound Settings.usual hdistinct aliasRoot aliasIgnored
  rw [scan_aliasFiles] at hwants hscan
  refine ⟨hdistinct, hentered, ?_, hwants _ List.mem_cons_self hbarred⟩
  rcases hscan _ scanRoot_aliasFiles ignored_aliasFiles with hok | ⟨-, names, hnames, hlong⟩
  · exact hok
  · rw [List.mem_singleton.1 hnames, hbarred] at hlong
    cases hlong

end JsxLint
