import JsxLint.Proofs.Files.Replacing
import JsxLint.Proofs.Reading.Outline
import JsxLint.Run.Project
import Mathlib.Data.List.Nodup

/-!
# The files of a scan

Files are called by the names on their way from the root, with slashes between them. As no name has
a slash, different files are called differently.

* `Files.Slashless`: no name has a slash;
* `Selection.slashless_scan`: the names on the way to a scanned file;
* `Settings.Scan.shown_nodup`: what the files of a scan are called;
* `Selection.scan_flat`, `Settings.scan_flat`: the scan of one directory.
-/

namespace JsxLint

/-- Whether no name in the file tree has a slash, which no file's name has. -/
def Files.Slashless (f : Files) : Prop :=
  ∀ p ∈ f.places, ∀ name ∈ p, '/' ∉ name.toList

namespace Selection

variable {s : Selection} {f : Files} {root : Path}

/-- Names without slashes. -/
def Slashless (names : Names) : Prop :=
  ∀ name ∈ names, '/' ∉ name.toList

/-- The names on the way to what is in a directory. -/
theorem slashless_namesWhere (hf : f.Slashless) {names path : Names} {here : RealPath}
    {isDirectory : Bool} (hnames : Slashless names)
    (hpath : path ∈ namesWhere f root names here isDirectory) : path ≠ [] ∧ Slashless path := by
  obtain ⟨name, hname, rfl⟩ := List.mem_map.1 (List.mem_filter.1 hpath).1
  obtain ⟨⟨place, entry⟩, hentry, hlast⟩ := List.mem_filterMap.1 hname
  refine ⟨by simp, fun other hother => ?_⟩
  rcases List.mem_append.1 hother with hother | hother
  · exact hnames other hother
  · obtain rfl := List.mem_singleton.1 hother
    dsimp only at hlast
    split_ifs at hlast
    exact hf place (List.mem_map_of_mem hentry) other (List.mem_of_getLast? hlast)

/-- The names on the way to the files that a walk takes. -/
theorem slashless_walk (hf : f.Slashless) {visited : List RealPath} {pending : List Names}
    (hpending : ∀ names ∈ pending, Slashless names) :
    ∀ path ∈ s.walk f root visited pending, path ≠ [] ∧ Slashless path := by
  fun_induction walk s f root visited pending with
  | case1 visited => simp
  | case2 visited names pending here hfind hvisited ih =>
    exact ih fun names hnames => hpending names (List.mem_cons_of_mem _ hnames)
  | case3 visited names pending here hfind hvisited ih =>
    have hnames := hpending names List.mem_cons_self
    intro path hpath
    rcases List.mem_append.1 hpath with hpath | hpath
    · exact slashless_namesWhere hf hnames (List.mem_filter.1 hpath).1
    · refine ih (fun other hother => ?_) path hpath
      rcases List.mem_append.1 hother with hother | hother
      · have hwhere := (List.mem_filter.1 (List.mem_mergeSort.1 hother)).1
        exact (slashless_namesWhere hf hnames hwhere).2
      · exact hpending other (List.mem_cons_of_mem _ hother)
  | case4 visited names pending hfind ih =>
    exact ih fun names hnames => hpending names (List.mem_cons_of_mem _ hnames)

/-- The names on the way to a scanned file. -/
theorem slashless_scan (hf : f.Slashless) {path : Names} (hpath : path ∈ s.scan f root) :
    path ≠ [] ∧ Slashless path := by
  refine slashless_walk hf (fun names hnames => ?_) path (List.mem_mergeSort.1 hpath)
  obtain rfl := List.mem_singleton.1 hnames
  exact fun name hname => absurd hname List.not_mem_nil

/-- The files of a directory without subdirectories. -/
theorem scan_flat {here : RealPath} (hroot : f.find (below root []) = .ok (here, .directory))
    (hflat : s.subdirectories f root [] here = []) :
    s.scan f root = (s.filesIn f root [] here).mergeSort namesLe := by
  unfold scan
  rw [walk]
  split
  · next other hother =>
    cases hroot.symm.trans hother
    simp [hflat, walk]
  · next hne => exact absurd hroot (hne here)

end Selection

/-- Names without slashes can be told from the text that they make. -/
theorem Text.joined_injective {names others : Names} (hnames : Selection.Slashless names)
    (hothers : Selection.Slashless others) (hne : names ≠ []) (hne' : others ≠ [])
    (h : Text.joined "/" names = Text.joined "/" others) : names = others := by
  have hsplit : ∀ l : Names, Selection.Slashless l → l ≠ [] →
      List.splitOn '/' (Text.joined "/" l).toList = l.map String.toList := by
    intro l hl hne
    unfold Text.joined
    rw [String.toList_intercalate]
    refine List.splitOn_intercalate '/' (fun part hpart => ?_) (by simpa using hne)
    obtain ⟨name, hname, rfl⟩ := List.mem_map.1 hpart
    exact hl name hname
  have hlists := hsplit names hnames hne
  rw [h, hsplit others hothers hne'] at hlists
  exact (List.map_injective_iff.2 (fun _ _ => String.toList_injective) hlists).symm

/-- What a file below the root is called. -/
theorem shown_below (root : Path) {names : Names} (hne : names ≠ []) :
    (Job.below (some root) (Selection.below root names)).shown = Text.joined "/" names := by
  have hrelative : (Selection.below root names).relativeTo? root = some ⟨"", names⟩ := by
    simp [Path.relativeTo?, Selection.below]
  unfold Job.below
  rw [Option.bind_some, hrelative, Option.getD_some]
  simp [Path.toString, hne]

/-- The root of a scan, and the decisions on ignored paths that it goes by. -/
theorem Settings.exists_ignored_of_scan {s : Settings} {f : Files} {path : Path}
    {scan : Settings.Scan} (h : s.scan f path = .ok scan) :
    f.scanRoot path = .ok scan.root ∧ ∃ isIgnored, s.ignored f scan.root = .ok isIgnored ∧
      scan.files = (s.selection isIgnored).scan f scan.root := by
  unfold Settings.scan at h
  split at h
  · cases h
  · next root hroot =>
    split at h
    · cases h
    · next isIgnored hignored =>
      dsimp only at h
      split_ifs at h
      cases h
      exact ⟨hroot, isIgnored, hignored, rfl⟩

/-- The files that settings ask for are those of a scan from their root. -/
theorem Settings.scan_files {s : Settings} {f : Files} {path : Path} {scan : Settings.Scan}
    (h : s.scan f path = .ok scan) :
    ∃ isIgnored, scan.files = (s.selection isIgnored).scan f scan.root := by
  obtain ⟨-, isIgnored, -, hfiles⟩ := exists_ignored_of_scan h
  exact ⟨isIgnored, hfiles⟩

/-- Different files of a scan are called differently. -/
theorem Settings.Scan.shown_nodup {s : Settings} {f : Files} {path : Path} {scan : Settings.Scan}
    (h : s.scan f path = .ok scan) (hf : f.Slashless) (hjobs : scan.jobs.Nodup) :
    (scan.jobs.map (·.shown)).Nodup := by
  obtain ⟨isIgnored, hfiles⟩ := Settings.scan_files h
  have hnames : ∀ names ∈ scan.files, names ≠ [] ∧ Selection.Slashless names := by
    intro names hmem
    rw [hfiles] at hmem
    exact Selection.slashless_scan hf hmem
  have hnodup : scan.files.Nodup := List.Nodup.of_map _ hjobs
  unfold Settings.Scan.jobs
  rw [List.map_map]
  refine List.Nodup.map_on (fun names hmem others hmem' heq => ?_) hnodup
  obtain ⟨hne, hslash⟩ := hnames names hmem
  obtain ⟨hne', hslash'⟩ := hnames others hmem'
  simp only [Function.comp_apply, shown_below _ hne, shown_below _ hne'] at heq
  exact Text.joined_injective hslash hslash' hne hne' heq

/-! ### Scans without a list of ignored paths -/

/-- Settings without a list of ignored paths. -/
def Settings.plain : Settings :=
  { Settings.usual with respectIgnoreFile := false }

/-- A scan of a directory without subdirectories, in which the list of ignored paths does not
count. -/
theorem Settings.scan_flat {s : Settings} {f : Files} {path root : Path} {here : RealPath}
    {files : List Names} (hplain : s.respectIgnoreFile = false)
    (hroot : (f.scanRoot path).toOption = some root)
    (hdirectory : f.find (Selection.below root []) = .ok (here, .directory))
    (hflat : (s.selection fun _ => false).subdirectories f root [] here = [])
    (hfiles : (s.selection fun _ => false).filesIn f root [] here = files)
    (hsorted : files.Pairwise fun a b => Selection.namesLe a b)
    (hbarred : (files.any fun names => f.isBarred (Selection.below root names)) = false) :
    s.scan f path = .ok ⟨root, files⟩ := by
  have hscan : (s.selection fun _ => false).scan f root = files := by
    rw [Selection.scan_flat hdirectory hflat, hfiles]
    exact List.mergeSort_of_pairwise hsorted
  unfold Settings.scan Settings.ignored
  rw [Reading.eq_ok_of_toOption hroot, hplain]
  simp only [Bool.false_eq_true, if_false, hscan, hbarred]

end JsxLint
