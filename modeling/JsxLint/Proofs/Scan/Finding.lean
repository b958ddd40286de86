import JsxLint.Proofs.Files.Following
import JsxLint.Proofs.Scan.Visits
import Mathlib.Data.List.Induction

/-!
# The files that a scan finds

A directory is entered once, by the names by which a scan comes there first, and what is ignored
depends on names. So a file is found when there is a way to it that is cut off nowhere: wherever a
directory on the way was entered by other names, what comes next on the way was not ignored under
these.

* `Selection.Uncut`: ways that are cut off nowhere;
* `Selection.entered_iff`: a directory is entered when there is such a way to it;
* `Settings.scan_contains_iff`: a file is found when there is such a way to it.
-/

namespace JsxLint

namespace Selection

variable {s : Selection} {f : Files} {root : Path} {visited : List RealPath} {pending : List Names}
  {names other : Names} {here there : RealPath} {name : String} {v : Names × RealPath}

/-! ### What is entered -/

/-- A directory that a walk comes to is entered, unless it was visited. -/
theorem exists_mem_visits (hnames : names ∈ pending)
    (hfind : f.find (below root names) = .ok (here, .directory)) :
    here ∈ visited ∨ ∃ other, (other, here) ∈ s.visits f root visited pending := by
  fun_induction visits s f root visited pending with
  | case1 visited => cases hnames
  | case2 visited head pending place hplace hvisited ih =>
    rcases List.mem_cons.1 hnames with rfl | hnames
    · cases hplace.symm.trans hfind
      exact .inl hvisited
    · exact ih hnames
  | case3 visited head pending place hplace hvisited ih =>
    by_cases heq : here = place
    · exact .inr ⟨head, heq ▸ List.mem_cons_self⟩
    · have htail : names ∈ s.subdirectories f root head place ++ pending := by
        rcases List.mem_cons.1 hnames with rfl | hnames
        · cases hplace.symm.trans hfind
          exact absurd rfl heq
        · exact List.mem_append_right _ hnames
      rcases ih htail with hold | ⟨other, hother⟩
      · exact .inl ((List.mem_cons.1 hold).resolve_left heq)
      · exact .inr ⟨other, List.mem_cons_of_mem _ hother⟩
  | case4 visited head pending hplace ih =>
    rcases List.mem_cons.1 hnames with rfl | hnames
    · exact absurd hfind (hplace here)
    · exact ih hnames

/-- The subdirectories of the directories that a walk enters are entered, unless they were
visited. -/
theorem visits_closed (hv : v ∈ s.visits f root visited pending)
    (hnames : names ∈ s.subdirectories f root v.1 v.2)
    (hfind : f.find (below root names) = .ok (here, .directory)) :
    here ∈ visited ∨ ∃ other, (other, here) ∈ s.visits f root visited pending := by
  fun_induction visits s f root visited pending with
  | case1 visited => cases hv
  | case2 visited head pending place hplace hvisited ih => exact ih hv
  | case3 visited head pending place hplace hvisited ih =>
    have htail : here ∈ place :: visited ∨ ∃ other, (other, here) ∈
        s.visits f root (place :: visited) (s.subdirectories f root head place ++ pending) := by
      rcases List.mem_cons.1 hv with rfl | hv
      · exact exists_mem_visits (List.mem_append_left _ hnames) hfind
      · exact ih hv
    rcases htail with hold | ⟨other, hother⟩
    · rcases List.mem_cons.1 hold with rfl | hold
      · exact .inr ⟨head, List.mem_cons_self⟩
      · exact .inl hold
    · exact .inr ⟨other, List.mem_cons_of_mem _ hother⟩
  | case4 visited head pending hplace ih => exact ih hv

theorem entered_closed (hv : v ∈ s.entered f root)
    (hnames : names ∈ s.subdirectories f root v.1 v.2)
    (hfind : f.find (below root names) = .ok (here, .directory)) :
    ∃ other, (other, here) ∈ s.entered f root :=
  (visits_closed hv hnames hfind).resolve_left List.not_mem_nil

theorem exists_mem_entered_root (hfind : f.find (below root []) = .ok (here, .directory)) :
    ∃ other, (other, here) ∈ s.entered f root :=
  (exists_mem_visits List.mem_cons_self hfind).resolve_left List.not_mem_nil

/-- A directory that a walk enters is one that it starts from or a subdirectory of another one. -/
theorem mem_pending_of_mem_visits (hv : v ∈ s.visits f root visited pending) : v.1 ∈ pending ∨
    ∃ u ∈ s.visits f root visited pending, v.1 ∈ s.subdirectories f root u.1 u.2 := by
  fun_induction visits s f root visited pending with
  | case1 visited => cases hv
  | case2 visited head pending place hplace hvisited ih =>
    exact (ih hv).imp (List.mem_cons_of_mem _) id
  | case3 visited head pending place hplace hvisited ih =>
    rcases List.mem_cons.1 hv with rfl | hv
    · exact .inl List.mem_cons_self
    · rcases ih hv with hpending | ⟨u, hu, hsub⟩
      · rcases List.mem_append.1 hpending with hsub | hpending
        · exact .inr ⟨(head, place), List.mem_cons_self, hsub⟩
        · exact .inl (List.mem_cons_of_mem _ hpending)
      · exact .inr ⟨u, List.mem_cons_of_mem _ hu, hsub⟩
  | case4 visited head pending hplace ih =>
    exact (ih hv).imp (List.mem_cons_of_mem _) id

/-- The directories on the way to one that is entered are entered by that way. -/
theorem mem_entered_of_prefix {above : Names} (h : (names, here) ∈ s.entered f root)
    (habove : above <+: names) : ∃ there, (above, there) ∈ s.entered f root := by
  induction names using List.reverseRecOn generalizing here with
  | nil =>
    rw [List.prefix_nil.1 habove]
    exact ⟨here, h⟩
  | append_singleton init last ih =>
    rcases List.prefix_concat_iff.1 habove with rfl | habove
    · exact ⟨here, h⟩
    · rcases mem_pending_of_mem_visits h with hstart | ⟨u, hu, hsub⟩
      · simp at hstart
      · obtain ⟨name, -, heq, -⟩ := mem_subdirectories.1 hsub
        rw [(List.append_inj' heq rfl).1] at habove ih
        exact ih hu habove

/-- A directory is entered by one way. -/
theorem entered_unique (h : (names, here) ∈ s.entered f root)
    (h' : (other, here) ∈ s.entered f root) : names = other := by
  have heq := List.inj_on_of_nodup_map (s.nodup_visits f root [] [[]]).1 h h' rfl
  exact congrArg Prod.fst heq

/-! ### Ways that are cut off -/

/-- Whether a way is cut off nowhere: wherever one of its directories was entered, be it by other
names, what comes next on the way is neither ignored under these nor out of their reach. -/
def Uncut (s : Selection) (f : Files) (root : Path) (names : Names) : Prop :=
  ∀ above next, above ++ [next] <+: names →
    ∀ there, f.find (below root above) = .ok (there, .directory) →
      ∀ other, (other, there) ∈ s.entered f root →
        s.isIgnored (text (other ++ [next]) true) = false ∧
          f.find (below root (other ++ [next])) ≠ .error .linkLoop ∧
          f.find (below root (other ++ [next])) ≠ .error .nameTooLong

theorem Uncut.above {above : Names} (h : s.Uncut f root names) (habove : above <+: names) :
    s.Uncut f root above :=
  fun _ _ hbegin => h _ _ (hbegin.trans habove)

/-- The way by which a directory is entered is cut off nowhere. -/
theorem uncut_of_mem_entered (h : (names, here) ∈ s.entered f root) : s.Uncut f root names := by
  intro above next hbegin there hthere other hother
  obtain ⟨place, hnext⟩ := mem_entered_of_prefix h hbegin
  obtain ⟨upper, habove⟩ := mem_entered_of_prefix h ((List.prefix_append _ _).trans hbegin)
  have hway := way_of_mem_entered hnext
  have hupper := (way_of_mem_entered habove).find
  rw [hthere] at hupper
  cases hupper
  rw [entered_unique hother habove, hway.find]
  exact ⟨hway.unlisted (by simp), by simp, by simp⟩

/-- Names that follow the way to a directory lead where they lead from it. -/
theorem leads_below (h : f.find (below root names) = .ok (here, .directory)) {rest : List String}
    {q : RealPath} :
    f.Leads (f.start root) (root.names ++ (names ++ rest)) q ↔ f.Leads here rest q := by
  obtain ⟨-, hleads, hhere⟩ := Files.leads_of_find h
  rw [← List.append_assoc]
  exact hleads.append_iff (by simp [hhere])

/-- What is in a directory is found by every way to it, if it is in reach. -/
theorem find_of_find {e : Entry} (h : f.find (below root names) = .ok (here, .directory))
    (h' : f.find (below root other) = .ok (here, .directory))
    (hname : f.find (below root (names ++ [name])) = .ok (there, e)) :
    f.find (below root (other ++ [name])) = .ok (there, e) ∨
      f.find (below root (other ++ [name])) = .error .linkLoop ∨
      f.find (below root (other ++ [name])) = .error .nameTooLong := by
  obtain ⟨hnull, hleads, hthere⟩ := Files.leads_of_find hname
  obtain ⟨hnull', -, -⟩ := Files.leads_of_find h'
  refine Files.find_of_leads ?_ ((leads_below h').2 ((leads_below h).1 hleads)) hthere
  simp only [Path.hasNull, below, List.any_append, Bool.or_eq_false_iff] at hnull hnull' ⊢
  exact ⟨hnull'.1, hnull'.2, hnull.2.2⟩

/-- A directory is entered when there is a way to it that is cut off nowhere. -/
theorem entered_iff : (∃ other, (other, here) ∈ s.entered f root) ↔
    ∃ names, s.Way f root names here ∧ s.Uncut f root names := by
  constructor
  · rintro ⟨other, hother⟩
    exact ⟨other, way_of_mem_entered hother, uncut_of_mem_entered hother⟩
  · rintro ⟨names, hway, huncut⟩
    induction hway with
    | root hfind => exact exists_mem_entered_root hfind
    | @step names here there name hway hentry hfind hname hlisted ih =>
      -- the directory above was entered, perhaps by other names, and these go on in the same way
      obtain ⟨other, hother⟩ := ih (huncut.above (List.prefix_append _ _))
      have hway' := way_of_mem_entered hother
      obtain ⟨hlisted', hlinks, hlong⟩ := huncut _ _ List.prefix_rfl here hway.find other hother
      have hfound : f.find (below root (other ++ [name])) = .ok (there, .directory) := by
        rcases find_of_find hway.find hway'.find hfind with hfound | hloop | htoo
        · exact hfound
        · exact absurd hloop hlinks
        · exact absurd htoo hlong
      refine entered_closed hother (mem_subdirectories.2 ⟨name, hentry, rfl, ?_, ?_⟩) hfound
      · exact isDirectory_iff.2 ⟨there, hfound⟩
      · refine (leavesOut_directory hfound).2 ⟨?_, hlisted'⟩
        rw [List.forall_mem_append, List.forall_mem_singleton]
        exact ⟨hway'.unignored, hname⟩

/-! ### Files -/

/-- What looking up a file in a directory by some way to it can give. -/
theorem isDirectory_of_leads {place : RealPath} {content : Bytes} {mode : Nat}
    (h : f.find (below root names) = .ok (here, .directory)) (hplace : f.Leads here [name] place)
    (hfile : f.get? place = some (.file content mode)) :
    f.isDirectory (below root (names ++ [name])) = false ∧
      ∀ size, f.size? (below root (names ++ [name])) = some size → size = content.length := by
  have hfound : ∀ q e, f.find (below root (names ++ [name])) = .ok (q, e) →
      e = .file content mode := by
    intro q e hfind
    obtain ⟨-, hleads, hq⟩ := Files.leads_of_find hfind
    rw [hplace.unique ((leads_below h).1 hleads), hq, Option.some_inj] at hfile
    exact hfile
  unfold Files.isDirectory Files.size?
  constructor
  · split
    · next q hfind => cases hfound q _ hfind
    · rfl
  · intro size hsize
    split at hsize
    · next q bytes other hfind =>
      cases hfound q _ hfind
      cases hsize
      rfl
    · cases hsize

end Selection

namespace Settings

variable {s : Settings} {f : Files} {path root : Path} {isIgnored : String → Bool}
  {here place : RealPath} {name : String} {content : Bytes} {mode : Nat}

/-- A scan finds a regular file of the right extension and size under some name, unless every way to
it is cut off. -/
theorem scan_contains_iff (hroot : f.scanRoot path = .ok root)
    (hignored : s.ignored f root = .ok isIgnored) (hname : name ∈ f.names here)
    (hplace : f.Leads here [name] place) (hfile : f.get? place = some (.file content mode))
    (hextension : ∃ extension ∈ s.extensions,
      Letter.lower extension = Letter.lower (Path.suffixOf name))
    (hunignored : name ∉ s.ignoredNames) (hsize : (content.length : Int) ≤ s.maxFileSize) :
    (∃ scan, s.scan f path = .ok scan ∧ ∃ other,
      f.find (Selection.below root other) = .ok (here, .directory) ∧
        other ++ [name] ∈ scan.files) ↔
    (∀ names ∈ (s.selection isIgnored).scan f root,
      f.isBarred (Selection.below root names) = false) ∧
    ∃ names, (s.selection isIgnored).Way f root names here ∧
      (s.selection isIgnored).Uncut f root names ∧
      ∀ other, (other, here) ∈ (s.selection isIgnored).entered f root →
        isIgnored (Selection.text (other ++ [name]) false) = false := by
  rw [scan_eq hroot hignored]
  constructor
  · rintro ⟨scan, hscan, other, hother, hmem⟩
    split at hscan
    · cases hscan
    · next hany =>
      cases hscan
      have hbarred : ∀ names ∈ (s.selection isIgnored).scan f root,
          f.isBarred (Selection.below root names) = false := by
        simpa using hany
      obtain ⟨⟨names, there⟩, hv, hpath⟩ := Selection.mem_scan.1 hmem
      have htakes := Selection.takes_of_mem_filesIn hpath (hbarred _ hmem)
      obtain ⟨name', -, heq, hdirectory, -⟩ := Selection.mem_filesIn.1 hpath
      have hway := Selection.way_of_mem_entered hv
      obtain rfl := (List.append_inj' heq rfl).1
      cases hother.symm.trans hway.find
      refine ⟨hbarred, other, hway, Selection.uncut_of_mem_entered hv, fun names hnames => ?_⟩
      rw [Selection.entered_unique hnames hv]
      exact (((Selection.takes_iff hdirectory).1 htakes).2.2 (hbarred _ hmem)).1
  · rintro ⟨hbarred, names, hway, huncut, hlisted⟩
    obtain ⟨other, hother⟩ := Selection.entered_iff.2 ⟨names, hway, huncut⟩
    have hway' := Selection.way_of_mem_entered hother
    obtain ⟨hdirectory, hlength⟩ := Selection.isDirectory_of_leads hway'.find hplace hfile
    have hmem : other ++ [name] ∈ (s.selection isIgnored).scan f root := by
      refine Selection.mem_scan.2 ⟨(other, here), hother,
        Selection.mem_filesIn.2 ⟨name, hname, rfl, hdirectory, .inl ?_⟩⟩
      refine (Selection.takes_iff hdirectory).2 ⟨?_, ?_, fun _ => ⟨hlisted other hother, ?_⟩⟩
      · obtain ⟨extension, hmem, heq⟩ := hextension
        refine List.mem_map.2 ⟨extension, hmem, heq.trans ?_⟩
        simp [Selection.below, Path.suffix, Path.name]
      · rw [List.forall_mem_append, List.forall_mem_singleton]
        exact ⟨hway'.unignored, hunignored⟩
      · rintro size hfound
        rw [hlength size hfound]
        exact hsize
    refine ⟨_, if_neg ?_, other, hway'.find, hmem⟩
    simpa using hbarred

/-- In `aliasFiles` there is a way to each of two files under which it is not ignored. One of them
is found. The other one is not, as its directory is entered by a link under whose name it is
ignored. -/
theorem alias_scan_contains_iff :
    ((usual.selection aliasIgnored).Way aliasFiles aliasRoot ["b"] ["b"] ∧
      aliasIgnored (Selection.text ["b", "x.jsx"] false) = false ∧
      aliasIgnored (Selection.text ["b", "y.JSX"] false) = false) ∧
    (¬ ∃ scan, usual.scan aliasFiles (.ofString "/") = .ok scan ∧ ∃ other,
      aliasFiles.find (Selection.below aliasRoot other) = .ok (["b"], .directory) ∧
        other ++ ["x.jsx"] ∈ scan.files) ∧
    ∃ scan, usual.scan aliasFiles (.ofString "/") = .ok scan ∧ ∃ other,
      aliasFiles.find (Selection.below aliasRoot other) = .ok (["b"], .directory) ∧
        other ++ ["y.JSX"] ∈ scan.files := by
  have hentered : (["a"], ["b"]) ∈ (usual.selection aliasIgnored).entered aliasFiles aliasRoot := by
    rw [entered_aliasFiles]
    decide
  have htop : aliasFiles.find (Selection.below aliasRoot []) = .ok ([], .directory) := by
    decide +kernel
  have hplaces : aliasFiles.follow 0 ["b"] ["x.jsx"] = .ok ["b", "x.jsx"] ∧
      aliasFiles.follow 0 ["b"] ["y.JSX"] = .ok ["b", "y.JSX"] := by decide +kernel
  have hfiles : aliasFiles.get? ["b", "x.jsx"] = some (.file [] 0o644) ∧
      aliasFiles.get? ["b", "y.JSX"] = some (.file [] 0o644) := by decide +kernel
  refine ⟨⟨.step (.root htop) (by decide +kernel) (by decide +kernel) (by decide +kernel)
    (by decide +kernel), by decide +kernel, by decide +kernel⟩, ?_, ?_⟩
  · rw [scan_contains_iff scanRoot_aliasFiles ignored_aliasFiles (by decide +kernel)
      (Files.leads_of_follow hplaces.1) hfiles.1 ⟨".jsx", by decide +kernel⟩ (by decide +kernel)
      (by decide +kernel)]
    rintro ⟨-, names, -, -, hlisted⟩
    have hopen := hlisted _ hentered
    revert hopen
    decide +kernel
  · refine (scan_contains_iff scanRoot_aliasFiles ignored_aliasFiles (by decide +kernel)
      (Files.leads_of_follow hplaces.2) hfiles.2 ⟨".jsx", by decide +kernel⟩ (by decide +kernel)
      (by decide +kernel)).2 ⟨?_, ["a"], Selection.way_of_mem_entered hentered,
        Selection.uncut_of_mem_entered hentered, ?_⟩
    · rw [scan_aliasFiles, List.forall_mem_singleton]
      decide +kernel
    · intro other hother
      rw [Selection.entered_unique hother hentered]
      decide +kernel

end Settings
end JsxLint
