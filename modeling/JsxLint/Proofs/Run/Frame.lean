import JsxLint.Proofs.Files.Keeping
import JsxLint.Proofs.Run.Interruption
import JsxLint.Proofs.Run.Saving
import JsxLint.Proofs.Scan.Finding

/-!
# What a run leaves alone

A run replaces what the paths of the written files name, which is in different places, and changes
nothing else. A file that is replaced keeps its mode. A link that is named so is replaced itself: it
is a file then, and the one that it led to is as it was.

* `Progressed.writes`: the jobs of a run whose files were written;
* `Files.Framed`: what jobs leave alone, and what they leave in place;
* `Engine.framed_workAll`: work on files that stand in different places;
* `Settings.apart_jobs`: the files of a scan do;
* `Settings.run_framed`: what a run leaves of the file tree.
-/

namespace JsxLint

variable {f before between after : Files} {job : Job} {jobs : List Job}
  {first second : List (Job × Outcome)}

/-! ### Places of jobs -/

/-- Whether the path of a job is that of a name in a directory. -/
def Job.IsEntry (job : Job) : Prop :=
  ∃ path name, job.path = Path.child path name ∧ name ≠ "." ∧ name ≠ ".."

/-- Whether jobs have different places in a file tree. -/
def Files.Apart (f : Files) (jobs : List Job) : Prop :=
  jobs.Pairwise fun a b => ∀ q, f.locateEntry a.path = .ok q → f.locateEntry b.path ≠ .ok q

/-- Whether the repaired text of a job is in its place, with the mode of the file that stood there
before, or that a link there led to. -/
def Job.InPlace (job : Job) (o : Outcome) (before after : Files) : Prop :=
  ∃ q text mode, before.locateEntry job.path = .ok q ∧ before.StandsFor q mode ∧
    o.output = some text ∧ after.get? q = some (.file (Utf8.encode text) mode)

/-- The jobs of a run whose files were written, with their outcomes. -/
def Progressed.writes (p : Progressed) (jobs : List Job) : List (Job × Outcome) :=
  (jobs.zip p.outcomes).filter (·.2.written)

theorem Progressed.mem_jobs_of_mem_writes {p : Progressed} {w : Job × Outcome}
    (h : w ∈ p.writes jobs) : w.1 ∈ jobs :=
  (List.of_mem_zip (List.mem_filter.1 h).1).1

theorem Progressed.writes_cons (p : Progressed) (o : Outcome) (job : Job) (jobs : List Job) :
    Progressed.writes { p with outcomes := o :: p.outcomes } (job :: jobs) =
      (if o.written then [(job, o)] else []) ++ p.writes jobs := by
  unfold writes
  rw [List.zip_cons_cons, List.filter_cons]
  split <;> rfl

/-- The files that a report tells as written. -/
theorem Report.written_ofOutcomes (outcomes : List Outcome) (interrupted : Bool) :
    (((ofOutcomes outcomes interrupted).files.filter (·.written)).map (·.file)).Perm
      ((outcomes.filter (·.written)).map (·.path)) := by
  have hfiles : ((ofOutcomes outcomes interrupted).files.filter (·.written)).map (·.file) =
      ((outcomes.mergeSort outcomeLe).filter (·.written)).map (·.path) := by
    simp only [ofOutcomes, List.filter_map, List.map_map]
    rfl
  rw [hfiles]
  exact ((List.mergeSort_perm outcomes outcomeLe).filter _).map _

/-- What jobs leave of the file tree `f` when they change one file tree into another one: what is
kept when files are replaced, what stands elsewhere, and the texts that were written. -/
structure Files.Framed (f before after : Files) (writes : List (Job × Outcome)) : Prop where
  kept : f.Kept after
  elsewhere : ∀ q, (∀ w ∈ writes, f.locateEntry w.1.path ≠ .ok q) → after.get? q = before.get? q
  inPlace : ∀ w ∈ writes, w.1.InPlace w.2 f after

namespace Files.Framed

theorem refl (h : f.Kept before) : f.Framed before before [] :=
  ⟨h, fun _ _ => rfl, by simp⟩

theorem append (h : f.Framed before between first) (h' : f.Framed between after second)
    (hapart : ∀ w ∈ first, ∀ v ∈ second, ∀ q, f.locateEntry w.1.path = .ok q →
      f.locateEntry v.1.path ≠ .ok q) : f.Framed before after (first ++ second) := by
  refine ⟨h'.kept, fun q hq => ?_, fun w hw => ?_⟩
  · obtain ⟨hfirst, hsecond⟩ := List.forall_mem_append.1 hq
    exact (h'.elsewhere q hsecond).trans (h.elsewhere q hfirst)
  · rcases List.mem_append.1 hw with hw | hw
    · obtain ⟨q, text, mode, hplace, hbefore, hout, hentry⟩ := h.inPlace w hw
      refine ⟨q, text, mode, hplace, hbefore, hout, ?_⟩
      rw [h'.elsewhere q fun v hv => hapart w hw v hv q hplace, hentry]
    · exact h'.inPlace w hw

end Files.Framed

/-! ### Work on files -/

namespace Engine

variable {e : Engine} {fault : Files.WriteStep → Option String} {s : State}

theorem find_of_readText {p : Path} {text : String} (h : readText f p = .ok text) :
    ∃ q content mode, f.find p = .ok (q, .file content mode) := by
  unfold readText Files.content at h
  split at h
  · cases h
  · next hcontent =>
    split at hcontent
    · next q content mode hfind => exact ⟨q, content, mode, hfind⟩
    · cases hcontent
    · cases hcontent

/-- The work on a file changes nothing, or puts the repaired text where the path says. -/
theorem work_cases (e : Engine) (fault : Files.WriteStep → Option String) (s : State) (job : Job) :
    ((e.work fault s job).1.written = false ∧ (e.work fault s job).2.files = s.files) ∨
    ((e.work fault s job).1.written ∧ ∃ q r content mode text,
      s.files.locateEntry job.path = .ok q ∧
      s.files.find job.path = .ok (r, .file content mode) ∧
      (e.work fault s job).1.output = some text ∧
      (e.work fault s job).2.files = s.files.put q (.file (Utf8.encode text) mode)) := by
  cases hread : readText s.files job.path with
  | error message =>
    left
    unfold work
    rw [hread]
    exact ⟨rfl, rfl⟩
  | ok source =>
    have hunwritten := (analyse_analysed e job.shown source none s.calls).unwritten.1
    obtain ⟨r, content, mode, hfind⟩ := find_of_readText hread
    rw [work_of_text hread]
    unfold save
    cases hout : (e.analyse job.shown source none s.calls).1.output with
    | none => exact .inl ⟨hunwritten, rfl⟩
    | some text =>
      dsimp only
      cases hplace : s.files.locateEntry job.path with
      | error error =>
        left
        unfold Files.replace
        rw [hplace]
        exact ⟨hunwritten, rfl⟩
      | ok q =>
        rw [Files.replace_of_find hplace hfind]
        cases s.files.replaceFault job.path q.dropLast fault with
        | some message => exact .inl ⟨hunwritten, rfl⟩
        | none => exact .inr ⟨rfl, q, r, content, mode, text, rfl, hfind, rfl, rfl⟩

/-- What the work on one file leaves. -/
theorem framed_work (hf : f.Proper) (h : f.Kept s.files) (hjob : job.IsEntry) :
    f.Framed s.files (e.work fault s job).2.files
      (if (e.work fault s job).1.written then [(job, (e.work fault s job).1)] else []) := by
  rcases e.work_cases fault s job with
    ⟨hwritten, hfiles⟩ | ⟨hwritten, q, r, content, mode, text, hplace, hfind, hout, hfiles⟩
  · rw [hwritten, hfiles]
    exact .refl h
  · obtain ⟨path, name, hpath, hdots⟩ := hjob
    rw [hpath] at hplace hfind
    -- the path was looked up in the present file tree; its place is the same in the first one
    have hbefore := h.standsFor hf hdots hplace hfind
    have hq : q ≠ [] := by
      obtain ⟨-, directory, -, -, -, rfl⟩ := Files.locateEntry_child_iff.1 hplace
      simp
    rw [h.locateEntry_iff, ← hpath] at hplace
    rw [if_pos hwritten, hfiles]
    refine ⟨h.put hq hbefore _, fun r hr => ?_, fun w hw => ?_⟩
    · have hne : r ≠ q := fun heq => (List.forall_mem_singleton.1 hr) (heq ▸ hplace)
      rw [Files.get?_put hq, if_neg hne]
    · rw [List.mem_singleton.1 hw]
      refine ⟨q, text, mode, hplace, hbefore, hout, ?_⟩
      rw [Files.get?_put hq, if_pos rfl]

/-- The paths of the outcomes of written files are those of their jobs. -/
theorem map_path_written (faults : RunFaults) (number : Nat) (s : State) (jobs : List Job) :
    ((e.workAll faults number s jobs).outcomes.filter (·.written)).map (·.path) =
      ((e.workAll faults number s jobs).writes jobs).map (·.1.shown) := by
  induction jobs generalizing number s with
  | nil => rfl
  | cons job rest ih =>
    by_cases hinterrupt : faults.interrupt = some number
    · unfold workAll
      rw [if_pos hinterrupt]
      rfl
    · rw [workAll_cons_of_ne hinterrupt, Progressed.writes_cons, List.map_append, ← ih,
        List.filter_cons]
      split <;> simp [work_path]

/-- What work on files leaves that have different places. -/
theorem framed_workAll (hf : f.Proper) (h : f.Kept s.files) (hjobs : ∀ job ∈ jobs, job.IsEntry)
    (hapart : f.Apart jobs) (faults : RunFaults) (number : Nat) :
    f.Framed s.files (e.workAll faults number s jobs).state.files
      ((e.workAll faults number s jobs).writes jobs) := by
  induction jobs generalizing number s with
  | nil => exact .refl h
  | cons job rest ih =>
    obtain ⟨hjob, hrest⟩ := List.forall_mem_cons.1 hjobs
    obtain ⟨hhead, htail⟩ := List.pairwise_cons.1 hapart
    by_cases hinterrupt : faults.interrupt = some number
    · unfold workAll
      rw [if_pos hinterrupt]
      exact .refl h
    · have hwork : f.Framed s.files (e.work faults.write s job).2.files _ := framed_work hf h hjob
      rw [workAll_cons_of_ne hinterrupt, Progressed.writes_cons]
      refine hwork.append (ih hwork.kept hrest htail (number + 1)) fun w hw v hv => ?_
      have hw' : w.1 = job := by
        split_ifs at hw
        · rw [List.mem_singleton.1 hw]
        · cases hw
      -- a later job has another place, so it leaves what this one wrote
      rw [hw']
      exact hhead v.1 (Progressed.mem_jobs_of_mem_writes hv)

end Engine

/-! ### Scanned files -/

namespace Selection

variable {s : Selection} {root : Path} {names : Names} {name : String}

theorem below_append_singleton : below root (names ++ [name]) = (below root names).child name := by
  simp [below, Path.child]

/-- Where a name in an entered directory stands. -/
theorem place_of_entered {v : Names × RealPath} {q : RealPath} (hv : v ∈ s.entered f root)
    (hplace : f.locateEntry (below root (v.1 ++ [name])) = .ok q) : q = v.2 ++ [name] := by
  rw [below_append_singleton, Files.locateEntry_child_iff] at hplace
  obtain ⟨-, directory, hdirectory, -, -, rfl⟩ := hplace
  rw [Files.locate_of_find (way_of_mem_entered hv).find] at hdirectory
  cases hdirectory
  rfl

end Selection

namespace Settings

variable {s : Settings} {e : Engine} {faults : RunFaults} {g : Files} {scan : Settings.Scan}
  {path : Path} {report : Report}

/-- Scanned files are names in directories that the scan enters. -/
theorem exists_entered_of_mem_files (hscan : s.scan f path = .ok scan) :
    ∃ isIgnored, scan.files = (s.selection isIgnored).scan f scan.root ∧ ∀ names ∈ scan.files,
      ∃ v ∈ (s.selection isIgnored).entered f scan.root, ∃ name ∈ f.names v.2,
        names = v.1 ++ [name] := by
  obtain ⟨isIgnored, hfiles⟩ := Settings.scan_files hscan
  refine ⟨isIgnored, hfiles, fun names hnames => ?_⟩
  rw [hfiles] at hnames
  obtain ⟨v, hv, hmem⟩ := Selection.mem_scan.1 hnames
  obtain ⟨name, hname, heq, -⟩ := Selection.mem_filesIn.1 hmem
  exact ⟨v, hv, name, hname, heq⟩

theorem isEntry_of_mem_jobs (hf : f.Proper) (hscan : s.scan f path = .ok scan) :
    ∀ job ∈ scan.jobs, job.IsEntry := by
  obtain ⟨isIgnored, -, hentered⟩ := exists_entered_of_mem_files hscan
  intro job hjob
  obtain ⟨names, hnames, rfl⟩ := List.mem_map.1 hjob
  obtain ⟨v, -, name, hname, rfl⟩ := hentered names hnames
  exact ⟨_, name, Selection.below_append_singleton, hf.undotted_of_mem_names hname⟩

/-- Scanned files have different places, as no directory is entered twice. -/
theorem apart_jobs (hf : f.Proper) (hscan : s.scan f path = .ok scan) : f.Apart scan.jobs := by
  obtain ⟨isIgnored, hfiles, hentered⟩ := exists_entered_of_mem_files hscan
  have hnodup : scan.files.Nodup := hfiles ▸ Selection.nodup_scan hf.nodup _ _
  unfold Files.Apart Scan.jobs
  rw [List.pairwise_map]
  refine hnodup.imp_of_mem fun {names others} hnames hothers hne q hplace hplace' => hne ?_
  obtain ⟨v, hv, name, -, rfl⟩ := hentered names hnames
  obtain ⟨u, hu, name', -, rfl⟩ := hentered others hothers
  -- one place is one name in one directory, which is entered by one way
  have hq := Selection.place_of_entered hv hplace
  rw [Selection.place_of_entered hu hplace'] at hq
  obtain ⟨hdirectory, hname⟩ := List.append_inj' hq rfl
  obtain ⟨v, here⟩ := v
  obtain ⟨u, there⟩ := u
  subst hdirectory
  rw [Selection.entered_unique hv hu, hname]

/-- A run keeps the structure of a file tree, apart from links. Nothing is made or taken away,
directories stay, and files keep their modes. What stands somewhere is as it was, unless a path that
is reported as written names it; then it is a file with the output of that work. So a link is lost
exactly when such a path names it, and the file that it led to is left alone. -/
theorem run_framed (hf : f.Proper) (hscan : s.scan f s.root = .ok scan)
    (hrun : s.run e faults f = .ok (report, g)) :
    ∃ p, p = e.workAll faults 1 ⟨f, .none⟩ scan.jobs ∧
      ((report.files.filter (·.written)).map (·.file)).Perm
        ((p.writes scan.jobs).map (·.1.shown)) ∧
      g.places = f.places ∧
      (∀ q, f.get? q = some .directory → g.get? q = some .directory) ∧
      (∀ q content mode, f.get? q = some (.file content mode) →
        ∃ new, g.get? q = some (.file new mode)) ∧
      (∀ q target, f.get? q = some (.link target) → (g.get? q = some (.link target) ↔
        ∀ w ∈ p.writes scan.jobs, f.locateEntry w.1.path ≠ .ok q)) ∧
      (∀ q, (∀ w ∈ p.writes scan.jobs, f.locateEntry w.1.path ≠ .ok q) → g.get? q = f.get? q) ∧
      ∀ w ∈ p.writes scan.jobs, ∃ q text mode, f.locateEntry w.1.path = .ok q ∧
        f.StandsFor q mode ∧ w.2.output = some text ∧
        g.get? q = some (.file (Utf8.encode text) mode) := by
  unfold run at hrun
  rw [hscan] at hrun
  cases hrun
  have hframed := Engine.framed_workAll (s := ⟨f, .none⟩) (e := e) hf (.refl f)
    (isEntry_of_mem_jobs hf hscan) (apart_jobs hf hscan) faults 1
  refine ⟨_, rfl, ?_, hframed.kept.places, fun q => hframed.kept.directory,
    fun q content mode => hframed.kept.file, fun q target hq => ⟨fun hlink w hw hplace => ?_,
    fun hq' => ?_⟩, hframed.elsewhere, hframed.inPlace⟩
  · rw [← Engine.map_path_written]
    exact Report.written_ofOutcomes _ _
  · obtain ⟨q', text, mode, hplace', -, -, hentry⟩ := hframed.inPlace w hw
    cases hplace.symm.trans hplace'
    cases hlink.symm.trans hentry
  · exact (hframed.elsewhere q hq').trans hq

end Settings

/-! ### A tree with a link -/

/-- A link to a file with another extension, which has `Concrete.hollowList` in it. -/
def linkedFiles : Files :=
  ⟨[(["A.jsx"], .link "hollow.txt"),
    (["hollow.txt"], .file (Utf8.encode Engine.hollowText) 0o640)], [], []⟩

theorem scan_linkedFiles :
    Settings.plain.scan linkedFiles Settings.plain.root = .ok ⟨⟨"/", []⟩, [["A.jsx"]]⟩ := by
  have hdirectory : linkedFiles.find (Selection.below ⟨"/", []⟩ []) = .ok ([], .directory) := by
    decide +kernel
  exact Settings.scan_flat rfl (by decide +kernel) hdirectory (by decide +kernel)
    (by decide +kernel) (by decide +kernel) (by decide +kernel)

/-- The link of `linkedFiles` is written and lost, and the file that it led to is as it was. -/
theorem linked_run_framed : ∃ report g,
    Settings.plain.run Engine.hollow .none linkedFiles = .ok (report, g) ∧
      linkedFiles.get? ["A.jsx"] = some (.link "hollow.txt") ∧
      g.get? ["A.jsx"] ≠ some (.link "hollow.txt") ∧
      g.get? ["hollow.txt"] = some (.file (Utf8.encode Engine.hollowText) 0o640) := by
  have hproper : linkedFiles.Proper := by
    constructor <;> decide +kernel
  have hlink : linkedFiles.get? ["A.jsx"] = some (.link "hollow.txt") := by decide +kernel
  obtain ⟨report, g, hrun⟩ : ∃ report g,
      Settings.plain.run Engine.hollow .none linkedFiles = .ok (report, g) := by
    unfold Settings.run
    rw [scan_linkedFiles]
    simp only [Except.map]
    exact ⟨_, _, rfl⟩
  obtain ⟨p, hp, -, -, -, -, hlinks, helsewhere, -⟩ :=
    Settings.run_framed hproper scan_linkedFiles hrun
  have hwrites : (p.writes (Settings.Scan.jobs ⟨⟨"/", []⟩, [["A.jsx"]]⟩)).map (·.1.path) =
      [⟨"/", ["A.jsx"]⟩] := by
    rw [hp]
    decide +kernel
  have hplace : linkedFiles.locateEntry ⟨"/", ["A.jsx"]⟩ = .ok ["A.jsx"] := by decide +kernel
  refine ⟨report, g, hrun, hlink, fun hkept => ?_, ?_⟩
  · have hmem : (⟨"/", ["A.jsx"]⟩ : Path) ∈ [⟨"/", ["A.jsx"]⟩] := List.mem_singleton_self _
    rw [← hwrites] at hmem
    obtain ⟨w, hw, hpath⟩ := List.mem_map.1 hmem
    exact (hlinks _ _ hlink).1 hkept w hw (hpath ▸ hplace)
  · rw [helsewhere ["hollow.txt"] fun w hw hother => ?_]
    · decide +kernel
    · have hpath := List.mem_map_of_mem (f := (·.1.path)) hw
      rw [hwrites, List.mem_singleton] at hpath
      rw [hpath, hplace] at hother
      exact absurd (Except.ok.inj hother) (by decide)

end JsxLint
