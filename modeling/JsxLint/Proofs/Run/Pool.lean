import JsxLint.Proofs.Report.Totals
import JsxLint.Proofs.Run.Workers
import JsxLint.Proofs.Scan.Shown
import Mathlib.Logic.Relation

/-!
# Runs with several workers

Whatever the order in which several workers go on, they end with the outcomes and the file tree of a
run that works on the files one after the other, so with the same report.

* `Pool.Consistent`: what every step of the workers keeps;
* `Engine.workAll_eq`: the work on files one after the other;
* `Pool.exists_done`: workers can always get done with all files.
-/

namespace JsxLint

variable {e : Engine} {fault : Files.WriteStep → Option String} {f : Files} {jobs : List Job}
  {workers : Nat} {p p' : Pool}

namespace Pool

/-! ### Steps -/

/-- All files of a run with their phases, when the outcomes of some were collected. -/
def phases (p : Pool) (finished : List (Job × Outcome)) : List (Job × Phase) :=
  finished.map (fun x => (x.1, .done x.2)) ++ p.running ++ p.waiting.map fun job => (job, .started)

/-- What every step of a run on the file tree `f` keeps. -/
def Consistent (e : Engine) (fault : Files.WriteStep → Option String) (f : Files) (jobs : List Job)
    (p : Pool) : Prop :=
  ∃ finished, p.completed = finished.map (·.2) ∧ ((p.phases finished).map (·.1)).Perm jobs ∧
    e.Underway fault f p.state.files (p.phases finished)

/-- Nothing is known, and nothing has to be known, of files that nothing was done with. -/
theorem underway_started (e : Engine) (fault : Files.WriteStep → Option String) (f : Files)
    (jobs : List Job) : e.Underway fault f f (jobs.map fun job => (job, .started)) := by
  have hdone : Engine.doneOf (jobs.map fun job => (job, .started)) = [] := by
    induction jobs with
    | nil => rfl
    | cons job rest ih => rwa [List.map_cons, Engine.doneOf_cons_of_not id]
  have htemporaries : Engine.temporariesOf (jobs.map fun job => (job, .started)) = [] := by
    induction jobs with
    | nil => rfl
    | cons job rest ih =>
      rw [List.map_cons, Engine.doneOf_cons_of_not id] at hdone
      rw [List.map_cons, Engine.temporariesOf_cons_of_none rfl, ih hdone]
  constructor
  · rw [hdone, htemporaries]
    exact .refl f
  · rw [htemporaries]
    exact List.nodup_nil
  · intro x hx
    obtain ⟨job, -, rfl⟩ := List.mem_map.1 hx
    trivial

theorem consistent_start (e : Engine) (fault : Files.WriteStep → Option String) (f : Files)
    (jobs : List Job) : (start f jobs).Consistent e fault f jobs := by
  have hphases : (start f jobs).phases [] = jobs.map fun job => (job, .started) := rfl
  refine ⟨[], rfl, ?_, ?_⟩
  · rw [hphases, List.map_map]
    simp [Function.comp_def]
  · rw [hphases]
    exact underway_started e fault f jobs

/-- What one step keeps. -/
theorem Consistent.step (hsteady : e.faults.Steady) (hseparate : f.Separate jobs)
    (h : p.Consistent e fault f jobs) (hstep : Step e fault workers p p') :
    p'.Consistent e fault f jobs := by
  obtain ⟨finished, hcompleted, hperm, hunderway⟩ := h
  cases hstep with
  | @takeUp s job waiting running completed hfree =>
    refine ⟨finished, hcompleted, ?_, ?_⟩
    · simpa [phases] using hperm
    · simpa [phases] using hunderway
  | @goOn s job phase waiting before after completed mark =>
    -- the file that a worker goes on with is brought to the front
    let others := finished.map (fun x => (x.1, Phase.done x.2)) ++ before ++ after ++
      waiting.map fun job => (job, .started)
    have hmiddle : ∀ (s : State) (phase : Phase),
        (phases ⟨s, waiting, before ++ (job, phase) :: after, completed⟩ finished).Perm
          ((job, phase) :: others) := by
      intro s phase
      simp only [phases, others, List.append_assoc, List.cons_append]
      rw [← List.append_assoc, ← List.append_assoc]
      exact List.perm_middle
    have hjobs : (job :: others.map (·.1)).Perm jobs := ((hmiddle s phase).map _).symm.trans hperm
    have hnow := hunderway.perm (hmiddle s phase) (hseparate.perm hperm.symm)
    have hnext := hnow.proceed hsteady (hseparate.perm hjobs.symm) mark
    refine ⟨finished, hcompleted, ?_, ?_⟩
    · exact ((hmiddle _ _).map _).trans hjobs
    · exact hnext.perm (hmiddle _ _).symm (hseparate.perm hjobs.symm)
  | @complete s job o waiting before after completed =>
    -- the file is listed with the finished ones now, and nothing else is new
    have hmoved : (phases ⟨s, waiting, before ++ (job, .done o) :: after, completed⟩ finished).Perm
        (phases ⟨s, waiting, before ++ after, completed ++ [o]⟩ (finished ++ [(job, o)])) := by
      simp only [phases, List.map_append, List.map_cons, List.map_nil, List.append_assoc,
        List.cons_append, List.nil_append]
      exact List.Perm.append_left _ List.perm_middle
    refine ⟨finished ++ [(job, o)], ?_, ?_, ?_⟩
    · simpa using hcompleted
    · exact (hmoved.map _).symm.trans hperm
    · exact hunderway.perm hmoved (hseparate.perm hperm.symm)

/-- What a whole run keeps. -/
theorem Consistent.run (hsteady : e.faults.Steady) (hseparate : f.Separate jobs)
    (hrun : Relation.ReflTransGen (Step e fault workers) (start f jobs) p) :
    p.Consistent e fault f jobs := by
  induction hrun with
  | refl => exact consistent_start e fault f jobs
  | tail _ hstep ih => exact ih.step hsteady hseparate hstep

/-- What is there when all files were worked on. -/
theorem Consistent.of_isDone (hseparate : f.Separate jobs) (h : p.Consistent e fault f jobs)
    (hdone : p.IsDone) :
    p.completed.Perm (jobs.map (e.expected fault f)) ∧ p.state.files = e.settle fault f jobs := by
  obtain ⟨finished, hcompleted, hperm, hunderway⟩ := h
  have hphases : p.phases finished = finished.map fun x => (x.1, .done x.2) := by
    unfold phases
    rw [hdone.1, hdone.2]
    simp
  rw [hphases] at hperm hunderway
  have hjobs : (finished.map (·.1)).Perm jobs := by
    simpa [Function.comp_def] using hperm
  have hcompleted : p.completed = (finished.map (·.1)).map (e.expected fault f) := by
    rw [hcompleted, List.map_map]
    refine List.map_congr_left fun x hx => ?_
    exact hunderway.sound (x.1, .done x.2) (List.mem_map_of_mem hx)
  have hall : ∀ l : List (Job × Outcome),
      Engine.doneOf (l.map fun x => (x.1, .done x.2)) = l.map (·.1) ∧
        Engine.temporariesOf (l.map fun x => (x.1, .done x.2)) = [] := by
    intro l
    induction l with
    | nil => exact ⟨rfl, rfl⟩
    | cons x l ih =>
      rw [List.map_cons, Engine.doneOf_cons_done,
        Engine.temporariesOf_cons_of_none rfl, ih.1, ih.2]
      exact ⟨rfl, rfl⟩
  have hhosts := hunderway.hosts
  rw [(hall finished).1, (hall finished).2] at hhosts
  refine ⟨hcompleted ▸ hjobs.map _, hhosts.eq.trans ?_⟩
  exact Engine.settle_perm hjobs (hseparate.perm hjobs.symm)

/-! ### Getting done -/

end Pool

/-- How many steps the work on a file takes yet. -/
def Phase.remaining : Phase → Nat
  | .started => 6
  | .repaired _ _ => 5
  | .created _ _ _ => 4
  | .filled _ _ _ => 3
  | .moded _ _ => 2
  | .done _ => 1

/-- A worker that is not done can make a step towards that, when its temporary file gets a name of
its own. -/
theorem Engine.exists_proceed (e : Engine) (fault : Files.WriteStep → Option String) (job : Job)
    (s : State) {phase : Phase} (hnot : ¬ phase.IsDone) :
    ∃ mark, (e.proceed fault job mark s phase).2.remaining < phase.remaining := by
  cases phase with
  | started =>
    refine ⟨"", ?_⟩
    unfold proceed
    dsimp only
    cases readText s.files job.path with
    | error message => simp [Phase.remaining]
    | ok text =>
      dsimp only
      cases (e.analyse job.shown text none s.calls).1.output <;> simp [Phase.remaining]
  | repaired o text =>
    cases hplace : s.files.locateEntry job.path with
    | error error =>
      refine ⟨"", ?_⟩
      simp [proceed, Files.temporaryFor, hplace, unsaved, Phase.remaining]
    | ok place =>
      -- a mark as long as the longest name there makes a name that is longer
      let mark := String.ofList (List.replicate (s.files.longestName place.dropLast) 'x')
      refine ⟨mark, ?_⟩
      have hfresh := Files.temporary_fresh s.files place.dropLast job.path.name
      have hfree : s.files.get?
          (place.dropLast ++ [Files.temporaryNameWith mark job.path.name]) = none := by
        by_contra hne
        obtain ⟨entry, hentry⟩ := Option.ne_none_iff_exists'.1 hne
        exact hfresh (Files.mem_places (by simp) hentry)
      unfold proceed Files.temporaryFor
      rw [hplace]
      dsimp only
      cases s.files.createFault job.path place.dropLast fault with
      | some message => simp [unsaved, Phase.remaining]
      | none => simp [hfree, Phase.remaining]
  | created o text temporary =>
    refine ⟨"", ?_⟩
    unfold proceed
    dsimp only
    cases fault .fill <;> simp [unsaved, Phase.remaining]
  | filled o text temporary =>
    refine ⟨"", ?_⟩
    unfold proceed
    dsimp only
    cases s.files.modeFor job.path fault <;> simp [unsaved, Phase.remaining]
  | moded o temporary =>
    refine ⟨"", ?_⟩
    unfold proceed
    dsimp only
    cases s.files.moveTo job.path temporary fault <;> simp [unsaved, Phase.remaining]
  | done o => exact absurd trivial hnot

namespace Pool

/-- How many steps a run takes yet. -/
def remaining (p : Pool) : Nat :=
  Report.total (p.running.map fun x => x.2.remaining) + 7 * p.waiting.length

/-- Workers that are not done with all files can make a step towards that. -/
theorem exists_step (e : Engine) (fault : Files.WriteStep → Option String) (hworkers : 0 < workers)
    (hnot : ¬ p.IsDone) : ∃ p', Step e fault workers p p' ∧ p'.remaining < p.remaining := by
  obtain ⟨s, waiting, running, completed⟩ := p
  cases running with
  | nil =>
    cases waiting with
    | nil => exact absurd ⟨rfl, rfl⟩ hnot
    | cons job waiting =>
      refine ⟨_, .takeUp hworkers, ?_⟩
      simp [remaining, Report.total, Phase.remaining]
      omega
  | cons x after =>
    obtain ⟨job, phase⟩ := x
    by_cases hdone : phase.IsDone
    · cases phase with
      | done o =>
        have hstep : Step e fault workers ⟨s, waiting, [] ++ (job, .done o) :: after, completed⟩
            ⟨s, waiting, [] ++ after, completed ++ [o]⟩ := .complete
        refine ⟨_, hstep, ?_⟩
        simp [remaining, Report.total, Phase.remaining]
      | _ => exact hdone.elim
    · obtain ⟨mark, hmark⟩ := e.exists_proceed fault job s hdone
      have hstep : Step e fault workers ⟨s, waiting, [] ++ (job, phase) :: after, completed⟩
          ⟨(e.proceed fault job mark s phase).1, waiting,
            [] ++ (job, (e.proceed fault job mark s phase).2) :: after, completed⟩ := .goOn mark
      refine ⟨_, hstep, ?_⟩
      simp only [remaining, Report.total, List.nil_append, List.map_cons, List.foldr_cons]
      omega

/-- Workers can always get done with all files. -/
theorem exists_done (e : Engine) (fault : Files.WriteStep → Option String) (hworkers : 0 < workers)
    (p : Pool) : ∃ p', Relation.ReflTransGen (Step e fault workers) p p' ∧ p'.IsDone := by
  -- on the number of steps that are left
  induction hn : p.remaining using Nat.strong_induction_on generalizing p with
  | _ n ih =>
    by_cases hdone : p.IsDone
    · exact ⟨p, .refl, hdone⟩
    · obtain ⟨next, hstep, hlt⟩ := exists_step e fault hworkers hdone
      obtain ⟨last, hrun, hlast⟩ := ih next.remaining (hn ▸ hlt) next rfl
      exact ⟨last, .head hstep hrun, hlast⟩

end Pool

/-! ### One after the other -/

/-- The work on files one after the other, without an interruption. -/
theorem Engine.workAll_eq (fault : Files.WriteStep → Option String) (hsteady : e.faults.Steady)
    {done rest : List Job} (hseparate : f.Separate (rest ++ done)) (number : Nat) (calls : Calls) :
    (e.workAll ⟨fault, none⟩ number ⟨e.settle fault f done, calls⟩ rest).outcomes =
        rest.map (e.expected fault f) ∧
      (e.workAll ⟨fault, none⟩ number ⟨e.settle fault f done, calls⟩ rest).state.files =
        e.settle fault f (rest.reverse ++ done) ∧
      (e.workAll ⟨fault, none⟩ number ⟨e.settle fault f done, calls⟩ rest).isInterrupted =
        false := by
  -- what is done so far is settled in the tree, the last file first
  induction rest generalizing done number calls with
  | nil => exact ⟨rfl, rfl, rfl⟩
  | cons job rest ih =>
    have hdone : f.Separate done := hseparate.sublist (List.sublist_append_right _ _)
    have hjob : f.Separate (job :: done) :=
      hseparate.sublist ((List.sublist_append_right rest done).cons_cons job)
    obtain ⟨content, mode, hregular⟩ := hseparate.regular job List.mem_cons_self
    have hgrown : f.Grown (e.settle fault f done) := grown_settle hsteady hdone
    have hnow := hregular.grown hgrown (get?_settle hdone hjob.head_notMem)
    obtain ⟨hexpected, hlanding, -⟩ :=
      work_congr fault hsteady hregular hnow hgrown.locked calls
    have hrest : f.Separate (rest ++ job :: done) := hseparate.perm List.perm_middle.symm
    generalize hwork : e.work fault ⟨e.settle fault f done, calls⟩ job = result
      at hexpected hlanding
    obtain ⟨o, files, calls'⟩ := result
    have hsettle : files = e.settle fault f (job :: done) := hlanding
    obtain ⟨houtcomes, hfiles, hwhole⟩ := ih hrest (number + 1) calls'
    unfold workAll
    rw [hwork, hsettle]
    simp only [reduceCtorEq, if_false]
    rw [houtcomes, hfiles, hwhole]
    exact ⟨congrArg (· :: _) hexpected, by simp, rfl⟩

/-! ### Reports -/

namespace Engine

theorem conclude_path (path : String) (p : Progress) : (e.conclude path p).path = path := by
  unfold conclude
  dsimp only
  split_ifs
  · rfl
  · split <;> rfl

theorem analyse_path (path text : String) (fix : Option Bool) (calls : Calls) :
    (e.analyse path text fix calls).1.path = path := by
  unfold analyse
  split
  · rfl
  · rfl
  · split
    · rfl
    · exact conclude_path path _

/-- An outcome is called what its file is called. -/
theorem work_path (s : State) (job : Job) : (e.work fault s job).1.path = job.shown := by
  unfold work
  split
  · rfl
  · next text _ =>
    have hpath := analyse_path (e := e) job.shown text none s.calls
    unfold save
    dsimp only
    split
    · exact hpath
    · split <;> exact hpath

end Engine

/-- The parts of a report on files that are called differently are on each of them once, in the
order of what they are called. -/
theorem Report.files_ofOutcomes {outcomes : List Outcome} {names : List String}
    (hpaths : (outcomes.map (·.path)).Perm names) (hnames : names.Nodup) (interrupted : Bool) :
    ((ofOutcomes outcomes interrupted).files.map (·.file)).Perm names ∧
      (ofOutcomes outcomes interrupted).files.Pairwise fun a b => a.file < b.file := by
  have hfiles : (ofOutcomes outcomes interrupted).files =
      (outcomes.mergeSort outcomeLe).map ofOutcome := rfl
  rw [hfiles]
  constructor
  · rw [List.map_map]
    exact ((mergeSort_perm_outcomes outcomes).map _).trans hpaths
  · rw [List.pairwise_map]
    exact pairwise_lt_path (hpaths.nodup_iff.2 hnames)

/-- The order in which outcomes come does not matter. The report on outcomes of different files is
the same in any order of them. So a run over distinct regular files that are worked on by any number
of workers, whose steps come in any order, ends with the report and the file tree of a run that
works on them one after the other, and it can always be brought to its end. Each file has one part
in the report, in the order of their paths. -/
theorem run_workers (fault : Files.WriteStep → Option String) {s : Settings}
    {scan : Settings.Scan} (hscan : s.scan f s.root = .ok scan) (hnames : f.Slashless)
    (hseparate : f.Separate scan.jobs) (hsteady : e.faults.Steady) (hworkers : 0 < workers) :
    (∀ outcomes others : List Outcome, outcomes.Perm others → (outcomes.map (·.path)).Nodup →
      ∀ interrupted, Report.ofOutcomes outcomes interrupted = .ofOutcomes others interrupted) ∧
    ∃ report files, s.run e ⟨fault, none⟩ f = .ok (report, files) ∧
      (∀ p, Relation.ReflTransGen (Pool.Step e fault workers) (.start f scan.jobs) p → p.IsDone →
        Report.ofOutcomes p.completed false = report ∧ p.state.files = files) ∧
      (∀ p, Relation.ReflTransGen (Pool.Step e fault workers) (.start f scan.jobs) p →
        ∃ p', Relation.ReflTransGen (Pool.Step e fault workers) p p' ∧ p'.IsDone) ∧
      (report.files.map (·.file)).Perm (scan.jobs.map (·.shown)) ∧
      report.files.Pairwise fun a b => a.file < b.file := by
  have hshown := Settings.Scan.shown_nodup hscan hnames (List.Nodup.of_map _ hseparate.distinct)
  have hall : f.Separate (scan.jobs ++ []) := by rwa [List.append_nil]
  obtain ⟨houtcomes, hfiles, hwhole⟩ := Engine.workAll_eq fault hsteady hall 1 .none
  have hpaths : (scan.jobs.map (e.expected fault f)).map (·.path) = scan.jobs.map (·.shown) := by
    rw [List.map_map]
    exact List.map_congr_left fun job _ => Engine.work_path _ job
  refine ⟨fun outcomes others hperm hnodup => Report.ofOutcomes_perm hperm hnodup,
    .ofOutcomes (scan.jobs.map (e.expected fault f)) false, e.settle fault f scan.jobs, ?_,
    fun p hrun hdone => ?_, fun p _ => Pool.exists_done e fault hworkers p, ?_⟩
  · unfold Settings.run
    rw [hscan]
    have horder : e.settle fault f (scan.jobs.reverse ++ []) = e.settle fault f scan.jobs := by
      rw [List.append_nil]
      exact Engine.settle_perm (List.reverse_perm _)
        (hseparate.perm (List.reverse_perm scan.jobs).symm)
    have hstart : e.settle fault f [] = f := rfl
    rw [hstart] at houtcomes hfiles hwhole
    simp only [Except.map, houtcomes, hfiles, hwhole, horder]
  · obtain ⟨hperm, htree⟩ :=
      (Pool.Consistent.run hsteady hseparate hrun).of_isDone hseparate hdone
    refine ⟨Report.ofOutcomes_perm hperm ?_ false, htree⟩
    rw [(hperm.map _).nodup_iff, hpaths]
    exact hshown
  · exact Report.files_ofOutcomes (.of_eq hpaths) hshown false

/-! ### A run on two files -/

/-- A file tree with two files. -/
def pairFiles : Files :=
  ⟨[(["A.jsx"], .file (Utf8.encode Engine.hollowText) 0o640),
    (["B.jsx"], .file (Utf8.encode Engine.hollowText) 0o600)], [], []⟩

/-- The scan of `pairFiles`. -/
def pairScan : Settings.Scan :=
  ⟨⟨"/", []⟩, [["A.jsx"], ["B.jsx"]]⟩

theorem scan_pairFiles : Settings.plain.scan pairFiles Settings.plain.root = .ok pairScan := by
  have hdirectory : pairFiles.find (Selection.below ⟨"/", []⟩ []) = .ok ([], .directory) := by
    decide +kernel
  exact Settings.scan_flat rfl (by decide +kernel) hdirectory (by decide +kernel)
    (by decide +kernel) (by decide +kernel) (by decide +kernel)

theorem separate_pairFiles : pairFiles.Separate pairScan.jobs := by
  have hjobs : pairScan.jobs = [⟨⟨"/", ["A.jsx"]⟩, "A.jsx"⟩, ⟨⟨"/", ["B.jsx"]⟩, "B.jsx"⟩] := by
    decide +kernel
  rw [hjobs]
  constructor
  · rw [List.forall_mem_cons, List.forall_mem_singleton]
    exact ⟨⟨Utf8.encode Engine.hollowText, 0o640, by decide +kernel, by decide +kernel⟩,
      ⟨Utf8.encode Engine.hollowText, 0o600, by decide +kernel, by decide +kernel⟩⟩
  · decide +kernel

/-- Two workers on the files of `pairFiles` end as one does. -/
theorem pair_workers : ∃ report files,
    Settings.plain.run Engine.hollow .none pairFiles = .ok (report, files) ∧
    (∀ p, Relation.ReflTransGen (Pool.Step Engine.hollow (fun _ => none) 2)
        (.start pairFiles pairScan.jobs) p → p.IsDone →
      Report.ofOutcomes p.completed false = report ∧ p.state.files = files) ∧
    (report.files.map (·.file)).Perm ["A.jsx", "B.jsx"] := by
  have hnames : pairFiles.Slashless := by
    unfold Files.Slashless
    decide +kernel
  have hsteady : Engine.hollow.faults.Steady := Faults.steady_none
  have hshown : pairScan.jobs.map (·.shown) = ["A.jsx", "B.jsx"] := by decide +kernel
  have hworkers : 0 < 2 := by decide
  obtain ⟨-, report, files, hrun, hends, -, hperm, -⟩ :=
    run_workers (fun _ => none) scan_pairFiles hnames separate_pairFiles hsteady hworkers
  rw [hshown] at hperm
  exact ⟨report, files, hrun, hends, hperm⟩

end JsxLint
