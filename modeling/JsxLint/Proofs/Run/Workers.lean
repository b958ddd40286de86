import JsxLint.Proofs.Analysis.Calls
import JsxLint.Proofs.Files.Growing
import JsxLint.Proofs.Run.Saving
import JsxLint.Run.Workers

/-!
# Workers that interleave

What becomes of a file does not depend on the work on other files, so workers come to the outcomes
and the file tree that one after the other would have come to, whatever the order of their steps.

* `Engine.expected`, `Engine.landing`: what becomes of a file on its own;
* `Engine.settle`: a file tree in which the work on some files is done;
* `Phase.Sound`: what is known of a file in the course of the work on it;
* `Engine.Underway`: what every step of a worker keeps.
-/

namespace JsxLint

/-- The real path that a path names. -/
def Files.placeOf (f : Files) (p : Path) : RealPath :=
  match f.locateEntry p with
  | .ok q => q
  | .error _ => []

theorem Files.Regular.mem_places {f : Files} {p : Path} {q : RealPath} {content : Bytes}
    {mode : Nat} (h : f.Regular p q content mode) : q ∈ f.places :=
  Files.mem_places h.ne_nil h.get?

/-- Whether the jobs are for regular files, no two of them for one file. -/
structure Files.Separate (f : Files) (jobs : List Job) : Prop where
  regular : ∀ job ∈ jobs, ∃ content mode, f.Regular job.path (f.placeOf job.path) content mode
  distinct : (jobs.map fun job => f.placeOf job.path).Nodup

namespace Engine

variable {e : Engine} {fault : Files.WriteStep → Option String} {f g b : Files} {job : Job}
  {bytes : Bytes} {mode : Nat}

/-! ### One file -/

/-- The outcome for a file that is worked on alone. -/
def expected (e : Engine) (fault : Files.WriteStep → Option String) (f : Files) (job : Job) :
    Outcome :=
  (e.work fault ⟨f, .none⟩ job).1

/-- What stands in the place of a file after it was worked on alone. -/
def landing (e : Engine) (fault : Files.WriteStep → Option String) (f : Files) (job : Job) :
    Entry :=
  ((e.work fault ⟨f, .none⟩ job).2.files.get? (f.placeOf job.path)).getD .directory

/-- What saving a repaired text in place of a regular file comes to. -/
theorem save_regular {p : Path} {q : RealPath} (h : f.Regular p q bytes mode) (o : Outcome) :
    save f p o fault = match o.output, f.replaceFault p q.dropLast fault with
      | none, _ => (o, f)
      | some _, some message =>
        ({ o.abandon (.notWritten message) with writeError := some message }, f)
      | some text, none =>
        ({ o with written := true, state := .written },
          f.put q (.file (Utf8.encode text) mode)) := by
  unfold save
  cases o.output with
  | none => rfl
  | some text =>
    dsimp only
    rw [Files.replace_eq h]
    cases f.replaceFault p q.dropLast fault <;> rfl

theorem readText_congr {p : Path} {q : RealPath} (hf : f.Regular p q bytes mode)
    (hg : g.Regular p q bytes mode) : readText g p = readText f p := by
  unfold readText
  rw [hf.content, hg.content]

/-- Putting back what a regular file has changes nothing. -/
theorem put_same {p : Path} {q : RealPath} (h : f.Regular p q bytes mode) :
    f.put q (.file bytes mode) = f :=
  Files.put_eq_self h.ne_nil h.get?

/-- What becomes of a regular file depends on its content and its mode alone. -/
theorem work_congr (fault : Files.WriteStep → Option String) (hsteady : e.faults.Steady)
    (hf : f.Regular job.path (f.placeOf job.path) bytes mode)
    (hg : g.Regular job.path (f.placeOf job.path) bytes mode) (hlocked : g.locked = f.locked)
    (calls : Calls) :
    (e.work fault ⟨g, calls⟩ job).1 = e.expected fault f job ∧
      (e.work fault ⟨g, calls⟩ job).2.files =
        g.put (f.placeOf job.path) (e.landing fault f job) ∧
      ∃ content mode, e.landing fault f job = .file content mode := by
  have hread := readText_congr hf hg
  unfold landing expected
  unfold work
  rw [hread]
  cases readText f job.path with
  | error message =>
    dsimp only
    rw [hf.get?, Option.getD_some]
    exact ⟨rfl, (put_same hg).symm, _, _, rfl⟩
  | ok text =>
    dsimp only
    rw [analyse_steady hsteady job.shown text none calls .none]
    generalize (e.analyse job.shown text none .none).1 = o
    rw [save_regular hf, save_regular hg, Files.replaceFault_congr hlocked]
    cases o.output with
    | none =>
      dsimp only
      rw [hf.get?, Option.getD_some]
      exact ⟨rfl, (put_same hg).symm, _, _, rfl⟩
    | some new =>
      cases f.replaceFault job.path (f.placeOf job.path).dropLast fault with
      | some message =>
        dsimp only
        rw [hf.get?, Option.getD_some]
        exact ⟨rfl, (put_same hg).symm, _, _, rfl⟩
      | none =>
        dsimp only
        rw [Files.get?_put hf.ne_nil, if_pos rfl, Option.getD_some]
        exact ⟨rfl, rfl, _, _, rfl⟩

theorem landing_file (fault : Files.WriteStep → Option String) (hsteady : e.faults.Steady)
    (h : f.Regular job.path (f.placeOf job.path) bytes mode) :
    ∃ content mode, e.landing fault f job = .file content mode :=
  (work_congr fault hsteady h h rfl .none).2.2

/-- The analysis of a file comes to the outcome `o`, which has a repaired text. -/
structure RepairsTo (e : Engine) (f : Files) (job : Job) (o : Outcome) (text : String) : Prop where
  analysed : ∃ source, readText f job.path = .ok source ∧
    (e.analyse job.shown source none .none).1 = o
  output : o.output = some text

theorem expected_unread (fault : Files.WriteStep → Option String) {message : String}
    (h : f.Regular job.path (f.placeOf job.path) bytes mode)
    (hread : readText f job.path = .error message) :
    e.expected fault f job = .unread job.shown ("could not read file: " ++ message) ∧
      e.landing fault f job = .file bytes mode := by
  unfold landing expected work
  rw [hread]
  dsimp only
  rw [h.get?]
  exact ⟨rfl, rfl⟩

theorem expected_unrepaired (fault : Files.WriteStep → Option String) {source : String}
    (h : f.Regular job.path (f.placeOf job.path) bytes mode)
    (hread : readText f job.path = .ok source)
    (hout : (e.analyse job.shown source none .none).1.output = none) :
    e.expected fault f job = (e.analyse job.shown source none .none).1 ∧
      e.landing fault f job = .file bytes mode := by
  unfold landing expected
  rw [work_of_text (s := ⟨f, .none⟩) hread, save_regular h, hout]
  dsimp only
  rw [h.get?]
  exact ⟨rfl, rfl⟩

variable {o : Outcome} {text : String}

theorem expected_unsaved {message : String}
    (h : f.Regular job.path (f.placeOf job.path) bytes mode) (ho : e.RepairsTo f job o text)
    (hfault : f.replaceFault job.path (f.placeOf job.path).dropLast fault = some message) :
    .done (e.expected fault f job) = unsaved o message ∧
      e.landing fault f job = .file bytes mode := by
  obtain ⟨⟨source, hread, rfl⟩, hout⟩ := ho
  unfold landing expected
  rw [work_of_text (s := ⟨f, .none⟩) hread, save_regular h, hout, hfault]
  dsimp only
  rw [h.get?]
  exact ⟨rfl, rfl⟩

theorem expected_saved (h : f.Regular job.path (f.placeOf job.path) bytes mode)
    (ho : e.RepairsTo f job o text)
    (hfault : f.replaceFault job.path (f.placeOf job.path).dropLast fault = none) :
    e.expected fault f job = { o with written := true, state := .written } ∧
      e.landing fault f job = .file (Utf8.encode text) mode := by
  obtain ⟨⟨source, hread, rfl⟩, hout⟩ := ho
  unfold landing expected
  rw [work_of_text (s := ⟨f, .none⟩) hread, save_regular h, hout, hfault]
  dsimp only
  rw [Files.get?_put h.ne_nil, if_pos rfl]
  exact ⟨rfl, rfl⟩

/-! ### Many files -/

/-- The file tree in which the work on some files is done, the last one of them first. -/
def settle (e : Engine) (fault : Files.WriteStep → Option String) (f : Files) (jobs : List Job) :
    Files :=
  jobs.foldr (fun job g => g.put (f.placeOf job.path) (e.landing fault f job)) f

end Engine

namespace Files.Separate

variable {f : Files} {job : Job} {jobs others : List Job}

theorem perm (h : f.Separate jobs) (hperm : jobs.Perm others) : f.Separate others :=
  ⟨fun job hjob => h.regular job (hperm.symm.subset hjob),
    ((hperm.map fun job => f.placeOf job.path).nodup_iff).1 h.distinct⟩

theorem sublist (h : f.Separate jobs) (hsub : others.Sublist jobs) : f.Separate others :=
  ⟨fun job hjob => h.regular job (hsub.subset hjob), h.distinct.sublist (hsub.map _)⟩

theorem tail (h : f.Separate (job :: jobs)) : f.Separate jobs :=
  h.sublist (List.sublist_cons_self job jobs)

theorem head_notMem (h : f.Separate (job :: jobs)) :
    f.placeOf job.path ∉ jobs.map fun job => f.placeOf job.path :=
  (List.nodup_cons.1 h.distinct).1

theorem mem_places (h : f.Separate jobs) (hjob : job ∈ jobs) : f.placeOf job.path ∈ f.places := by
  obtain ⟨content, mode, hregular⟩ := h.regular job hjob
  exact hregular.mem_places

end Files.Separate

namespace Engine

section Settle

variable {e : Engine} {fault : Files.WriteStep → Option String} {f : Files} {q : RealPath}
  {jobs others : List Job}

theorem places_settle (h : f.Separate jobs) : (e.settle fault f jobs).places = f.places := by
  induction jobs with
  | nil => rfl
  | cons job rest ih =>
    have hrest := ih h.tail
    exact (Files.places_put (hrest ▸ h.mem_places List.mem_cons_self) _).trans hrest

theorem get?_settle (h : f.Separate jobs) (hq : q ∉ jobs.map fun job => f.placeOf job.path) :
    (e.settle fault f jobs).get? q = f.get? q := by
  induction jobs with
  | nil => rfl
  | cons job rest ih =>
    obtain ⟨content, mode, hregular⟩ := h.regular job List.mem_cons_self
    rw [List.map_cons, List.mem_cons, not_or] at hq
    refine (Files.get?_put hregular.ne_nil _ q).trans ?_
    rw [if_neg hq.1]
    exact ih h.tail hq.2

/-- Where files were is what they land on, so paths lead to the same places. -/
theorem grown_settle (hsteady : e.faults.Steady) (h : f.Separate jobs) :
    f.Grown (e.settle fault f jobs) := by
  induction jobs with
  | nil => exact .refl f
  | cons job rest ih =>
    obtain ⟨content, mode, hregular⟩ := h.regular job List.mem_cons_self
    obtain ⟨new, newMode, hlanding⟩ := landing_file fault hsteady hregular
    unfold settle
    rw [List.foldr_cons, hlanding]
    exact (ih h.tail).put hregular.ne_nil hregular.get?

/-- The order in which files are worked on does not matter. -/
theorem settle_perm (hperm : jobs.Perm others) (h : f.Separate jobs) :
    e.settle fault f jobs = e.settle fault f others := by
  induction hperm with
  | nil => rfl
  | cons job _ ih =>
    unfold settle at ih ⊢
    rw [List.foldr_cons, List.foldr_cons, ih h.tail]
  | swap first second rest =>
    -- the files are at different places, and at both something stands
    have hne : f.placeOf second.path ≠ f.placeOf first.path := fun heq =>
      h.head_notMem (by simp [heq])
    have hplace : f.placeOf second.path ∈ (e.settle fault f rest).places := by
      rw [places_settle h.tail.tail]
      exact h.mem_places List.mem_cons_self
    exact Files.put_comm hne hplace _ _
  | trans hfirst _ ih ih' => exact (ih h).trans (ih' (h.perm hfirst))

end Settle

end Engine

/-! ### Phases -/

namespace Phase

variable {e : Engine} {fault : Files.WriteStep → Option String} {f g g' : Files} {job : Job}
  {phase : Phase}

/-- Whether the work is done. -/
def IsDone : Phase → Prop
  | .done _ => True
  | _ => False

instance : DecidablePred IsDone
  | .done _ => .isTrue trivial
  | .started | .repaired _ _ | .created _ _ _ | .filled _ _ _ | .moded _ _ => .isFalse id

/-- What is known of a file of the tree `f` when the tree has become `g` and the work on the file
has come to a phase. -/
def Sound (e : Engine) (fault : Files.WriteStep → Option String) (f g : Files) (job : Job) :
    Phase → Prop
  | .started => True
  | .repaired o text => e.RepairsTo f job o text
  | .created o text temporary => e.RepairsTo f job o text ∧ temporary ≠ [] ∧
    f.replaceFault job.path (f.placeOf job.path).dropLast fault =
      (fault .fill).or ((fault .copyMode).or (fault .rename))
  | .filled o text temporary => e.RepairsTo f job o text ∧ temporary ≠ [] ∧
    f.replaceFault job.path (f.placeOf job.path).dropLast fault =
      (fault .copyMode).or (fault .rename)
  | .moded o temporary => ∃ text content mode, e.RepairsTo f job o text ∧
    f.replaceFault job.path (f.placeOf job.path).dropLast fault = fault .rename ∧
    f.Regular job.path (f.placeOf job.path) content mode ∧
    g.get? temporary = some (.file (Utf8.encode text) mode)
  | .done o => o = e.expected fault f job

/-- Only the temporary file of a phase matters for what is known. -/
theorem Sound.congr (h : phase.Sound e fault f g job)
    (hg : ∀ t, phase.temporary? = some t → g'.get? t = g.get? t) :
    phase.Sound e fault f g' job := by
  cases phase with
  | moded o temporary =>
    obtain ⟨text, content, mode, ho, hfault, hregular, htemporary⟩ := h
    exact ⟨text, content, mode, ho, hfault, hregular, (hg temporary rfl).trans htemporary⟩
  | _ => exact h

/-- The file tree without the temporary file of a phase. -/
def cleared (g : Files) (phase : Phase) : Files :=
  phase.temporary?.elim g g.erase

end Phase

/-! ### Files in work -/

namespace Engine

variable {e : Engine} {fault : Files.WriteStep → Option String} {f g g' : Files} {job : Job}
  {phase next : Phase} {files others : List (Job × Phase)}

/-- The files on which the work is done. -/
def doneOf (files : List (Job × Phase)) : List Job :=
  (files.filter fun x => decide x.2.IsDone).map (·.1)

/-- The temporary files that there are. -/
def temporariesOf (files : List (Job × Phase)) : List RealPath :=
  files.filterMap (·.2.temporary?)

/-- What every step of the work on some files of the tree `f` keeps, when the tree is `g` by now.
But for temporary files, it is the tree in which the work that is done was done alone. -/
structure Underway (e : Engine) (fault : Files.WriteStep → Option String) (f g : Files)
    (files : List (Job × Phase)) : Prop where
  hosts : g.Hosts (e.settle fault f (doneOf files)) (temporariesOf files)
  nodup : (temporariesOf files).Nodup
  sound : ∀ x ∈ files, x.2.Sound e fault f g x.1

theorem separate_doneOf (h : f.Separate (files.map (·.1))) : f.Separate (doneOf files) :=
  h.sublist (List.filter_sublist.map _)

theorem Underway.perm (h : e.Underway fault f g files) (hperm : files.Perm others)
    (hseparate : f.Separate (files.map (·.1))) : e.Underway fault f g others := by
  have hdone : (doneOf files).Perm (doneOf others) := (hperm.filter _).map _
  have htemporaries : (temporariesOf files).Perm (temporariesOf others) := hperm.filterMap _
  constructor
  · rw [← settle_perm hdone (separate_doneOf hseparate)]
    exact h.hosts.congr fun t => htemporaries.mem_iff
  · exact htemporaries.nodup_iff.1 h.nodup
  · exact fun x hx => h.sound x (hperm.symm.subset hx)

section Next

theorem doneOf_cons_done (o : Outcome) :
    doneOf ((job, .done o) :: others) = job :: doneOf others := rfl

theorem doneOf_cons_of_not (hnot : ¬ phase.IsDone) :
    doneOf ((job, phase) :: others) = doneOf others := by
  simp [doneOf, hnot]

theorem temporariesOf_cons_of_none (hphase : phase.temporary? = none) :
    temporariesOf ((job, phase) :: others) = temporariesOf others := by
  simp [temporariesOf, hphase]

theorem temporariesOf_cons_of_some {t : RealPath} (hphase : phase.temporary? = some t) :
    temporariesOf ((job, phase) :: others) = t :: temporariesOf others := by
  simp [temporariesOf, hphase]

theorem mem_temporariesOf {x : Job × Phase} {t : RealPath} (hx : x ∈ files)
    (ht : x.2.temporary? = some t) : t ∈ temporariesOf files :=
  List.mem_filterMap.2 ⟨x, hx, ht⟩

variable (hseparate : f.Separate (job :: others.map (·.1)))
  (h : e.Underway fault f g ((job, phase) :: others))

include h in
/-- The tree without the temporary file of a phase. -/
theorem Underway.hosts_cleared (hnot : ¬ phase.IsDone) :
    (phase.cleared g).Hosts (e.settle fault f (doneOf others)) (temporariesOf others) := by
  have hhosts := h.hosts
  rw [doneOf_cons_of_not hnot] at hhosts
  unfold Phase.cleared
  cases hphase : phase.temporary? with
  | none => rwa [temporariesOf_cons_of_none hphase] at hhosts
  | some t =>
    have hnodup := h.nodup
    rw [temporariesOf_cons_of_some hphase] at hhosts hnodup
    exact hhosts.erase (List.nodup_cons.1 hnodup).1

include h in
theorem Underway.get?_cleared {t : RealPath} (ht : t ∈ temporariesOf others) :
    (phase.cleared g).get? t = g.get? t := by
  unfold Phase.cleared
  cases hphase : phase.temporary? with
  | none => rfl
  | some u =>
    have hnodup := h.nodup
    rw [temporariesOf_cons_of_some hphase, List.nodup_cons] at hnodup
    exact Files.get?_erase fun htu => hnodup.1 (htu ▸ ht)

include h in
theorem Underway.nodup_tail : (temporariesOf others).Nodup := by
  refine h.nodup.sublist (List.Sublist.filterMap _ ?_)
  exact List.sublist_cons_self (job, phase) others

include hseparate in
/-- The file of a job is none of those on which the work is done. -/
theorem get?_settle_others :
    (e.settle fault f (doneOf others)).get? (f.placeOf job.path) = f.get? (f.placeOf job.path) := by
  refine get?_settle (separate_doneOf hseparate.tail) fun hmem => hseparate.head_notMem ?_
  exact (List.filter_sublist.map _).map _ |>.subset hmem

include hseparate h in
/-- A regular file on which the work is not done is as it was. -/
theorem Underway.regular (hsteady : e.faults.Steady) (hnot : ¬ phase.IsDone) {content : Bytes}
    {mode : Nat} (hregular : f.Regular job.path (f.placeOf job.path) content mode) :
    g.Regular job.path (f.placeOf job.path) content mode ∧ g.locked = f.locked := by
  have hhosts := h.hosts
  rw [doneOf_cons_of_not hnot] at hhosts
  have hsettled : f.Grown (e.settle fault f (doneOf others)) :=
    grown_settle hsteady (separate_doneOf hseparate.tail)
  have hgrown := hhosts.grown hsettled
  -- temporary files stand where nothing stood
  have hplace : f.placeOf job.path ∉ temporariesOf ((job, phase) :: others) := by
    intro hmem
    refine hhosts.fresh _ hmem ?_
    rw [places_settle (separate_doneOf hseparate.tail)]
    exact hregular.mem_places
  refine ⟨hregular.grown hgrown ?_, hgrown.locked⟩
  rw [hhosts.get? hplace, get?_settle_others hseparate]

include hseparate h in
/-- A worker gets done with its file. -/
theorem Underway.finish (hnot : ¬ phase.IsDone) : e.Underway fault f
    ((phase.cleared g).put (f.placeOf job.path) (e.landing fault f job))
    ((job, .done (e.expected fault f job)) :: others) := by
  obtain ⟨content, mode, hregular⟩ := hseparate.regular job List.mem_cons_self
  have hcleared := h.hosts_cleared hnot
  have hplace : f.placeOf job.path ∈ (e.settle fault f (doneOf others)).places := by
    rw [places_settle (separate_doneOf hseparate.tail)]
    exact hregular.mem_places
  constructor
  · rw [doneOf_cons_done, temporariesOf_cons_of_none rfl]
    exact hcleared.put_place hplace _
  · rw [temporariesOf_cons_of_none rfl]
    exact h.nodup_tail
  · intro x hx
    rcases List.mem_cons.1 hx with rfl | hx
    · rfl
    · -- what another worker put into its temporary file is there yet
      refine (h.sound x (List.mem_cons_of_mem _ hx)).congr fun t ht => ?_
      have hmem := mem_temporariesOf hx ht
      have hne : t ≠ f.placeOf job.path := fun heq => hcleared.fresh t hmem (heq ▸ hplace)
      rw [Files.get?_put hregular.ne_nil, if_neg hne, h.get?_cleared hmem]

include hseparate h in
/-- A worker gets done with its file, which stays as it was. -/
theorem Underway.finish_unchanged (hnot : ¬ phase.IsDone) {content : Bytes} {mode : Nat}
    (hregular : f.Regular job.path (f.placeOf job.path) content mode)
    (hlanding : e.landing fault f job = .file content mode) : e.Underway fault f (phase.cleared g)
    ((job, .done (e.expected fault f job)) :: others) := by
  have hcleared := h.hosts_cleared hnot
  have hplace : f.placeOf job.path ∉ temporariesOf others := by
    intro hmem
    refine hcleared.fresh _ hmem ?_
    rw [places_settle (separate_doneOf hseparate.tail)]
    exact hregular.mem_places
  have hold : (phase.cleared g).get? (f.placeOf job.path) = some (.file content mode) := by
    rw [hcleared.get? hplace, get?_settle_others hseparate, hregular.get?]
  have hfinish := h.finish hseparate hnot
  rwa [hlanding, Files.put_eq_self hregular.ne_nil hold] at hfinish

include h in
/-- A worker goes on without touching the tree. -/
theorem Underway.keep (hnot : ¬ phase.IsDone) (hnext : ¬ next.IsDone)
    (htemporary : next.temporary? = phase.temporary?) (hsound : next.Sound e fault f g job) :
    e.Underway fault f g ((job, next) :: others) := by
  have htemporaries : temporariesOf ((job, next) :: others) =
      temporariesOf ((job, phase) :: others) := by
    unfold temporariesOf
    rw [List.filterMap_cons, List.filterMap_cons, htemporary]
  constructor
  · have hhosts := h.hosts
    rw [doneOf_cons_of_not hnot] at hhosts
    rwa [htemporaries, doneOf_cons_of_not hnext]
  · rw [htemporaries]
    exact h.nodup
  · intro x hx
    rcases List.mem_cons.1 hx with rfl | hx
    · exact hsound
    · exact h.sound x (List.mem_cons_of_mem _ hx)

include h in
/-- A worker makes a temporary file, or gives the one that it made new content. -/
theorem Underway.write {t : RealPath} {entry : Entry} (hnot : ¬ phase.IsDone)
    (hphase : phase.temporary? = some t ∨ phase.temporary? = none ∧ t ∉ g.places) (hnil : t ≠ [])
    (hnext : ¬ next.IsDone) (htemporary : next.temporary? = some t)
    (hsound : next.Sound e fault f (g.put t entry) job) :
    e.Underway fault f (g.put t entry) ((job, next) :: others) := by
  have hhosts := h.hosts
  have hnodup := h.nodup
  rw [doneOf_cons_of_not hnot] at hhosts
  have hput : (g.put t entry).Hosts (e.settle fault f (doneOf others)) (t :: temporariesOf others) ∧
      t ∉ temporariesOf others := by
    rcases hphase with hphase | ⟨hphase, ht⟩
    · rw [temporariesOf_cons_of_some hphase] at hhosts hnodup
      exact ⟨hhosts.put List.mem_cons_self entry, (List.nodup_cons.1 hnodup).1⟩
    · rw [temporariesOf_cons_of_none hphase] at hhosts
      exact ⟨hhosts.put_new ht entry, fun hmem => ht (hhosts.standing t hmem)⟩
  constructor
  · rw [temporariesOf_cons_of_some htemporary, doneOf_cons_of_not hnext]
    exact hput.1
  · rw [temporariesOf_cons_of_some htemporary, List.nodup_cons]
    exact ⟨hput.2, h.nodup_tail⟩
  · intro x hx
    rcases List.mem_cons.1 hx with rfl | hx
    · exact hsound
    · refine (h.sound x (List.mem_cons_of_mem _ hx)).congr fun u hu => ?_
      have hne : u ≠ t := fun heq => hput.2 (heq ▸ mem_temporariesOf hx hu)
      rw [Files.get?_put hnil, if_neg hne]

end Next

/-! ### Steps -/

section Proceed

variable {s : State} {o : Outcome} {text : String} {temporary : RealPath} {content : Bytes}
  {mode : Nat} (hsteady : e.faults.Steady)
  (hseparate : f.Separate (job :: others.map (·.1)))
  (hregular : f.Regular job.path (f.placeOf job.path) content mode) (mark : String)

include hsteady hseparate hregular

theorem Underway.proceed_started (h : e.Underway fault f s.files ((job, .started) :: others)) :
    e.Underway fault f (e.proceed fault job mark s .started).1.files
      ((job, (e.proceed fault job mark s .started).2) :: others) := by
  have hnot : ¬ Phase.started.IsDone := id
  obtain ⟨hnow, -⟩ := h.regular hseparate hsteady hnot hregular
  unfold proceed
  dsimp only
  rw [readText_congr hregular hnow]
  cases hread : readText f job.path with
  | error message =>
    obtain ⟨hexpected, hlanding⟩ := expected_unread (e := e) fault hregular hread
    have hdone := h.finish_unchanged hseparate hnot hregular hlanding
    rwa [hexpected] at hdone
  | ok source =>
    dsimp only
    rw [analyse_steady hsteady job.shown source none s.calls .none]
    cases hout : (e.analyse job.shown source none .none).1.output with
    | none =>
      obtain ⟨hexpected, hlanding⟩ := expected_unrepaired fault hregular hread hout
      have hdone := h.finish_unchanged hseparate hnot hregular hlanding
      rwa [hexpected] at hdone
    | some text => exact h.keep hnot id rfl ⟨⟨source, hread, rfl⟩, hout⟩

theorem Underway.proceed_repaired
    (h : e.Underway fault f s.files ((job, .repaired o text) :: others)) :
    e.Underway fault f (e.proceed fault job mark s (.repaired o text)).1.files
      ((job, (e.proceed fault job mark s (.repaired o text)).2) :: others) := by
  have hnot : ¬ (Phase.repaired o text).IsDone := id
  have ho : e.RepairsTo f job o text := h.sound _ List.mem_cons_self
  obtain ⟨hnow, hlocked⟩ := h.regular hseparate hsteady hnot hregular
  unfold proceed Files.temporaryFor
  rw [hnow.place]
  dsimp only
  rw [Files.createFault_congr hlocked]
  cases hfault : f.createFault job.path (f.placeOf job.path).dropLast fault with
  | some message =>
    have hreplace : f.replaceFault job.path (f.placeOf job.path).dropLast fault = some message := by
      unfold Files.replaceFault
      rw [hfault, Option.some_or]
    obtain ⟨hexpected, hlanding⟩ := expected_unsaved hregular ho hreplace
    have hdone := h.finish_unchanged hseparate hnot hregular hlanding
    rwa [hexpected] at hdone
  | none =>
    dsimp only
    split_ifs with htaken
    · -- the name is taken, so another one is tried
      exact h
    · have hfree := Files.get?_eq_none (Option.not_isSome_iff_eq_none.1 htaken)
      refine h.write hnot (.inr ⟨rfl, hfree⟩) (by simp) id rfl ⟨ho, by simp, ?_⟩
      unfold Files.replaceFault
      rw [hfault, Option.none_or]

omit hsteady in
theorem Underway.proceed_created
    (h : e.Underway fault f s.files ((job, .created o text temporary) :: others)) :
    e.Underway fault f (e.proceed fault job mark s (.created o text temporary)).1.files
      ((job, (e.proceed fault job mark s (.created o text temporary)).2) :: others) := by
  have hnot : ¬ (Phase.created o text temporary).IsDone := id
  obtain ⟨ho, hnil, hreplace⟩ := h.sound _ List.mem_cons_self
  unfold proceed
  dsimp only
  cases hfault : fault .fill with
  | some message =>
    rw [hfault, Option.some_or] at hreplace
    obtain ⟨hexpected, hlanding⟩ := expected_unsaved hregular ho hreplace
    have hdone := h.finish_unchanged hseparate hnot hregular hlanding
    rwa [hexpected] at hdone
  | none =>
    rw [hfault, Option.none_or] at hreplace
    exact h.write hnot (.inl rfl) hnil id rfl ⟨ho, hnil, hreplace⟩

theorem Underway.proceed_filled
    (h : e.Underway fault f s.files ((job, .filled o text temporary) :: others)) :
    e.Underway fault f (e.proceed fault job mark s (.filled o text temporary)).1.files
      ((job, (e.proceed fault job mark s (.filled o text temporary)).2) :: others) := by
  have hnot : ¬ (Phase.filled o text temporary).IsDone := id
  obtain ⟨ho, hnil, hreplace⟩ := h.sound _ List.mem_cons_self
  obtain ⟨hnow, -⟩ := h.regular hseparate hsteady hnot hregular
  unfold proceed Files.modeFor
  rw [hnow.entry]
  cases hfault : fault .copyMode with
  | some message =>
    rw [hfault, Option.some_or] at hreplace
    obtain ⟨hexpected, hlanding⟩ := expected_unsaved hregular ho hreplace
    have hdone := h.finish_unchanged hseparate hnot hregular hlanding
    rwa [hexpected] at hdone
  | none =>
    rw [hfault, Option.none_or] at hreplace
    refine h.write hnot (.inl rfl) hnil id rfl ⟨text, content, mode, ho, hreplace, hregular, ?_⟩
    rw [Files.get?_put hnil, if_pos rfl]

omit hregular in
theorem Underway.proceed_moded
    (h : e.Underway fault f s.files ((job, .moded o temporary) :: others)) :
    e.Underway fault f (e.proceed fault job mark s (.moded o temporary)).1.files
      ((job, (e.proceed fault job mark s (.moded o temporary)).2) :: others) := by
  have hnot : ¬ (Phase.moded o temporary).IsDone := id
  obtain ⟨text, content', mode', ho, hreplace, hregular', htemporary⟩ :=
    h.sound _ List.mem_cons_self
  obtain ⟨hnow, -⟩ := h.regular hseparate hsteady hnot hregular'
  unfold proceed Files.moveTo
  dsimp only
  rw [hnow.place, htemporary]
  cases hfault : fault .rename with
  | some message =>
    rw [hfault] at hreplace
    obtain ⟨hexpected, hlanding⟩ := expected_unsaved hregular' ho hreplace
    have hdone := h.finish_unchanged hseparate hnot hregular' hlanding
    rwa [hexpected] at hdone
  | none =>
    rw [hfault] at hreplace
    obtain ⟨hexpected, hlanding⟩ := expected_saved hregular' ho hreplace
    have hdone := h.finish hseparate hnot
    rwa [hexpected, hlanding] at hdone

end Proceed

/-- A step of a worker keeps what is known of all files. -/
theorem Underway.proceed {s : State} (hsteady : e.faults.Steady)
    (hseparate : f.Separate (job :: others.map (·.1)))
    (h : e.Underway fault f s.files ((job, phase) :: others)) (mark : String) :
    e.Underway fault f (e.proceed fault job mark s phase).1.files
      ((job, (e.proceed fault job mark s phase).2) :: others) := by
  obtain ⟨content, mode, hregular⟩ := hseparate.regular job List.mem_cons_self
  cases phase with
  | started => exact h.proceed_started hsteady hseparate hregular mark
  | repaired o text => exact h.proceed_repaired hsteady hseparate hregular mark
  | created o text temporary => exact h.proceed_created hseparate hregular mark
  | filled o text temporary => exact h.proceed_filled hsteady hseparate hregular mark
  | moded o temporary => exact h.proceed_moded hsteady hseparate mark
  | done o => exact h

end Engine
end JsxLint
