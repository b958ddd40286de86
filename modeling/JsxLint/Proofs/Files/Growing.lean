import JsxLint.Proofs.Files.Replacing

/-!
# Files among other files

A file tree in which other files get new content, or temporary files stand, leads a path to the same
place as before. So what is done with one file does not depend on what is done with the others.

* `Files.put_comm`: entries at different places are put in any order;
* `Files.Grown`: a file tree with all that another one has, though files may differ in content;
* `Files.Regular.grown`: a regular file stays one;
* `Files.Hosts`: a file tree that is another one but for temporary files.
-/

namespace JsxLint.Files

variable {f g : Files} {p : Path} {q r : RealPath} {e : Entry}

/-! ### Entries -/

theorem putIn_comm {l : List (RealPath × Entry)} (hne : q ≠ r) (hq : q ∈ l.map (·.1))
    (e d : Entry) : putIn q e (putIn r d l) = putIn r d (putIn q e l) := by
  induction l with
  | nil => cases hq
  | cons head rest ih =>
    obtain ⟨k, c⟩ := head
    by_cases hkq : k = q
    · subst hkq
      simp [putIn, hne]
    · have hrest : q ∈ rest.map (·.1) := (List.mem_cons.1 hq).resolve_left fun h => hkq h.symm
      by_cases hkr : k = r
      · subst hkr
        simp [putIn, hkq]
      · simp [putIn, hkq, hkr, ih hrest]

/-- Entries at different places are put in any order. -/
theorem put_comm (hne : q ≠ r) (hq : q ∈ f.places) (e d : Entry) :
    (f.put r d).put q e = (f.put q e).put r d := by
  unfold put
  simp only [putIn_comm hne hq]

theorem putIn_eq_self {l : List (RealPath × Entry)} (h : l.lookup q = some e) :
    putIn q e l = l := by
  induction l with
  | nil => cases h
  | cons head rest ih =>
    obtain ⟨k, d⟩ := head
    rw [lookup_cons_eq_ite] at h
    unfold putIn
    by_cases hk : k = q
    · rw [if_pos hk.symm] at h
      cases h
      rw [if_pos hk, hk]
    · rw [if_neg fun hq => hk hq.symm] at h
      rw [if_neg hk, ih h]

/-- What stands at a place already can be put there. -/
theorem put_eq_self (hq : q ≠ []) (h : f.get? q = some e) : f.put q e = f := by
  unfold get? at h
  rw [if_neg hq] at h
  unfold put
  rw [putIn_eq_self h]

theorem get?_eq_none (h : f.get? q = none) : q ∉ f.places := by
  intro hq
  obtain ⟨entry, hentry, rfl⟩ := List.mem_map.1 hq
  unfold get? at h
  split_ifs at h
  rw [List.lookup_eq_none_iff] at h
  simpa using h entry hentry

theorem lookup_filter {P : RealPath × Entry → Bool} (hP : ∀ e, P (r, e) = true)
    (l : List (RealPath × Entry)) : (l.filter P).lookup r = l.lookup r := by
  induction l with
  | nil => rfl
  | cons head rest ih =>
    obtain ⟨k, d⟩ := head
    rw [lookup_cons_eq_ite, List.filter_cons]
    by_cases hk : P (k, d)
    · rw [if_pos hk, lookup_cons_eq_ite, ih]
    · have hne : r ≠ k := by
        rintro rfl
        exact hk (hP d)
      rw [if_neg hk, if_neg hne, ih]

theorem get?_erase (hne : r ≠ q) : (f.erase q).get? r = f.get? r := by
  unfold get? erase
  dsimp only
  rw [lookup_filter (by simp [hne])]

theorem mem_map_fst_putIn (l : List (RealPath × Entry)) :
    r ∈ (putIn q e l).map (·.1) ↔ r = q ∨ r ∈ l.map (·.1) := by
  by_cases hq : q ∈ l.map (·.1)
  · rw [map_fst_putIn hq]
    exact ⟨.inr, fun h => h.elim (fun hr => hr ▸ hq) id⟩
  · rw [putIn_of_not_mem hq, List.map_append, List.mem_append, or_comm]
    simp

theorem mem_places_put : r ∈ (f.put q e).places ↔ r = q ∨ r ∈ f.places :=
  mem_map_fst_putIn f.entries

theorem mem_places_erase (hne : r ≠ q) (h : r ∈ f.places) : r ∈ (f.erase q).places := by
  obtain ⟨entry, hentry, rfl⟩ := List.mem_map.1 h
  exact List.mem_map_of_mem (List.mem_filter.2 ⟨hentry, decide_eq_true hne⟩)

/-! ### Growing -/

/-- Whether all that stands in `f` stands in `g`, where files may have other content. -/
structure Grown (f g : Files) : Prop where
  working : g.working = f.working
  locked : g.locked = f.locked
  file : ∀ {r content mode}, f.get? r = some (.file content mode) →
    ∃ content mode, g.get? r = some (.file content mode)
  directory : ∀ {r}, f.get? r = some .directory → g.get? r = some .directory
  link : ∀ {r target}, f.get? r = some (.link target) → g.get? r = some (.link target)

theorem Grown.refl (f : Files) : f.Grown f :=
  ⟨rfl, rfl, fun {_ content mode} h => ⟨content, mode, h⟩, id, id⟩

theorem Grown.isDirectoryAt (h : f.Grown g) (hr : f.isDirectoryAt r) : g.isDirectoryAt r := by
  unfold Files.isDirectoryAt at hr ⊢
  split at hr
  · next hd => rw [h.directory hd]
  · cases hr

/-- Names lead to the same place or link, unless they lead nowhere or to nothing. -/
theorem Grown.advance (h : f.Grown g) {here : RealPath} {names : List String}
    (hfailed : ∀ error, f.advance here names ≠ .failed error)
    (harrived : ∀ q, f.advance here names = .arrived q → f.get? q ≠ none) :
    g.advance here names = f.advance here names := by
  induction names generalizing here with
  | nil => rfl
  | cons name rest ih =>
    unfold Files.advance at hfailed harrived ⊢
    by_cases hd : f.isDirectoryAt here
    · simp only [hd, h.isDirectoryAt hd, Bool.not_true, Bool.false_eq_true, if_false]
        at hfailed harrived ⊢
      by_cases hdot : name = "."
      · simp only [if_pos hdot] at hfailed harrived ⊢
        exact ih hfailed harrived
      · simp only [if_neg hdot] at hfailed harrived ⊢
        by_cases hup : name = ".."
        · simp only [if_pos hup] at hfailed harrived ⊢
          exact ih hfailed harrived
        · simp only [if_neg hup] at hfailed harrived ⊢
          by_cases hlong : isTooLong name
          · exact absurd (if_pos hlong) (hfailed _)
          · simp only [if_neg hlong] at hfailed harrived ⊢
            cases hn : f.get? (here ++ [name]) with
            | none =>
              -- names that lead to nothing are excluded, be they used up or not
              simp only [hn] at hfailed harrived
              by_cases hrest : rest.isEmpty
              · exact absurd hn (harrived _ (if_pos hrest))
              · exact absurd (if_neg hrest) (hfailed _)
            | some entry =>
              simp only [hn] at hfailed harrived
              cases entry with
              | directory =>
                rw [h.directory hn]
                exact ih hfailed harrived
              | file content mode =>
                obtain ⟨content', mode', hg⟩ := h.file hn
                rw [hg]
                exact ih hfailed harrived
              | link target => rw [h.link hn]
    · simp only [hd, Bool.not_false, if_true] at hfailed
      exact absurd rfl (hfailed _)

theorem Grown.follow (h : f.Grown g) {links : Nat} {here : RealPath} {names : List String}
    (hf : f.follow links here names = .ok q) (hq : f.get? q = some e) :
    g.follow links here names = .ok q := by
  induction links generalizing here names with
  | zero =>
    -- the path ends at something, so it is one that leads to the same place
    unfold Files.follow at hf ⊢
    rw [h.advance]
    · exact hf
    · intro error ha
      rw [ha] at hf
      cases hf
    · intro place ha
      rw [ha] at hf
      cases hf
      simp [hq]
  | succ links ih =>
    unfold Files.follow at hf ⊢
    rw [h.advance]
    · cases ha : f.advance here names with
      | arrived place => rwa [ha] at hf
      | failed error => rwa [ha] at hf
      | atLink directory target rest =>
        rw [ha] at hf
        exact ih hf
    · intro error ha
      rw [ha] at hf
      cases hf
    · intro place ha
      rw [ha] at hf
      cases hf
      simp [hq]

/-- A path leads to the same place, if something stands there. -/
theorem Grown.locate (h : f.Grown g) (hl : f.locate p = .ok q) (hq : f.get? q = some e) :
    g.locate p = .ok q := by
  have hstart : g.start p = f.start p := by
    unfold start
    rw [h.working]
  unfold Files.locate at hl ⊢
  split_ifs at hl ⊢
  rw [hstart]
  exact h.follow hl hq

theorem Grown.find (h : f.Grown g) {d : Entry} (hf : f.find p = .ok (q, e))
    (hq : g.get? q = some d) : g.find p = .ok (q, d) := by
  have hl : f.locate p = .ok q := by
    unfold Files.find at hf
    cases hl : f.locate p with
    | error error =>
      rw [hl] at hf
      cases hf
    | ok place =>
      rw [hl] at hf
      simp only [Except.bind] at hf
      split at hf
      · cases hf
        rfl
      · cases hf
  unfold Files.find
  rw [h.locate hl (get?_of_find hf)]
  simp only [Except.bind, hq]

theorem Grown.locateEntry (h : f.Grown g) (hl : f.locateEntry p = .ok q) :
    g.locateEntry p = .ok q := by
  unfold Files.locateEntry at hl ⊢
  by_cases hnull : p.hasNull
  · rw [if_pos hnull] at hl
    cases hl
  · rw [if_neg hnull] at hl ⊢
    cases hd : f.locate p.parent with
    | error error =>
      rw [hd] at hl
      cases hl
    | ok directory =>
      rw [hd] at hl
      simp only [Except.bind] at hl
      by_cases hdirectory : f.isDirectoryAt directory
      · rw [if_pos hdirectory] at hl
        have hstands : f.get? directory = some .directory := by
          unfold Files.isDirectoryAt at hdirectory
          split at hdirectory
          · assumption
          · cases hdirectory
        rw [h.locate hd hstands]
        simp only [Except.bind]
        rwa [if_pos (h.isDirectoryAt hdirectory)]
      · rw [if_neg hdirectory] at hl
        split_ifs at hl

/-- A regular file with the same content stays the same regular file. -/
theorem Regular.grown {content : Bytes} {mode : Nat} (h : f.Regular p q content mode)
    (hg : f.Grown g) (hq : g.get? q = f.get? q) : g.Regular p q content mode :=
  ⟨hg.locateEntry h.place, hg.find h.entry (hq.trans h.get?)⟩

/-- A file tree grows when a file is put where one stood. -/
theorem Grown.put (h : f.Grown g) {content old : Bytes} {mode was : Nat} (hq : q ≠ [])
    (hf : f.get? q = some (.file old was)) : f.Grown (g.put q (.file content mode)) := by
  constructor
  · exact h.working
  · exact h.locked
  · intro r content' mode' hr
    rw [get?_put hq]
    split_ifs
    · exact ⟨content, mode, rfl⟩
    · exact h.file hr
  · intro r hr
    rw [get?_put hq, if_neg]
    · exact h.directory hr
    · rintro rfl
      rw [hf] at hr
      cases hr
  · intro r target hr
    rw [get?_put hq, if_neg]
    · exact h.link hr
    · rintro rfl
      rw [hf] at hr
      cases hr

/-! ### Temporary files -/

/-- Whether `g` is the file tree `b`, but for what stands at the places `ts` in it, where nothing
stands in `b`. -/
structure Hosts (g b : Files) (ts : List RealPath) : Prop where
  entries : g.entries.filter (fun entry => entry.1 ∉ ts) = b.entries
  working : g.working = b.working
  locked : g.locked = b.locked
  fresh : ∀ t ∈ ts, t ∉ b.places
  standing : ∀ t ∈ ts, t ∈ g.places

namespace Hosts

variable {b : Files} {t : RealPath} {ts us : List RealPath}

theorem refl (f : Files) : f.Hosts f [] :=
  ⟨by simp, rfl, rfl, by simp, by simp⟩

theorem eq (h : g.Hosts b []) : g = b := by
  have hentries : g.entries = b.entries := by simpa using h.entries
  have hworking := h.working
  have hlocked := h.locked
  cases g
  cases b
  simp_all

theorem congr (h : g.Hosts b ts) (hts : ∀ t, t ∈ ts ↔ t ∈ us) : g.Hosts b us := by
  have hfilter : g.entries.filter (fun entry => entry.1 ∉ us) =
      g.entries.filter (fun entry => entry.1 ∉ ts) :=
    List.filter_congr fun entry _ => by simp [hts]
  exact ⟨hfilter.trans h.entries, h.working, h.locked, fun t ht => h.fresh t ((hts t).2 ht),
    fun t ht => h.standing t ((hts t).2 ht)⟩

theorem mem_places (h : g.Hosts b ts) (hr : r ∈ b.places) : r ∈ g.places := by
  obtain ⟨entry, hentry, rfl⟩ := List.mem_map.1 hr
  rw [← h.entries] at hentry
  exact List.mem_map_of_mem (List.mem_filter.1 hentry).1

theorem get? (h : g.Hosts b ts) (hr : r ∉ ts) : g.get? r = b.get? r := by
  unfold Files.get?
  rw [← h.entries, lookup_filter (by simp [hr])]

/-- What stands in the tree without temporary files stands in the one with them. -/
theorem get?_of_some (h : g.Hosts b ts) (hr : b.get? r = some e) : g.get? r = some e := by
  by_cases hnil : r = []
  · unfold Files.get? at hr ⊢
    rwa [if_pos hnil] at hr ⊢
  · have hplace := Files.mem_places hnil hr
    rw [h.get? fun hts => h.fresh r hts hplace, hr]

theorem grown (h : g.Hosts b ts) (hb : f.Grown b) : f.Grown g := by
  constructor
  · exact h.working.trans hb.working
  · exact h.locked.trans hb.locked
  · intro r content mode hr
    obtain ⟨content', mode', hr'⟩ := hb.file hr
    exact ⟨content', mode', h.get?_of_some hr'⟩
  · exact fun hr => h.get?_of_some (hb.directory hr)
  · exact fun hr => h.get?_of_some (hb.link hr)

/-! Every step of replacing a file leaves all but the temporary files and the file as they are. -/

theorem filter_putIn_of_neg {P : RealPath × Entry → Bool} (hP : ∀ e, P (t, e) = false)
    (e : Entry) (l : List (RealPath × Entry)) : (putIn t e l).filter P = l.filter P := by
  induction l with
  | nil => simp [putIn, hP]
  | cons head rest ih =>
    obtain ⟨k, d⟩ := head
    by_cases hk : k = t
    · simp [putIn, hk, hP]
    · simp [putIn, hk, List.filter_cons, ih]

theorem filter_putIn_of_pos {P : RealPath × Entry → Bool} (hP : ∀ e, P (t, e) = true)
    (e : Entry) (l : List (RealPath × Entry)) :
    (putIn t e l).filter P = putIn t e (l.filter P) := by
  induction l with
  | nil => simp [putIn, hP]
  | cons head rest ih =>
    obtain ⟨k, d⟩ := head
    by_cases hk : k = t
    · simp [putIn, hk, hP]
    · by_cases hkP : P (k, d)
      · simp [putIn, hk, hkP, ih]
      · simp [putIn, hk, hkP, ih]

/-- A temporary file gets new content. -/
theorem put (h : g.Hosts b ts) (ht : t ∈ ts) (e : Entry) : (g.put t e).Hosts b ts :=
  ⟨(filter_putIn_of_neg (by simp [ht]) e _).trans h.entries, h.working, h.locked, h.fresh,
    fun u hu => mem_places_put.2 (.inr (h.standing u hu))⟩

/-- A temporary file is made. -/
theorem put_new (h : g.Hosts b ts) (ht : t ∉ g.places) (e : Entry) :
    (g.put t e).Hosts b (t :: ts) := by
  have hfilter : g.entries.filter (fun entry => entry.1 ∉ t :: ts) =
      g.entries.filter (fun entry => entry.1 ∉ ts) := by
    refine List.filter_congr fun entry hentry => ?_
    have hentry : entry.1 ≠ t := fun he => ht (he ▸ List.mem_map_of_mem hentry)
    simp [hentry]
  refine ⟨?_, h.working, h.locked, fun u hu => ?_, fun u hu => mem_places_put.2 ?_⟩
  · exact (filter_putIn_of_neg (by simp) e _).trans (hfilter.trans h.entries)
  · rcases List.mem_cons.1 hu with rfl | hu
    · exact fun hb => ht (h.mem_places hb)
    · exact h.fresh u hu
  · exact (List.mem_cons.1 hu).imp id (h.standing u)

/-- A temporary file is taken away. -/
theorem erase (h : g.Hosts b (t :: ts)) (ht : t ∉ ts) : (g.erase t).Hosts b ts := by
  have hfilter : (g.erase t).entries.filter (fun entry => entry.1 ∉ ts) =
      g.entries.filter (fun entry => entry.1 ∉ t :: ts) := by
    unfold Files.erase
    rw [List.filter_filter]
    refine List.filter_congr fun entry _ => ?_
    simp [Bool.and_comm]
  refine ⟨hfilter.trans h.entries, h.working, h.locked, fun u hu => ?_, fun u hu => ?_⟩
  · exact h.fresh u (List.mem_cons_of_mem t hu)
  · have hne : u ≠ t := fun heq => ht (heq ▸ hu)
    exact mem_places_erase hne (h.standing u (List.mem_cons_of_mem t hu))

/-- A file gets new content. -/
theorem put_place (h : g.Hosts b ts) (hq : q ∈ b.places) (e : Entry) :
    (g.put q e).Hosts (b.put q e) ts := by
  have hts : q ∉ ts := fun hq' => h.fresh q hq' hq
  refine ⟨?_, h.working, h.locked, fun t ht => ?_, fun t ht => ?_⟩
  · refine (filter_putIn_of_pos (by simp [hts]) e _).trans ?_
    rw [h.entries]
    rfl
  · rw [places_put hq]
    exact h.fresh t ht
  · exact mem_places_put.2 (.inr (h.standing t ht))

end Hosts
end JsxLint.Files
