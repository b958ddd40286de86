import JsxLint.Proofs.Files.Following

/-!
# Replacing files one after the other

Files are replaced by name, a link at the name not being followed, while other paths go on being
looked up. What is replaced leads to a file, so no lookup of a directory goes through it, and a
lookup of a file comes to one with the same mode as before.

* `Files.Proper`: what holds of every real file tree;
* `Files.Kept`: what replacing files keeps of a file tree;
* `Files.StandsFor`: places of files and of links to files;
* `Files.Kept.locateEntry_iff`: every name is where it was;
* `Files.Kept.put`, `Files.Kept.standsFor`: another file can be replaced by name.
-/

namespace JsxLint.Files

variable {f g : Files} {here there p q r : RealPath} {names rest : List String} {name : String}
  {target : String} {links mode : Nat} {content : Bytes} {path : Path}

/-- Whether all entries have places of their own, each in a directory, and none is named like the
directory itself or the one above it. -/
structure Proper (f : Files) : Prop where
  nodup : f.places.Nodup
  closed : ∀ q ∈ f.places, f.isDirectoryAt q.dropLast
  undotted : ∀ q ∈ f.places, q.getLast? ≠ some "." ∧ q.getLast? ≠ some ".."

/-- Whether names lead to a file with a mode, whatever its bytes. -/
def LeadsToFile (f : Files) (here : RealPath) (names : List String) (mode : Nat) : Prop :=
  ∃ place content, f.Leads here names place ∧ f.get? place = some (.file content mode)

/-- Whether a file with a mode stands at a real path, or a link that leads to one. -/
def StandsFor (f : Files) (q : RealPath) (mode : Nat) : Prop :=
  (∃ content, f.get? q = some (.file content mode)) ∨
    ∃ target, f.get? q = some (.link target) ∧
      f.LeadsToFile (targetStart q.dropLast target) (targetNames target) mode

/-- What replacing files keeps of a file tree. Nothing is made or taken away, and what stands
somewhere is as it was, unless it was a file, or a link to one, and is a file with the same mode. -/
structure Kept (f g : Files) : Prop where
  working : g.working = f.working
  places : g.places = f.places
  entry : ∀ q, g.get? q = f.get? q ∨
    ∃ mode new, f.StandsFor q mode ∧ g.get? q = some (.file new mode)

theorem isDirectoryAt_iff : f.isDirectoryAt q ↔ f.get? q = some .directory := by
  unfold isDirectoryAt
  split <;> simp_all

theorem Proper.undotted_of_mem_names (hf : f.Proper) (h : name ∈ f.names there) :
    name ≠ "." ∧ name ≠ ".." := by
  obtain ⟨entry, hentry, hname⟩ := List.mem_filterMap.1 h
  rw [Option.ite_none_right_eq_some] at hname
  have hdots := hf.undotted entry.1 (List.mem_map_of_mem hentry)
  rw [hname.2] at hdots
  simpa using hdots

theorem StandsFor.isDirectoryAt (h : f.StandsFor q mode) : f.isDirectoryAt q = false := by
  unfold Files.isDirectoryAt
  rcases h with ⟨content, hfile⟩ | ⟨target, hlink, -⟩
  · rw [hfile]
  · rw [hlink]

/-! ### Directories and files on the way -/

theorem Proper.isDirectoryAt_dropLast (hf : f.Proper) (h : f.isDirectoryAt q) :
    f.isDirectoryAt q.dropLast := by
  by_cases hq : q = []
  · rw [hq]
    rfl
  · exact hf.closed q (mem_places hq (isDirectoryAt_iff.1 h))

/-- Following names never stops at a link as its end. -/
theorem Proper.ne_link_of_arrived (hf : f.Proper) (hhere : f.get? here ≠ some (.link target))
    (h : f.advance here names = .arrived p) : f.get? p ≠ some (.link target) := by
  fun_induction advance f here names with
  | case1 here =>
    cases h
    exact hhere
  | case3 here names hd ih => exact ih hhere h
  | case4 here names hd _ ih =>
    -- the names go up, and what is above a directory is one
    have habove := isDirectoryAt_iff.1 (hf.isDirectoryAt_dropLast (by simpa using hd))
    exact ih (by simp [habove]) h
  | case7 here name names hd hdot hup hlong entry hlink hentry ih =>
    refine ih (fun htarget => ?_) h
    rw [hentry, Option.some_inj] at htarget
    exact hlink _ htarget
  | case8 here name names hd hdot hup hlong hentry hlast =>
    cases h
    simp [hentry]
  | _ => cases h

/-- A link that names come to is in a directory. -/
theorem isDirectoryAt_of_atLink (h : f.advance here names = .atLink there target rest) :
    f.isDirectoryAt there := by
  fun_induction advance f here names with
  | case3 here names hd ih => exact ih h
  | case4 here names hd _ ih => exact ih h
  | case6 here name names hd hdot hup hlong other hlink =>
    cases h
    simpa using hd
  | case7 here name names hd hdot hup hlong entry hlink hentry ih =>
    cases entry with
    | link other => exact (hlink other rfl).elim
    | _ => exact ih h
  | _ => cases h

theorem isDirectoryAt_targetStart (h : f.isDirectoryAt there) (target : String) :
    f.isDirectoryAt (targetStart there target) := by
  unfold targetStart
  split_ifs
  · rfl
  · exact h

/-- Names come no further than a file. -/
theorem advance_of_file (h : f.get? q = some (.file content mode)) (rest : List String) :
    f.advance q rest = if rest = [] then .arrived q else .failed .notDirectory := by
  cases rest with
  | nil => rfl
  | cons name rest => simp [advance, isDirectoryAt, h]

theorem leads_of_file (h : f.get? q = some (.file content mode)) (hp : f.Leads q rest p) :
    rest = [] ∧ p = q := by
  have hadvance := advance_of_file h rest
  by_cases hrest : rest = []
  · rw [if_pos hrest] at hadvance
    exact ⟨hrest, (leads_iff_of_arrived hadvance).1 hp⟩
  · rw [if_neg hrest] at hadvance
    exact absurd hp (not_leads_of_failed hadvance)

/-- No way to a directory begins with one to a file. -/
theorem LeadsToFile.not_leads (h : f.LeadsToFile here names mode) (hp : f.isDirectoryAt p) :
    ¬ f.Leads here (names ++ rest) p := by
  obtain ⟨place, content, hplace, hfile⟩ := h
  rw [hplace.append_iff (by simp [hfile])]
  intro hleads
  rw [(leads_of_file hfile hleads).2, isDirectoryAt_iff, hfile] at hp
  cases hp

/-! ### Names in a directory -/

theorem locateEntry_child_iff : f.locateEntry (path.child name) = .ok q ↔
    (path.child name).hasNull = false ∧ ∃ directory, f.locate path = .ok directory ∧
      f.isDirectoryAt directory ∧ isTooLong name = false ∧ q = directory ++ [name] := by
  have hparent : (path.child name).parent = path := by simp [Path.child, Path.parent]
  have hname : (path.child name).name = name := by simp [Path.child, Path.name]
  unfold locateEntry
  rw [hparent, hname]
  cases (path.child name).hasNull with
  | true => simp
  | false =>
    cases f.locate path with
    | error error => simp [Except.bind]
    | ok directory =>
      simp only [Except.bind, Bool.false_eq_true, if_false, true_and, Except.ok.injEq,
        exists_eq_left']
      by_cases hd : f.isDirectoryAt directory
      · cases hlong : isTooLong name with
        | true => simp [hd]
        | false => simp [hd, eq_comm (a := q)]
      · rw [if_neg hd]
        split_ifs <;> simp [hd]

theorem leads_name_of_link (hd : f.isDirectoryAt there) (hdots : name ≠ "." ∧ name ≠ "..")
    (hlong : isTooLong name = false) (h : f.get? (there ++ [name]) = some (.link target)) :
    f.Leads there [name] r ↔ f.Leads (targetStart there target) (targetNames target) r := by
  have hat : f.advance there [name] = .atLink there target [] := by
    simp [advance, hd, hdots, hlong, h]
  rw [leads_iff_of_atLink hat, List.append_nil]

theorem leads_name_of_ne (hd : f.isDirectoryAt there) (hdots : name ≠ "." ∧ name ≠ "..")
    (hlong : isTooLong name = false)
    (h : ∀ target, f.get? (there ++ [name]) ≠ some (.link target)) :
    f.Leads there [name] r ↔ r = there ++ [name] := by
  refine leads_iff_of_arrived ?_
  cases hentry : f.get? (there ++ [name]) with
  | none => simp [advance, hd, hdots, hlong, hentry]
  | some entry =>
    cases entry with
    | link target => exact absurd hentry (h target)
    | _ => simp [advance, hd, hdots, hlong, hentry]

/-- A path leads to what the name in its directory leads to. -/
theorem leads_of_find_child {e : Entry} (hplace : f.locateEntry (path.child name) = .ok q)
    (hfind : f.find (path.child name) = .ok (r, e)) :
    ∃ directory, f.locate path = .ok directory ∧ f.isDirectoryAt directory ∧
      isTooLong name = false ∧ q = directory ++ [name] ∧ f.Leads directory [name] r := by
  obtain ⟨-, directory, hlocate, hd, hlong, rfl⟩ := locateEntry_child_iff.1 hplace
  obtain ⟨-, hleads, -⟩ := leads_of_find hfind
  refine ⟨directory, hlocate, hd, hlong, rfl, ?_⟩
  have habove : f.Leads (f.start path) path.names directory := (leads_of_locate hlocate).2
  exact (habove.append_iff (by simp [isDirectoryAt_iff.1 hd])).1 hleads

/-! ### What replacing files keeps -/

namespace Kept

theorem refl (f : Files) : f.Kept f :=
  ⟨rfl, rfl, fun _ => .inl rfl⟩

theorem directory (h : f.Kept g) (hq : f.get? q = some .directory) :
    g.get? q = some .directory := by
  rcases h.entry q with heq | ⟨mode, new, hbefore, -⟩
  · rw [heq, hq]
  · simp [StandsFor, hq] at hbefore

theorem missing (h : f.Kept g) (hq : f.get? q = none) : g.get? q = none := by
  rcases h.entry q with heq | ⟨mode, new, hbefore, -⟩
  · rw [heq, hq]
  · simp [StandsFor, hq] at hbefore

/-- A file keeps its mode. -/
theorem file (h : f.Kept g) (hq : f.get? q = some (.file content mode)) :
    ∃ new, g.get? q = some (.file new mode) := by
  rcases h.entry q with heq | ⟨other, new, hbefore, hnew⟩
  · exact ⟨content, heq.trans hq⟩
  · have hmode : mode = other := by simpa [StandsFor, hq] using hbefore
    exact ⟨new, hmode ▸ hnew⟩

/-- A link stays, or is a file with the mode of the one that it led to. -/
theorem link (h : f.Kept g) (hq : f.get? q = some (.link target)) :
    g.get? q = some (.link target) ∨ ∃ new mode, g.get? q = some (.file new mode) ∧
      f.LeadsToFile (targetStart q.dropLast target) (targetNames target) mode := by
  rcases h.entry q with heq | ⟨mode, new, hbefore, hnew⟩
  · exact .inl (heq.trans hq)
  · obtain ⟨other, hother, hleads⟩ := hbefore.resolve_left (by simp [hq])
    cases hq.symm.trans hother
    exact .inr ⟨new, mode, hnew, hleads⟩

/-- What is a file was one, or a link to one, with its mode. -/
theorem standsFor_of_file (h : f.Kept g) (hq : g.get? q = some (.file content mode)) :
    f.StandsFor q mode := by
  rcases h.entry q with heq | ⟨other, new, hbefore, hnew⟩
  · exact .inl ⟨content, heq.symm.trans hq⟩
  · cases hq.symm.trans hnew
    exact hbefore

/-- A link was the same one before. -/
theorem get?_of_link (h : f.Kept g) (hq : g.get? q = some (.link target)) :
    f.get? q = some (.link target) := by
  rcases h.entry q with heq | ⟨mode, new, -, hnew⟩
  · exact heq.symm.trans hq
  · cases hq.symm.trans hnew

theorem isDirectoryAt (h : f.Kept g) (q : RealPath) : g.isDirectoryAt q = f.isDirectoryAt q := by
  rcases h.entry q with heq | ⟨mode, new, hbefore, hnew⟩
  · unfold Files.isDirectoryAt
    rw [heq]
  · rw [hbefore.isDirectoryAt]
    unfold Files.isDirectoryAt
    rw [hnew]

/-- Names are followed as before, up to a link that was replaced. -/
theorem advance (h : f.Kept g) (here : RealPath) (names : List String) :
    g.advance here names = f.advance here names ∨
    ∃ directory target rest q new mode, f.advance here names = .atLink directory target rest ∧
      f.LeadsToFile (targetStart directory target) (targetNames target) mode ∧
      g.get? q = some (.file new mode) ∧ g.advance here names = g.advance q rest := by
  fun_induction Files.advance f here names with
  | case1 here => exact .inl rfl
  | case2 here name names hd => exact .inl (by simp [Files.advance, h.isDirectoryAt, hd])
  | case3 here names hd ih => simpa [Files.advance, h.isDirectoryAt, hd] using ih
  | case4 here names hd hdot ih => simpa [Files.advance, h.isDirectoryAt, hd] using ih
  | case5 here name names hd hdot hup hlong =>
    exact .inl (by simp [Files.advance, h.isDirectoryAt, hd, hdot, hup, hlong])
  | case6 here name names hd hdot hup hlong target hlink =>
    rcases h.link hlink with hsame | ⟨new, mode, hnew, hleads⟩
    · exact .inl (by simp [Files.advance, h.isDirectoryAt, hd, hdot, hup, hlong, hsame])
    · rw [List.dropLast_concat] at hleads
      exact .inr ⟨here, target, names, here ++ [name], new, mode, rfl, hleads, hnew,
        by simp [Files.advance, h.isDirectoryAt, hd, hdot, hup, hlong, hnew]⟩
  | case7 here name names hd hdot hup hlong entry hlink hentry ih =>
    cases entry with
    | directory =>
      simpa [Files.advance, h.isDirectoryAt, hd, hdot, hup, hlong, h.directory hentry] using ih
    | file content mode =>
      obtain ⟨new, hnew⟩ := h.file hentry
      simpa [Files.advance, h.isDirectoryAt, hd, hdot, hup, hlong, hnew] using ih
    | link target => exact (hlink target rfl).elim
  | case8 here name names hd hdot hup hlong hentry hlast =>
    exact .inl (by
      simp [Files.advance, h.isDirectoryAt, hd, hdot, hup, hlong, h.missing hentry, hlast])
  | case9 here name names hd hdot hup hlong hentry hlast =>
    exact .inl (by
      simp [Files.advance, h.isDirectoryAt, hd, hdot, hup, hlong, h.missing hentry, hlast])

/-- Names that come to a replaced link lead to no directory, neither before nor now. -/
theorem follow_iff_of_replaced (h : f.Kept g) (hp : f.isDirectoryAt p)
    (hat : f.advance here names = .atLink there target rest)
    (hleads : f.LeadsToFile (targetStart there target) (targetNames target) mode)
    (hnew : g.get? q = some (.file content mode))
    (hadvance : g.advance here names = g.advance q rest) :
    g.follow links here names = .ok p ↔ f.follow links here names = .ok p := by
  refine iff_of_false (fun hfollow => ?_) fun hfollow => ?_
  · have hq := (leads_congr hadvance).1 (leads_of_follow hfollow)
    rw [(leads_of_file hnew hq).2, ← h.isDirectoryAt, isDirectoryAt_iff, hnew] at hp
    cases hp
  · exact hleads.not_leads hp ((leads_iff_of_atLink hat).1 (leads_of_follow hfollow))

/-- A directory is found as before, through the same links. -/
theorem follow_iff (h : f.Kept g) (hp : f.isDirectoryAt p) :
    g.follow links here names = .ok p ↔ f.follow links here names = .ok p := by
  induction links generalizing here names with
  | zero =>
    -- a link that was replaced leads to a file, so it is on no way to a directory
    rcases h.advance here names with heq | ⟨_, _, _, _, _, _, hat, hleads, hnew, hadvance⟩
    · simp only [Files.follow, heq]
    · exact h.follow_iff_of_replaced hp hat hleads hnew hadvance
  | succ links ih =>
    rcases h.advance here names with heq | ⟨_, _, _, _, _, _, hat, hleads, hnew, hadvance⟩
    · unfold Files.follow
      rw [heq]
      cases f.advance here names with
      | arrived place => rfl
      | failed error => rfl
      | atLink directory target rest => exact ih
    · exact h.follow_iff_of_replaced hp hat hleads hnew hadvance

/-- Every name in a directory is where it was. -/
theorem locateEntry_iff (h : f.Kept g) :
    g.locateEntry (path.child name) = .ok q ↔ f.locateEntry (path.child name) = .ok q := by
  have hlocate : ∀ directory, f.isDirectoryAt directory →
      (g.locate path = .ok directory ↔ f.locate path = .ok directory) := fun directory hd => by
    unfold locate start
    rw [h.working]
    split_ifs
    · rfl
    · rfl
    · exact h.follow_iff hd
    · exact h.follow_iff hd
  simp only [locateEntry_child_iff, h.isDirectoryAt]
  exact and_congr_right fun _ => exists_congr fun directory =>
    ⟨fun ⟨hl, hd, hrest⟩ => ⟨(hlocate directory hd).1 hl, hd, hrest⟩,
      fun ⟨hl, hd, hrest⟩ => ⟨(hlocate directory hd).2 hl, hd, hrest⟩⟩

/-- Names that lead to a file led to one with its mode before. -/
theorem leadsToFile (hf : f.Proper) (h : f.Kept g) (hhere : f.isDirectoryAt here)
    (hq : g.Leads here names q) (hfile : g.get? q = some (.file content mode)) :
    f.LeadsToFile here names mode := by
  induction hq with
  | @arrived here q names ha =>
    rcases h.advance here names with heq | ⟨directory, target, rest, place, new, other, hat,
      ⟨last, bytes, hlast, hbytes⟩, hnew, hadvance⟩
    · rw [heq] at ha
      rcases h.standsFor_of_file hfile with ⟨old, hold⟩ | ⟨target, htarget, -⟩
      · exact ⟨q, old, .arrived ha, hold⟩
      · -- names do not arrive at a link, so no replaced link is where they arrive
        refine absurd htarget (hf.ne_link_of_arrived ?_ ha)
        simp [isDirectoryAt_iff.1 hhere]
    · -- the names end at a link that was replaced
      obtain ⟨rfl, rfl⟩ := leads_of_file hnew (.arrived (hadvance.symm.trans ha))
      cases hfile.symm.trans hnew
      exact ⟨last, bytes, .link hat (by simpa using hlast), hbytes⟩
  | @link here directory q names rest target ha _ ih =>
    rcases h.advance here names with heq | ⟨-, -, others, place, new, other, -, -, hnew, hadvance⟩
    · rw [heq] at ha
      obtain ⟨last, bytes, hlast, hbytes⟩ :=
        ih (isDirectoryAt_targetStart (isDirectoryAt_of_atLink ha) target) hfile
      exact ⟨last, bytes, .link ha hlast, hbytes⟩
    · rw [hadvance, advance_of_file hnew] at ha
      split_ifs at ha

/-- A file may be put where one with its mode was, or a link to one. -/
theorem put (h : f.Kept g) (hq : q ≠ []) (hbefore : f.StandsFor q mode) (new : Bytes) :
    f.Kept (g.put q (.file new mode)) := by
  have hplaces : q ∈ g.places := by
    rw [h.places]
    rcases hbefore with ⟨old, hold⟩ | ⟨target, htarget, -⟩
    · exact mem_places hq hold
    · exact mem_places hq htarget
  refine ⟨h.working, (places_put hplaces _).trans h.places, fun r => ?_⟩
  rw [get?_put hq]
  by_cases hr : r = q
  · rw [hr, if_pos rfl]
    exact .inr ⟨mode, new, hbefore, rfl⟩
  · rw [if_neg hr]
    exact h.entry r

/-- A path that leads to a file names one with its mode, or a link to one, and did so before. -/
theorem standsFor (hf : f.Proper) (h : f.Kept g) (hdots : name ≠ "." ∧ name ≠ "..")
    (hplace : g.locateEntry (path.child name) = .ok q)
    (hfind : g.find (path.child name) = .ok (r, .file content mode)) : f.StandsFor q mode := by
  obtain ⟨directory, -, hd, hlong, rfl, hleads⟩ := leads_of_find_child hplace hfind
  have hr := get?_of_find hfind
  by_cases hlink : ∃ target, g.get? (directory ++ [name]) = some (.link target)
  · obtain ⟨target, htarget⟩ := hlink
    have hhere : f.isDirectoryAt directory := by rwa [← h.isDirectoryAt]
    rw [leads_name_of_link hd hdots hlong htarget] at hleads
    refine .inr ⟨target, h.get?_of_link htarget, ?_⟩
    rw [List.dropLast_concat]
    exact h.leadsToFile hf (isDirectoryAt_targetStart hhere target) hleads hr
  · rw [not_exists] at hlink
    rw [(leads_name_of_ne hd hdots hlong hlink).1 hleads] at hr
    exact h.standsFor_of_file hr

end Kept
end JsxLint.Files
