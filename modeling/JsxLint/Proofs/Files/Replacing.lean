import JsxLint.Files.Writing
import JsxLint.Scan.Walk
import Mathlib.Data.List.Basic

/-!
# Replacing files

What stands at a real path after an entry was put there or taken away, and what putting new bytes
in place of a file comes to: either the file has them and its old mode, or nothing was changed.

* `Files.get?_put`, `Files.erase_put`: entries that are put and taken away;
* `Files.temporary_fresh`: nothing stands where a temporary file is made;
* `Files.Regular`: paths of regular files;
* `Files.Replaced`: a file that has new bytes;
* `Files.replace_of_find`: what `Files.replace` comes to.
-/

namespace JsxLint.Files

variable {f : Files} {p : Path} {q r : RealPath} {e : Entry}

/-! ### Entries -/

/-- The real paths at which something stands, in the order of the entries. -/
def places (f : Files) : List RealPath :=
  f.entries.map (·.1)

theorem lookup_cons_eq_ite (r k : RealPath) (d : Entry) (l : List (RealPath × Entry)) :
    ((k, d) :: l).lookup r = if r = k then some d else l.lookup r := by
  rw [List.lookup_cons]
  by_cases h : r = k
  · simp [h]
  · simp [h, beq_false_of_ne h]

theorem lookup_putIn (q r : RealPath) (e : Entry) (l : List (RealPath × Entry)) :
    (putIn q e l).lookup r = if r = q then some e else l.lookup r := by
  induction l with
  | nil => rw [putIn, lookup_cons_eq_ite]
  | cons head rest ih =>
    obtain ⟨k, d⟩ := head
    unfold putIn
    by_cases hk : k = q
    · rw [if_pos hk, lookup_cons_eq_ite, lookup_cons_eq_ite, hk]
      split <;> rfl
    · rw [if_neg hk, lookup_cons_eq_ite, lookup_cons_eq_ite, ih]
      by_cases h : r = k
      · have hne : r ≠ q := fun hq => hk (h ▸ hq)
        rw [if_pos h, if_pos h, if_neg hne]
      · rw [if_neg h, if_neg h]

theorem get?_put (hq : q ≠ []) (e : Entry) (r : RealPath) :
    (f.put q e).get? r = if r = q then some e else f.get? r := by
  unfold get? put
  by_cases hr : r = []
  · simp [hr, hq.symm]
  · simp only [if_neg hr]
    exact lookup_putIn q r e f.entries

theorem map_fst_putIn {l : List (RealPath × Entry)} (h : q ∈ l.map (·.1)) (e : Entry) :
    (putIn q e l).map (·.1) = l.map (·.1) := by
  induction l with
  | nil => cases h
  | cons head rest ih =>
    obtain ⟨k, d⟩ := head
    unfold putIn
    by_cases hk : k = q
    · simp [hk]
    · have hrest : q ∈ rest.map (·.1) := (List.mem_cons.1 h).resolve_left fun hq => hk hq.symm
      simp [hk, ih hrest]

/-- Something in place of what stands at a real path leaves the places as they are. -/
theorem places_put (h : q ∈ f.places) (e : Entry) : (f.put q e).places = f.places :=
  map_fst_putIn h e

theorem mem_places (hq : q ≠ []) (h : f.get? q = some e) : q ∈ f.places := by
  unfold get? at h
  rw [if_neg hq] at h
  by_contra hn
  have hnone : f.entries.lookup q = none := by
    rw [List.lookup_eq_none_iff]
    intro entry hentry
    simp only [bne_iff_ne, ne_eq]
    rintro rfl
    exact hn (List.mem_map_of_mem hentry)
  simp [hnone] at h

/-! ### Temporary files -/

theorem putIn_of_not_mem {l : List (RealPath × Entry)} (h : q ∉ l.map (·.1)) (e : Entry) :
    putIn q e l = l ++ [(q, e)] := by
  induction l with
  | nil => rfl
  | cons head rest ih =>
    obtain ⟨k, d⟩ := head
    simp only [List.map_cons, List.mem_cons, not_or] at h
    simp [putIn, Ne.symm h.1, ih h.2]

/-- What was put where nothing stood can be taken away again. -/
theorem erase_put (h : q ∉ f.places) (e : Entry) : (f.put q e).erase q = f := by
  have hrest : f.entries.filter (fun entry => decide (entry.1 ≠ q)) = f.entries := by
    rw [List.filter_eq_self]
    intro entry hentry
    exact decide_eq_true fun hq => h (List.mem_map.2 ⟨entry, hentry, hq⟩)
  unfold put erase
  rw [putIn_of_not_mem h]
  simp only [List.filter_append, hrest]
  simp

theorem putIn_putIn (q : RealPath) (d e : Entry) (l : List (RealPath × Entry)) :
    putIn q e (putIn q d l) = putIn q e l := by
  induction l with
  | nil => simp [putIn]
  | cons head rest ih =>
    obtain ⟨k, c⟩ := head
    by_cases hk : k = q
    · simp [putIn, hk]
    · simp [putIn, hk, ih]

theorem put_put (f : Files) (q : RealPath) (d e : Entry) : (f.put q d).put q e = f.put q e := by
  unfold put
  simp only [putIn_putIn]

theorem length_le_longestName {name : String} {directory : RealPath}
    (h : name ∈ f.names directory) : name.length ≤ f.longestName directory := by
  have hfold : ∀ (l : List String) (n : Nat), n ≤ l.foldl (fun n name => max n name.length) n ∧
      ∀ name ∈ l, name.length ≤ l.foldl (fun n name => max n name.length) n := by
    intro l
    induction l with
    | nil => simp
    | cons a l ih =>
      intro n
      obtain ⟨hn, hl⟩ := ih (max n a.length)
      rw [List.foldl_cons]
      refine ⟨by omega, fun name hname => ?_⟩
      rcases List.mem_cons.1 hname with rfl | hname
      · omega
      · exact hl name hname
  exact (hfold _ 0).2 name h

theorem length_temporaryName (f : Files) (directory : RealPath) (name : String) :
    (f.temporaryName directory name).length = name.length + f.longestName directory + 6 := by
  simp only [temporaryName, temporaryNameWith, String.length_append, String.length_ofList,
    List.length_replicate, show ".".length = 1 from rfl, show ".tmp".length = 4 from rfl]
  omega

theorem mem_names {directory : RealPath} {name : String} (h : directory ++ [name] ∈ f.places) :
    name ∈ f.names directory := by
  obtain ⟨entry, hentry, hplace⟩ := List.mem_map.1 h
  refine List.mem_filterMap.2 ⟨entry, hentry, ?_⟩
  simp [hplace]

/-- Nothing stands where a temporary file is made. -/
theorem temporary_fresh (f : Files) (directory : RealPath) (name : String) :
    directory ++ [f.temporaryName directory name] ∉ f.places := by
  intro h
  have hlength := length_le_longestName (mem_names h)
  rw [length_temporaryName] at hlength
  omega

/-! ### Replacing -/

/-- Whether a path is that of a regular file, which it names without a link. -/
structure Regular (f : Files) (p : Path) (q : RealPath) (content : Bytes) (mode : Nat) : Prop where
  place : f.locateEntry p = .ok q
  entry : f.find p = .ok (q, .file content mode)

/-- Whether `g` differs from the file tree `f` only in what stands at `q`. -/
structure Replaced (f g : Files) (q : RealPath) (e : Entry) : Prop where
  entry : g.get? q = some e
  others : ∀ r, r ≠ q → g.get? r = f.get? r
  places : g.places = f.places

theorem Regular.ne_nil {content : Bytes} {mode : Nat} (h : f.Regular p q content mode) :
    q ≠ [] := by
  have hplace := h.place
  unfold locateEntry at hplace
  by_cases hnull : p.hasNull
  · simp [hnull] at hplace
  · rw [if_neg hnull] at hplace
    cases hd : f.locate p.parent with
    | error error => simp [hd, Except.bind] at hplace
    | ok directory =>
      rw [hd] at hplace
      simp only [Except.bind] at hplace
      split_ifs at hplace
      cases hplace
      simp

theorem Regular.get? {content : Bytes} {mode : Nat} (h : f.Regular p q content mode) :
    f.get? q = some (.file content mode) :=
  get?_of_find h.entry

theorem Regular.content {bytes : Bytes} {mode : Nat} (h : f.Regular p q bytes mode) :
    f.content p = if isReadable mode then .ok bytes else .error .denied := by
  unfold Files.content
  rw [h.entry]

theorem replaced_put (hq : q ≠ []) (h : f.get? q = some e) (d : Entry) :
    f.Replaced (f.put q d) q d := by
  constructor
  · rw [get?_put hq, if_pos rfl]
  · intro r hr
    rw [get?_put hq, if_neg hr]
  · exact places_put (mem_places hq h) d

/-- Why new bytes cannot be put in place of a file, if a step fails. -/
def replaceFault (f : Files) (p : Path) (directory : RealPath) (fault : WriteStep → Option String) :
    Option String :=
  (f.createFault p directory fault).or <| (fault .fill).or <| (fault .copyMode).or (fault .rename)

/-- Whether a temporary file can be made depends on the locked directories alone. -/
theorem createFault_congr {g : Files} (h : g.locked = f.locked) (p : Path) (directory : RealPath)
    (fault : WriteStep → Option String) :
    g.createFault p directory fault = f.createFault p directory fault := by
  unfold createFault
  rw [h]

theorem replaceFault_congr {g : Files} (h : g.locked = f.locked) (p : Path) (directory : RealPath)
    (fault : WriteStep → Option String) :
    g.replaceFault p directory fault = f.replaceFault p directory fault := by
  unfold replaceFault
  rw [createFault_congr h]

/-- New bytes are put where a path leads to a file, whether it names the file or a link to it, with
the mode of that file, or nothing is changed. -/
theorem replace_of_find {content : Bytes} {mode : Nat} (hplace : f.locateEntry p = .ok q)
    (hfind : f.find p = .ok (r, .file content mode)) (new : Bytes)
    (fault : WriteStep → Option String) :
    f.replace p new fault = match f.replaceFault p q.dropLast fault with
      | some message => ⟨f, some message⟩
      | none => ⟨f.put q (.file new mode), none⟩ := by
  have hfresh := temporary_fresh f q.dropLast p.name
  unfold replace replaceFault
  rw [hplace, hfind]
  dsimp only
  cases f.createFault p q.dropLast fault with
  | some message => rfl
  | none =>
    cases fault .fill with
    | some message => simp [erase_put hfresh]
    | none =>
      cases fault .copyMode with
      | some message => simp [put_put, erase_put hfresh]
      | none => cases fault .rename <;> simp [put_put, erase_put hfresh]

/-- New bytes are put in place of a regular file, which keeps its mode, or nothing is changed. -/
theorem replace_eq {content : Bytes} {mode : Nat} (h : f.Regular p q content mode) (new : Bytes)
    (fault : WriteStep → Option String) :
    f.replace p new fault = match f.replaceFault p q.dropLast fault with
      | some message => ⟨f, some message⟩
      | none => ⟨f.put q (.file new mode), none⟩ :=
  replace_of_find h.place h.entry new fault

end JsxLint.Files
