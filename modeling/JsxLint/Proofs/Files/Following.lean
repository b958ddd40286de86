import JsxLint.Proofs.Files.Replacing

/-!
# Where names lead

Where names lead is said here without counting the links on the way. Looking up a path comes to the
same place, unless there are too many links or something is too long.

* `Files.Leads`: where names lead from a real path;
* `Files.Leads.append_iff`: names that follow others;
* `Files.leads_of_find`, `Files.find_of_leads`: looking up a path.
-/

namespace JsxLint.Files

variable {f : Files} {here directory p q : RealPath} {names rest others : List String}
  {target : String} {links : Nat} {e : Entry} {path : Path}

/-- Where names lead from a real path, whatever the number of links on the way. -/
inductive Leads (f : Files) : RealPath → List String → RealPath → Prop
  | arrived {here p : RealPath} {names : List String} (h : f.advance here names = .arrived p) :
      Leads f here names p
  | link {here directory p : RealPath} {names rest : List String} {target : String}
      (h : f.advance here names = .atLink directory target rest)
      (hrest : Leads f (targetStart directory target) (targetNames target ++ rest) p) :
      Leads f here names p

theorem leads_iff_of_arrived (h : f.advance here names = .arrived p) :
    f.Leads here names q ↔ q = p := by
  constructor
  · intro hq
    cases hq with
    | arrived h' =>
      cases h.symm.trans h'
      rfl
    | link h' _ => cases h.symm.trans h'
  · rintro rfl
    exact .arrived h

theorem leads_iff_of_atLink (h : f.advance here names = .atLink directory target rest) :
    f.Leads here names q ↔
      f.Leads (targetStart directory target) (targetNames target ++ rest) q := by
  constructor
  · intro hq
    cases hq with
    | arrived h' => cases h.symm.trans h'
    | link h' hrest =>
      cases h.symm.trans h'
      exact hrest
  · exact .link h

theorem not_leads_of_failed {error : FileError} (h : f.advance here names = .failed error) :
    ¬ f.Leads here names q := by
  intro hq
  cases hq with
  | arrived h' => cases h.symm.trans h'
  | link h' _ => cases h.symm.trans h'

/-- Names lead where other names do that come to the same. -/
theorem leads_congr {other : RealPath} (h : f.advance here names = f.advance other rest) :
    f.Leads here names q ↔ f.Leads other rest q := by
  cases ha : f.advance other rest with
  | arrived place => rw [leads_iff_of_arrived (h.trans ha), leads_iff_of_arrived ha]
  | failed error => exact iff_of_false (not_leads_of_failed (h.trans ha)) (not_leads_of_failed ha)
  | atLink directory target others =>
    rw [leads_iff_of_atLink (h.trans ha), leads_iff_of_atLink ha]

/-- Names lead to one place at most. -/
theorem Leads.unique (hp : f.Leads here names p) (hq : f.Leads here names q) : p = q := by
  induction hp with
  | arrived h => exact ((leads_iff_of_arrived h).1 hq).symm
  | link h _ ih => exact ih ((leads_iff_of_atLink h).1 hq)

/-! ### Following links -/

theorem leads_of_follow (h : f.follow links here names = .ok p) : f.Leads here names p := by
  fun_induction follow f links here names with
  | case1 links here names place ha =>
    cases h
    exact .arrived ha
  | case2 links here names error ha => cases h
  | case3 here names directory target rest ha => cases h
  | case4 here names directory target rest ha links ih => exact .link ha (ih h)

/-- Following names comes to where they lead, unless there are too many links. -/
theorem Leads.follow (h : f.Leads here names p) (links : Nat) :
    f.follow links here names = .ok p ∨ f.follow links here names = .error .linkLoop := by
  induction h generalizing links with
  | arrived h =>
    left
    unfold Files.follow
    rw [h]
  | link h _ ih =>
    unfold Files.follow
    rw [h]
    cases links with
    | zero => exact .inr rfl
    | succ links => exact ih links

/-! ### Names behind names -/

/-- Names that follow others go on from where these arrive, if something stands there. -/
theorem advance_append_of_arrived (h : f.advance here names = .arrived p) (hp : f.get? p ≠ none)
    (rest : List String) : f.advance here (names ++ rest) = f.advance p rest := by
  fun_induction advance f here names with
  | case1 here =>
    cases h
    rfl
  | case3 here names hd ih => simpa [advance, hd] using ih h
  | case4 here names hd _ ih => simpa [advance, hd] using ih h
  | case7 here name names hd hdot hup hlong entry hlink hentry ih =>
    cases entry with
    | link target => exact (hlink target rfl).elim
    | _ => simpa [advance, hd, hdot, hup, hlong, hentry] using ih h
  | case8 here name names hd hdot hup hlong hentry hlast =>
    cases h
    exact absurd hentry hp
  | _ => cases h

/-- Names that follow others are left over when these come to a link. -/
theorem advance_append_of_atLink (h : f.advance here names = .atLink directory target others)
    (rest : List String) :
    f.advance here (names ++ rest) = .atLink directory target (others ++ rest) := by
  fun_induction advance f here names with
  | case3 here names hd ih => simpa [advance, hd] using ih h
  | case4 here names hd _ ih => simpa [advance, hd] using ih h
  | case6 here name names hd hdot hup hlong target hlink =>
    cases h
    simp [advance, hd, hdot, hup, hlong, hlink]
  | case7 here name names hd hdot hup hlong entry hlink hentry ih =>
    cases entry with
    | link target => exact (hlink target rfl).elim
    | _ => simpa [advance, hd, hdot, hup, hlong, hentry] using ih h
  | _ => cases h

/-- Names that follow others lead where they lead from where these do, if something stands there. -/
theorem Leads.append_iff (h : f.Leads here names p) (hp : f.get? p ≠ none) :
    f.Leads here (names ++ rest) q ↔ f.Leads p rest q := by
  induction h with
  | arrived h => exact leads_congr (advance_append_of_arrived h hp rest)
  | link h _ ih =>
    rw [leads_iff_of_atLink (advance_append_of_atLink h rest), ← List.append_assoc]
    exact ih hp

/-! ### Looking up paths -/

theorem leads_of_locate (h : f.locate path = .ok q) :
    path.hasNull = false ∧ f.Leads (f.start path) path.names q := by
  unfold locate at h
  split_ifs at h with hnull
  exact ⟨by simpa using hnull, leads_of_follow h⟩

theorem locate_of_find (h : f.find path = .ok (q, e)) : f.locate path = .ok q := by
  unfold find at h
  cases hl : f.locate path with
  | error error =>
    rw [hl] at h
    cases h
  | ok place =>
    rw [hl] at h
    simp only [Except.bind] at h
    split at h
    · cases h
      rfl
    · cases h

theorem leads_of_find (h : f.find path = .ok (q, e)) :
    path.hasNull = false ∧ f.Leads (f.start path) path.names q ∧ f.get? q = some e := by
  obtain ⟨hnull, hleads⟩ := leads_of_locate (locate_of_find h)
  exact ⟨hnull, hleads, get?_of_find h⟩

/-- A path is looked up where it leads, unless it goes through too many links or is too long. -/
theorem find_of_leads (hnull : path.hasNull = false) (h : f.Leads (f.start path) path.names q)
    (he : f.get? q = some e) : f.find path = .ok (q, e) ∨ f.find path = .error .linkLoop ∨
      f.find path = .error .nameTooLong := by
  unfold find locate
  rw [hnull]
  by_cases hlong : pathLimit < path.toString.utf8ByteSize
  · simp [hlong, Except.bind]
  · rcases h.follow linkLimit with hf | hf
    · simp [hlong, hf, he, Except.bind]
    · simp [hlong, hf, Except.bind]

end JsxLint.Files
