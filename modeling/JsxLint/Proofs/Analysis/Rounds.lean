import JsxLint.Analysis.Rounds
import Mathlib.Data.List.Basic

/-!
# Rounds

What a round of an analysis is, apart from the rules: the detections bring findings that no earlier
round had, and the repairs are made one after the other.

* `Engine.Detected`, `Engine.detectAll_detected`: the findings of a round;
* `Engine.detectNext`, `Engine.foldl_note`: one rule in a round, and what is new of its findings;
* `Engine.Repairs`, `Engine.repairAll_repairs`: the repairs of a round;
* `Engine.rounds_induction`: the ways in which rounds can go;
* `Engine.rounds_invariant`: what a round keeps of the document, all rounds keep.
-/

namespace JsxLint

namespace Engine

variable {e : Engine} {w w' w'' : Workspace} {p p' p'' : Progress} {rule : Rule} {f : Finding}
  {new more : List (Rule × Finding)}

/-! ### Detection -/

/-- What the detections of a round do: they add findings of the rules that were not known. -/
structure Detected (e : Engine) (w : Workspace) (p p' : Progress) (new : List (Rule × Finding)) :
    Prop where
  document : p'.document = p.document
  changes : p'.changes = p.changes
  refusals : p'.refusals = p.refusals
  passes : p'.passes = p.passes
  seen : p'.seen = p.seen ++ new.map (·.2)
  mem : ∀ x ∈ new, x.1 ∈ e.rules ∧ x.2 ∈ x.1.detect w w.document.root.walk
  unknown : ∀ x ∈ new, ¬p.knows x.2
  nodup : (new.map (·.2.key)).Nodup

theorem knows_iff {p : Progress} : p.knows f ↔ ∃ g ∈ p.seen, g.key = f.key := by
  rw [Progress.knows, List.any_eq_true]
  simp only [beq_iff_eq]

theorem Detected.refl (e : Engine) (w : Workspace) (p : Progress) : Detected e w p p [] :=
  ⟨rfl, rfl, rfl, rfl, (List.append_nil _).symm, fun x hx => (by cases hx),
    fun x hx => (by cases hx), List.nodup_nil⟩

theorem Detected.knows (h : Detected e w p p' new) : p'.knows f ↔
    p.knows f ∨ f.key ∈ new.map (·.2.key) := by
  simp only [knows_iff, h.seen, List.mem_append, List.mem_map, Prod.exists]
  constructor
  · rintro ⟨g, hg | ⟨r, x, hx, rfl⟩, hk⟩
    · exact .inl ⟨g, hg, hk⟩
    · exact .inr ⟨r, x, hx, hk⟩
  · rintro (⟨g, hg, hk⟩ | ⟨r, x, hx, hk⟩)
    · exact ⟨g, .inl hg, hk⟩
    · exact ⟨x, .inr ⟨r, x, hx, rfl⟩, hk⟩

theorem Detected.trans (h : Detected e w p p' new) (h' : Detected e w p' p'' more) :
    Detected e w p p'' (new ++ more) where
  document := h'.document.trans h.document
  changes := h'.changes.trans h.changes
  refusals := h'.refusals.trans h.refusals
  passes := h'.passes.trans h.passes
  seen := by rw [h'.seen, h.seen, List.map_append, List.append_assoc]
  mem x hx := (List.mem_append.1 hx).elim (h.mem x) (h'.mem x)
  unknown x hx := by
    rcases List.mem_append.1 hx with hx | hx
    · exact h.unknown x hx
    · exact fun hk => h'.unknown x hx (h.knows.2 (.inl hk))
  nodup := by
    rw [List.map_append]
    refine List.nodup_append.2 ⟨h.nodup, h'.nodup, fun a ha b hb he => ?_⟩
    obtain ⟨x, hx, rfl⟩ := List.mem_map.1 hb
    exact h'.unknown x hx (h.knows.2 (.inr (he ▸ ha)))

/-- The bookkeeping of calls and failures adds no finding. -/
theorem Detected.of_eq (hd : p'.document = p.document) (hc : p'.changes = p.changes)
    (hr : p'.refusals = p.refusals) (hp : p'.passes = p.passes) (hs : p'.seen = p.seen) :
    Detected e w p p' [] :=
  ⟨hd, hc, hr, hp, hs.trans (List.append_nil _).symm, fun x hx => (by cases hx),
    fun x hx => (by cases hx), List.nodup_nil⟩

theorem detectOne_detected (e : Engine) (w : Workspace) (nodes : List Node) (rule : Rule)
    (p : Progress) : Detected e w p (e.detectOne w nodes rule p).2 [] ∧
      ∀ f ∈ (e.detectOne w nodes rule p).1, f ∈ rule.detect w nodes := by
  rw [detectOne]
  split_ifs
  · exact ⟨.refl e w p, fun f hf => (by cases hf)⟩
  · cases he : e.faults.detect rule.id (countCall rule.id p.calls.detect).1 with
    | none =>
      simp only [he]
      exact ⟨.of_eq rfl rfl rfl rfl rfl, fun f hf => hf⟩
    | some message =>
      simp only [he]
      exact ⟨.of_eq rfl rfl rfl rfl rfl, fun f hf => (by cases hf)⟩

/-- Findings of one rule are noted unless they are known. -/
theorem note_detected {findings : List Finding} (hr : rule ∈ e.rules)
    (hf : ∀ f ∈ findings, f ∈ rule.detect w w.document.root.walk) (h : Detected e w p p' new) :
    Detected e w p (findings.foldl (note rule) (new, p')).2
      (findings.foldl (note rule) (new, p')).1 := by
  induction findings generalizing new p' with
  | nil => exact h
  | cons f findings ih =>
    have hfs : ∀ f ∈ findings, f ∈ rule.detect w w.document.root.walk := fun g hg =>
      hf g (List.mem_cons_of_mem _ hg)
    rw [List.foldl_cons, note]
    split_ifs with hk
    · exact ih hfs h
    · have hstep : Detected e w p' { p' with seen := p'.seen ++ [f] } [(rule, f)] :=
        ⟨rfl, rfl, rfl, rfl, rfl, fun x hx => List.mem_singleton.1 hx ▸ ⟨hr, hf f List.mem_cons_self⟩,
          fun x hx => List.mem_singleton.1 hx ▸ hk, List.pairwise_singleton _ _⟩
      exact ih hfs (h.trans hstep)

/-- One rule at work in a round: it is asked, and its findings are noted. -/
def detectNext (e : Engine) (w : Workspace) (nodes : List Node)
    (state : List (Rule × Finding) × Progress) (rule : Rule) : List (Rule × Finding) × Progress :=
  (e.detectOne w nodes rule state.2).1.foldl (note rule)
    (state.1, (e.detectOne w nodes rule state.2).2)

theorem detectAll_eq (e : Engine) (w : Workspace) (p : Progress) :
    e.detectAll w p = e.rules.foldl (e.detectNext w w.document.root.walk) ([], p) := rfl

/-- The detections of a round. -/
theorem detectAll_detected (e : Engine) (w : Workspace) (p : Progress) :
    Detected e w p (e.detectAll w p).2 (e.detectAll w p).1 := by
  suffices ∀ rules ⊆ e.rules, ∀ new p', Detected e w p p' new →
      let result := rules.foldl (e.detectNext w w.document.root.walk) (new, p')
      Detected e w p result.2 result.1 from
    this e.rules (List.Subset.refl _) [] p (.refl e w p)
  intro rules
  induction rules with
  | nil => exact fun _ new p' h => h
  | cons rule rules ih =>
    intro hrules new p' h
    obtain ⟨hone, hfindings⟩ := detectOne_detected e w w.document.root.walk rule p'
    have hone' := h.trans hone
    rw [List.append_nil] at hone'
    exact ih (fun r hr => hrules (List.mem_cons_of_mem _ hr)) _ _
      (note_detected (hrules List.mem_cons_self) hfindings hone')

/-- The findings that are not known, of those with one key the first. -/
def unknown (seen : List Finding) : List Finding → List Finding
  | [] => []
  | f :: findings =>
    if seen.any (·.key == f.key) then unknown seen findings
    else f :: unknown (seen ++ [f]) findings

theorem mem_of_mem_unknown {seen findings : List Finding} (h : f ∈ unknown seen findings) :
    f ∈ findings := by
  induction findings generalizing seen with
  | nil => cases h
  | cons g findings ih =>
    rw [unknown] at h
    split_ifs at h
    · exact List.mem_cons_of_mem _ (ih h)
    · rcases List.mem_cons.1 h with rfl | h
      · exact List.mem_cons_self
      · exact List.mem_cons_of_mem _ (ih h)

/-- Noting findings adds those that are not known, and changes nothing else. -/
theorem foldl_note (rule : Rule) (findings : List Finding) (new : List (Rule × Finding))
    (p : Progress) : findings.foldl (note rule) (new, p) =
      (new ++ (unknown p.seen findings).map (rule, ·),
        { p with seen := p.seen ++ unknown p.seen findings }) := by
  induction findings generalizing new p with
  | nil =>
    rw [unknown, List.map_nil, List.append_nil, List.append_nil]
    rfl
  | cons f findings ih =>
    rw [List.foldl_cons, note, Progress.knows, unknown]
    split_ifs
    · exact ih new p
    · rw [ih, List.append_assoc, List.append_assoc]
      rfl

/-! ### Repairs -/

/-- Findings offered to the repairs of their rules one after the other: the repairs that were made,
and what they leave. -/
inductive Repairs : Workspace → List (Rule × Finding) → List Change → Workspace → Prop
  | nil (w : Workspace) : Repairs w [] [] w
  | skip {w w' : Workspace} {new : List (Rule × Finding)} {changes : List Change}
    (x : Rule × Finding) (h : Repairs w new changes w') : Repairs w (x :: new) changes w'
  | repair {w w' w'' : Workspace} {new : List (Rule × Finding)} {changes : List Change}
    {rule : Rule} {f : Finding} {repair : Repair} {change : Change}
    (hr : rule.repair? = some repair) (hok : repair w f = .ok (change, w'))
    (h : Repairs w' new changes w'') : Repairs w ((rule, f) :: new) (change :: changes) w''

theorem repairOne_cases (e : Engine) (w : Workspace) (p : Progress) (rule : Rule) (f : Finding) :
    (e.repairOne w p rule f).2.document = p.document ∧
    (e.repairOne w p rule f).2.seen = p.seen ∧ (e.repairOne w p rule f).2.passes = p.passes ∧
    (((e.repairOne w p rule f).1 = w ∧ (e.repairOne w p rule f).2.changes = p.changes) ∨
      ∃ repair change, rule.repair? = some repair ∧
        repair w f = .ok (change, (e.repairOne w p rule f).1) ∧
        (e.repairOne w p rule f).2.changes = p.changes ++ [change]) := by
  rw [repairOne]
  cases hr : rule.repair? with
  | none => exact ⟨rfl, rfl, rfl, .inl ⟨rfl, rfl⟩⟩
  | some repair =>
    dsimp only
    cases e.faults.repair rule.id (countCall rule.id p.calls.repair).1 with
    | some message => exact ⟨rfl, rfl, rfl, .inl ⟨rfl, rfl⟩⟩
    | none =>
      dsimp only
      cases hok : repair w f with
      | error reason => exact ⟨rfl, rfl, rfl, .inl ⟨rfl, rfl⟩⟩
      | ok result => exact ⟨rfl, rfl, rfl, .inr ⟨repair, result.1, rfl, hok, rfl⟩⟩

/-- The repairs of a round. -/
theorem repairAll_repairs (e : Engine) (w : Workspace) (p : Progress)
    (new : List (Rule × Finding)) : ∃ changes w', Repairs w new changes w' ∧
      (e.repairAll w p new).document = w'.document ∧
      (e.repairAll w p new).changes = p.changes ++ changes ∧
      (e.repairAll w p new).seen = p.seen ∧ (e.repairAll w p new).passes = p.passes + 1 := by
  rw [repairAll]
  dsimp only
  induction new generalizing w p with
  | nil => exact ⟨[], w, .nil w, rfl, (List.append_nil _).symm, rfl, rfl⟩
  | cons x new ih =>
    obtain ⟨rule, f⟩ := x
    obtain ⟨-, hseen, hpasses, hcases⟩ := repairOne_cases e w p rule f
    obtain ⟨changes, w', hr, hd, hc, hs, hp⟩ :=
      ih (e.repairOne w p rule f).1 (e.repairOne w p rule f).2
    rw [hseen] at hs
    rw [hpasses] at hp
    rcases hcases with ⟨hw, hchanges⟩ | ⟨repair, change, hrule, hok, hchanges⟩
    · exact ⟨changes, w', .skip _ (hw ▸ hr), hd, hchanges ▸ hc, hs, hp⟩
    · rw [hchanges, List.append_assoc] at hc
      exact ⟨change :: changes, w', .repair hrule hok hr, hd, hc, hs, hp⟩

/-- What every repair of a round keeps, the round keeps. -/
theorem Repairs.invariant {I : Workspace → Prop} {changes : List Change}
    (h : Repairs w new changes w')
    (hI : ∀ x ∈ new, ∀ repair, x.1.repair? = some repair → ∀ v, I v → ∀ change v',
      repair v x.2 = .ok (change, v') → I v') (hw : I w) : I w' := by
  induction h with
  | nil => exact hw
  | skip x _ ih => exact ih (fun y hy => hI y (List.mem_cons_of_mem _ hy)) hw
  | repair hr hok _ ih =>
    exact ih (fun y hy => hI y (List.mem_cons_of_mem _ hy))
      (hI _ List.mem_cons_self _ hr _ hw _ _ hok)

/-- A change of a round comes from one repair, with repairs before it and after it. -/
theorem Repairs.split {changes : List Change} {c : Change} (h : Repairs w new changes w')
    (hc : c ∈ changes) : ∃ before x after repair earlier later v v', new = before ++ x :: after ∧
      Repairs w before earlier v ∧ x.1.repair? = some repair ∧ repair v x.2 = .ok (c, v') ∧
        Repairs v' after later w' := by
  induction h with
  | nil => cases hc
  | skip x _ ih =>
    obtain ⟨before, y, after, repair, earlier, later, v, v', rfl, hbefore, h⟩ := ih hc
    exact ⟨x :: before, y, after, repair, earlier, later, v, v', rfl, .skip x hbefore, h⟩
  | repair hr hok hrest ih =>
    rcases List.mem_cons.1 hc with rfl | hc
    · exact ⟨[], _, _, _, [], _, _, _, rfl, .nil _, hr, hok, hrest⟩
    · obtain ⟨before, y, after, repair, earlier, later, v, v', rfl, hbefore, h⟩ := ih hc
      exact ⟨_, y, after, repair, _, later, v, v', rfl, .repair hr hok hbefore, h⟩

/-! ### Rounds -/

/-- The state with one more resolution of names counted. -/
def counted (p : Progress) : Progress :=
  { p with calls := { p.calls with resolve := p.calls.resolve + 1 } }

/-- What a round finds, and the state after it. -/
def found (e : Engine) (p : Progress) : List (Rule × Finding) × Progress :=
  e.detectAll (.ofDocument p.document) (counted p)

/-- The state after a round of repairs. -/
def repaired (e : Engine) (p : Progress) : Progress :=
  e.repairAll (.ofDocument p.document) (e.found p).2 (e.found p).1

theorem found_eq (e : Engine) (p : Progress) : e.found p =
    e.rules.foldl (e.detectNext (.ofDocument p.document) p.document.root.walk) ([], counted p) := rfl

theorem found_detected (e : Engine) (p : Progress) :
    Detected e (.ofDocument p.document) p (e.found p).2 (e.found p).1 :=
  (Detected.of_eq rfl rfl rfl rfl rfl : Detected e _ p (counted p) []).trans
    (detectAll_detected e _ (counted p))

/-- What a round of repairs does. -/
theorem repaired_repairs (e : Engine) (p : Progress) : ∃ changes w',
    Repairs (.ofDocument p.document) (e.found p).1 changes w' ∧
      (e.repaired p).document = w'.document ∧ (e.repaired p).changes = p.changes ++ changes ∧
      (e.repaired p).seen = p.seen ++ (e.found p).1.map (·.2) ∧
      (e.repaired p).passes = p.passes + 1 := by
  have hd := found_detected e p
  obtain ⟨changes, w', hr, hdoc, hc, hs, hp⟩ :=
    repairAll_repairs e (.ofDocument p.document) (e.found p).2 (e.found p).1
  rw [hd.changes] at hc
  rw [hd.seen] at hs
  rw [hd.passes] at hp
  exact ⟨changes, w', hr, hdoc, hc, hs, hp⟩

section Equations

variable {n : Nat} {fix : Bool}

theorem rounds_of_fault {message : String}
    (h : e.faults.resolve (p.calls.resolve + 1) = some message) :
    e.rounds fix n p = (counted p, some (.unresolvable message)) := by
  rw [rounds, resolve]
  dsimp only
  rw [h]
  rfl

variable (h : e.faults.resolve (p.calls.resolve + 1) = none)

include h

theorem rounds_zero : e.rounds fix 0 p = ((e.found p).2, none) := by
  rw [rounds, resolve]
  dsimp only
  rw [h]
  cases fix <;> rfl

theorem rounds_false : e.rounds false n p = ((e.found p).2, none) := by
  rw [rounds, resolve]
  dsimp only
  rw [h]
  rfl

theorem rounds_succ : e.rounds true (n + 1) p =
    if (e.repaired p).changes.length = p.changes.length then (e.repaired p, none)
    else e.rounds true n (e.repaired p) := by
  rw [rounds, resolve]
  dsimp only
  rw [h]
  show (if (e.repaired p).changes.length = (e.found p).2.changes.length then _ else _) = _
  rw [(found_detected e p).changes]
  rfl

end Equations

/-- The ways in which rounds can go: they break off before a round, they end with a detection or
with repairs, or other rounds follow a round of repairs. -/
theorem rounds_induction {motive : Progress → Progress → Prop} (off : ∀ p, motive p (counted p))
    (last : ∀ p, motive p (e.found p).2) (stop : ∀ p, motive p (e.repaired p))
    (step : ∀ p p', motive (e.repaired p) p' → motive p p') (fix : Bool) (n : Nat) (p : Progress) :
    motive p (e.rounds fix n p).1 := by
  induction n generalizing p with
  | zero =>
    cases h : e.faults.resolve (p.calls.resolve + 1) with
    | some message =>
      rw [rounds_of_fault h]
      exact off p
    | none =>
      rw [rounds_zero h]
      exact last p
  | succ n ih =>
    cases h : e.faults.resolve (p.calls.resolve + 1) with
    | some message =>
      rw [rounds_of_fault h]
      exact off p
    | none =>
      cases fix with
      | false =>
        rw [rounds_false h]
        exact last p
      | true =>
        rw [rounds_succ h]
        split_ifs
        · exact stop p
        · exact step p _ (ih (e.repaired p))

/-- What one round keeps of the document, all rounds keep. -/
theorem rounds_invariant {I : Document → Prop}
    (hI : ∀ d, I d → ∀ new changes w', (∀ x ∈ new, x.1 ∈ e.rules ∧
      x.2 ∈ x.1.detect (.ofDocument d) d.root.walk) →
        Repairs (.ofDocument d) new changes w' → I w'.document)
    (fix : Bool) (n : Nat) (hp : I p.document) : I (e.rounds fix n p).1.document := by
  have hround : ∀ p, I p.document → I (e.repaired p).document := by
    intro p hp
    obtain ⟨changes, w', hr, hdoc, -⟩ := repaired_repairs e p
    exact hdoc ▸ hI p.document hp _ changes w' (found_detected e p).mem hr
  refine rounds_induction (motive := fun p p' => I p.document → I p'.document) (fun p hp => hp)
    (fun p hp => (found_detected e p).document ▸ hp) hround
    (fun p p' h hp => h (hround p hp)) fix n p hp

end Engine
end JsxLint
