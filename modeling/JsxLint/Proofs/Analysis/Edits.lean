import JsxLint.Proofs.Analysis.KeyReference
import JsxLint.Proofs.Analysis.SecondRun
import JsxLint.Proofs.Rule.Effects

/-!
# Runs of repairs

A run is a sequence of repairs, each of which has the effect of its rule and nothing else. What
every repair keeps of the tree and the changes so far, all rounds keep. In particular a repair is
complete or leaves no trace: a finding that is refused leaves the tree and the table as they were.

* `Rule.Edit`: one repair of a round;
* `Engine.rounds_edits`: what every repair keeps, a run keeps;
* `Engine.repairOne_effect`: what becomes of a workspace when a finding comes to its repair.
-/

namespace JsxLint

open Node

variable {d : Document} {w w' : Workspace} {rules : List Rule} {rule : Rule} {repair : Repair}
  {f : Finding} {changes : List Change} {new : List (Rule × Finding)}

/-- A repair of a finding that a rule made in a document, after other repairs in that document. -/
structure Rule.Edit (rule : Rule) (f : Finding) (d : Document) (w w' : Workspace) : Prop where
  regular : d.Regular
  mem : rule ∈ Rule.all
  found : f ∈ rule.detect (.ofDocument d) d.root.walk
  before : Workspace.Step d.fresh (.ofDocument d) w
  reached : Alters True d.root w.document.root
  step : Workspace.Step d.fresh w w'
  alters : Alters True w.document.root w'.document.root
  effect : rule.Effect w w' f.node

namespace Rule.Edit

theorem of_repair {change : Change} (hd : d.Regular) (hrule : rule ∈ Rule.all)
    (hf : f ∈ rule.detect (.ofDocument d) d.root.walk)
    (h : Workspace.Step d.fresh (.ofDocument d) w) (ha : Alters True d.root w.document.root)
    (hr : rule.repair? = some repair) (hok : repair w f = .ok (change, w')) :
    rule.Edit f d w w' where
  regular := hd
  mem := hrule
  found := hf
  before := h
  reached := ha
  step := repair_step hd.formed hrule hr hf h hok
  alters := repair_alters hd.formed (hd.capital.alters ha) hrule hr (fun _ => trivial) hf h hok
  effect := repair_effect hd.formed (hd.named.alters ha) hrule hr hf h hok

end Rule.Edit

namespace Engine

variable {e : Engine} {p : Progress}

/-- What every repair keeps of the workspace and the changes so far, the repairs of a round keep. -/
theorem Repairs.edits {J : Workspace → List Change → Prop} {cs : List Change} (hd : d.Regular)
    (hrules : rules ⊆ Rule.all)
    (hnew : ∀ x ∈ new, x.1 ∈ rules ∧ x.2 ∈ x.1.detect (.ofDocument d) d.root.walk)
    (hJ : ∀ v v' cs c, ∀ rule ∈ rules, ∀ f, rule.Edit f d v v' → c.rule = rule.id →
      c.finding = f → J v cs → J v' (cs ++ [c]))
    (h : Repairs (.ofDocument d) new changes w') (h0 : J (.ofDocument d) cs) :
    J w' (cs ++ changes) := by
  suffices ∀ v, Repairs v new changes w' → Workspace.Step d.fresh (.ofDocument d) v →
      Alters True d.root v.document.root → ∀ cs, J v cs → J w' (cs ++ changes) from
    this _ h (.refl (Workspace.sound_ofDocument hd.formed)) (.refl True d.root) cs h0
  clear h h0 cs
  intro v h hv ha
  induction h with
  | nil w =>
    intro cs hcs
    rwa [List.append_nil]
  | skip x h ih => exact ih (fun y hy => hnew y (List.mem_cons_of_mem _ hy)) hv ha
  | @repair v v' _ _ _ rule f repair c hr hok h ih =>
    obtain ⟨hrule, hf⟩ := hnew _ List.mem_cons_self
    have hedit := Rule.Edit.of_repair hd (hrules hrule) hf hv ha hr hok
    have hsigned := (Rule.signs_of_mem_all rule (hrules hrule)).change_eq hr hok
    intro cs hcs
    have hrest := ih (fun y hy => hnew y (List.mem_cons_of_mem _ hy)) (hv.trans hedit.step)
      (ha.trans hedit.alters) (cs ++ [c]) (hJ v v' cs c rule hrule f hedit hsigned.1 hsigned.2 hcs)
    rwa [List.append_assoc] at hrest

/-- What every repair keeps of the document and the changes so far, a run keeps. -/
theorem rounds_edits {J : Document → List Change → Prop} (hrules : e.rules ⊆ Rule.all)
    (hJ : ∀ d v v' cs c, ∀ rule ∈ e.rules, ∀ f, rule.Edit f d v v' → c.rule = rule.id →
      c.finding = f → J v.document cs → J v'.document (cs ++ [c]))
    (fix : Bool) (n : Nat) (hd : p.document.Regular) (hp : J p.document p.changes) :
    (e.rounds fix n p).1.document.Regular ∧
      J (e.rounds fix n p).1.document (e.rounds fix n p).1.changes := by
  have hround : ∀ p : Progress, p.document.Regular ∧ J p.document p.changes →
      (e.repaired p).document.Regular ∧ J (e.repaired p).document (e.repaired p).changes := by
    rintro p ⟨hd, hp⟩
    obtain ⟨changes, w', hr, hdocument, hchanges, -⟩ := repaired_repairs e p
    have hnew := (found_detected e p).mem
    rw [hdocument, hchanges]
    exact ⟨(Document.repeats_of_repairs hd hrules hnew (fun _ _ _ => trivial) hr).1,
      hr.edits (J := fun v cs => J v.document cs) hd hrules hnew (hJ p.document) hp⟩
  refine rounds_induction (motive := fun p p' => p.document.Regular ∧ J p.document p.changes →
    p'.document.Regular ∧ J p'.document p'.changes) (fun p hp => hp) (fun p hp => ?_) hround
    (fun p p' h hp => h (hround p hp)) fix n p ⟨hd, hp⟩
  rw [(found_detected e p).document, (found_detected e p).changes]
  exact hp

end Engine
end JsxLint
