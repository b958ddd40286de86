import JsxLint.Proofs.Analysis.Isolation
import JsxLint.Proofs.Analysis.Links
import JsxLint.Proofs.Rule.Once
import Mathlib.Algebra.GroupWithZero.Nat

/-!
# Keys tell findings apart

What a rule finds after repairs is about a node that it could have found when the tree was read, and
at the place of that node. So the key of a finding, its rule with a line and a column, tells the node
in all rounds of an analysis: what is left out as known was reported of that very node before.

* `Document.Repaired.exists_spotted`: the node of the tree that was read that a finding is about;
* `Document.Repaired.node_eq`: findings of a rule with one key are about one node;
* `Engine.detection`, `Engine.found_seen`: what rules return in a round, and what is kept of it;
* `Engine.keys_tell_findings`: nothing is lost to equal keys.
-/

namespace JsxLint

open Node

namespace Document

variable {d₀ d d' : Document} {rule : Rule} {f g : Finding}

/-! ### Findings after repairs -/

theorem Repaired.alters (h : d₀.Repaired d) (hd : d₀.Regular) : Alters True d₀.root d.root := by
  induction h with
  | start => exact .refl True d₀.root
  | round h hw ih => exact ih.trans (hw.step (h.regular hd)).2

/-- In all rounds a rule finds nothing new, but for void elements that lost their content. -/
theorem Repaired.repeats (h : d₀.Repaired d) (hd : d₀.Regular) (hrule : rule ∈ Rule.all)
    (hvoid : rule ≠ Rule.selfClosingTag) : rule.Repeats d₀ d := by
  induction h with
  | start => exact fun f hf => ⟨f, hf, rfl⟩
  | round h hw ih =>
    obtain ⟨new, changes, hnew, hr⟩ := hw
    obtain ⟨-, hrepeats⟩ := repeats_of_repairs (h.regular hd) (List.Subset.refl _) hnew
      (fun _ _ _ => trivial) hr
    intro f'' hf''
    obtain ⟨f', hf', he'⟩ := hrepeats rule hrule (fun he => absurd he hvoid) f'' hf''
    obtain ⟨f, hf, he⟩ := ih f' hf'
    exact ⟨f, hf, he.trans he'⟩

/-- What a rule finds after repairs is about a node of the tree that was read. -/
theorem Repaired.exists_spotted (hd : d₀.Regular) (hrule : rule ∈ Rule.all) : ∃ mark, ∀ d,
    d₀.Repaired d → ∀ f ∈ rule.detect (.ofDocument d) d.root.walk,
      ∃ m ∈ d₀.root.walk, rule.Spotted mark m f := by
  by_cases hvoid : rule = Rule.selfClosingTag
  · -- an element that lost its content was an element before
    subst hvoid
    refine ⟨.element, fun d h f hf => ?_⟩
    obtain ⟨m', hm', parts', hp', -, -, detail, rfl⟩ := Rule.mem_of_selfClosingTag hf
    obtain ⟨m, hm, parts, hp, hid, hplace, -⟩ := Rule.element_alters (h.alters hd) hm' hp'
    refine ⟨m, hm, Rule.mark?_of_element? hp, fun he => (by cases he), hid.symm, ?_⟩
    rw [hplace]
    rfl
  · obtain ⟨mark, honce⟩ := Rule.exists_once hrule
    refine ⟨mark, fun d h f' hf' => ?_⟩
    obtain ⟨f, hf, hspot⟩ := h.repeats hd hrule hvoid f' hf'
    obtain ⟨m, hm, hmarked, hnamed, hnode, hkey⟩ := (honce d₀ hd.formed).exists_spotted hf
    obtain ⟨hnode', hkey'⟩ := Prod.mk.inj hspot
    exact ⟨m, hm, hmarked, hnamed, hnode'.symm.trans hnode, hkey'.symm.trans hkey⟩

section Read

variable {grammar : Grammar} {path text : String}
  (hc : (grammar (.ofPath path) text).Readable text)
  (hplain : (grammar (.ofPath path) text).TagsPlain)
  (hnamed : (grammar (.ofPath path) text).TagsNamed)
  (hopens : ∀ c ∈ (grammar (.ofPath path) text).walk, c.Opens)
  (hread : Document.read grammar path text = .ok d₀)

include hc hplain hnamed hopens hread

/-- What a rule finds at one place, in whatever rounds, is about one node. -/
theorem Repaired.node_eq (h : d₀.Repaired d) (h' : d₀.Repaired d') (hrule : rule ∈ Rule.all)
    (hf : f ∈ rule.detect (.ofDocument d) d.root.walk)
    (hg : g ∈ rule.detect (.ofDocument d') d'.root.walk) (hkey : g.key = f.key) :
    g.node = f.node := by
  obtain ⟨mark, hspotted⟩ := Repaired.exists_spotted (.of_read hplain hnamed hread) hrule
  obtain ⟨m, hm, hmf⟩ := hspotted d h f hf
  obtain ⟨m', hm', hmg⟩ := hspotted d' h' g hg
  have hposition : m'.place.position = m.place.position := by
    rw [hmf.key, hmg.key, Prod.mk.injEq, Prod.mk.injEq, Int.natCast_inj, Int.natCast_inj] at hkey
    exact (Position.mk.injEq ..).mpr hkey.2
  have he : m' = m := Reading.eq_of_position hc hplain hopens hread hm' hm hmg.marked hmf.marked
    (fun hname => ⟨Reading.span_lt_of_text hc hread hm' (hmg.named hname),
      Reading.span_lt_of_text hc hread hm (hmf.named hname)⟩) hposition
  rw [hmf.node, hmg.node, he]

/-- In one detection no two findings have the same key, and no two are about the same node. -/
theorem Repaired.keys_nodup (h : d₀.Repaired d) (hrule : rule ∈ Rule.all) :
    ((rule.detect (.ofDocument d) d.root.walk).map (·.key)).Nodup ∧
      ((rule.detect (.ofDocument d) d.root.walk).map (·.node)).Nodup := by
  obtain ⟨mark, honce⟩ := Rule.exists_once hrule
  have hformed := (h.regular (.of_read hplain hnamed hread)).formed
  have hnodes := (honce d hformed).nodup hformed
  refine ⟨hnodes.of_map.map_on fun f hf g hg hkey => ?_, hnodes⟩
  exact List.inj_on_of_nodup_map hnodes hf hg
    (Repaired.node_eq hc hplain hnamed hopens hread h h hrule hg hf hkey)

end Read

end Document

namespace Engine

variable {e : Engine} {w : Workspace} {nodes : List Node} {p p' : Progress} {rule : Rule}
  {rules : List Rule} {f g : Finding} {seen findings : List Finding}

/-! ### What a round keeps -/

/-- Of findings with different keys those are not known that have no known key. -/
theorem unknown_eq_filter (h : (findings.map (·.key)).Nodup) :
    unknown seen findings = findings.filter fun f => !seen.any (·.key == f.key) := by
  induction findings generalizing seen with
  | nil => rfl
  | cons f findings ih =>
    rw [List.map_cons, List.nodup_cons] at h
    rw [unknown, List.filter_cons]
    by_cases hk : seen.any (·.key == f.key)
    · rw [if_pos hk, if_neg (by rw [hk]; exact Bool.false_ne_true)]
      exact ih h.2
    · rw [if_neg hk, if_pos (by simpa using hk), ih h.2]
      refine congrArg (f :: ·) (List.filter_congr fun g hg => ?_)
      have hne : f.key ≠ g.key := fun he => h.1 (he ▸ List.mem_map_of_mem hg)
      rw [List.any_append, List.any_cons, beq_false_of_ne hne, List.any_nil, Bool.or_false,
        Bool.or_false]

/-- What a rule returns when it is asked does not depend on what other rules did. -/
theorem detectOne_of_unasked (h : p.Unasked rule.id p') :
    (e.detectOne w nodes rule p').1 = (e.detectOne w nodes rule p).1 := by
  have hcalls : (countCall rule.id p'.calls.detect).1 = (countCall rule.id p.calls.detect).1 := by
    rw [countCall_eq, countCall_eq]
    exact congrArg (· + 1) h.detections
  rw [detectOne, detectOne, h.hasFailed]
  split_ifs
  · rfl
  · dsimp only
    rw [hcalls]
    cases e.faults.detect rule.id (countCall rule.id p.calls.detect).1 <;> rfl

theorem detectOne_sublist (e : Engine) (w : Workspace) (nodes : List Node) (rule : Rule)
    (p : Progress) : (e.detectOne w nodes rule p).1.Sublist (rule.detect w nodes) := by
  rw [detectOne]
  split_ifs
  · exact List.nil_sublist _
  · dsimp only
    cases e.faults.detect rule.id (countCall rule.id p.calls.detect).1 with
    | none => exact List.Sublist.refl _
    | some message => exact List.nil_sublist _

/-- Findings of other rules make a finding known to no state. -/
theorem knows_of_untouched (h : p.Untouched f.rule p') : p'.knows f = p.knows f := by
  have hiff : ∀ q : Progress, q.knows f ↔ ∃ g ∈ q.seen.filter (·.rule == f.rule), g.key = f.key := by
    intro q
    rw [knows_iff]
    refine exists_congr fun g => ⟨fun ⟨hg, hk⟩ => ⟨List.mem_filter.2 ⟨hg, ?_⟩, hk⟩,
      fun ⟨hg, hk⟩ => ⟨List.mem_of_mem_filter hg, hk⟩⟩
    exact beq_iff_eq.2 (congrArg Prod.fst hk)
  rw [Bool.eq_iff_iff, hiff, hiff, h.seen]

/-- One rule at work adds what it returns, but for what was known before the round. -/
theorem detectNext_filter (hs : rule.Signs) (hkeys : ((rule.detect w nodes).map (·.key)).Nodup)
    (h : p.Untouched rule.id p') (new : List (Rule × Finding)) :
    (e.detectNext w nodes (new, p') rule).2.seen =
      p'.seen ++ (e.detectOne w nodes rule p).1.filter fun f => !p.knows f := by
  obtain ⟨hone, hfound⟩ := detectOne_detected e w nodes rule p'
  have hseen : (e.detectOne w nodes rule p').2.seen = p'.seen :=
    hone.seen.trans (List.append_nil _)
  have hnodup := hkeys.sublist ((detectOne_sublist e w nodes rule p').map (·.key))
  rw [detectNext, foldl_note]
  dsimp only
  rw [hseen, unknown_eq_filter hnodup, ← detectOne_of_unasked h.toUnasked]
  refine congrArg (p'.seen ++ ·) (List.filter_congr fun f hf => ?_)
  have hknows : p'.knows f = p.knows f :=
    knows_of_untouched (hs.rule_eq (hfound f hf) ▸ h)
  rw [← hknows]
  rfl

/-- Rules at work one after the other add what they return, but for what was known before the
round. -/
theorem foldl_filter (hids : (rules.map (·.id)).Nodup) (hs : ∀ r ∈ rules, r.Signs)
    (hkeys : ∀ r ∈ rules, ((r.detect w nodes).map (·.key)).Nodup)
    (h : ∀ r ∈ rules, p.Untouched r.id p') (new : List (Rule × Finding)) :
    (rules.foldl (e.detectNext w nodes) (new, p')).2.seen =
      p'.seen ++ rules.flatMap fun r => (e.detectOne w nodes r p).1.filter fun f => !p.knows f := by
  induction rules generalizing new p' with
  | nil => exact (List.append_nil _).symm
  | cons r rules ih =>
    rw [List.map_cons, List.nodup_cons, List.mem_map] at hids
    have hr := hs r List.mem_cons_self
    have hone := detectNext_filter (e := e) hr (hkeys r List.mem_cons_self)
      (h r List.mem_cons_self) new
    have huntouched : ∀ t ∈ rules, p.Untouched t.id (e.detectNext w nodes (new, p') r).2 :=
      fun t ht => (h t (List.mem_cons_of_mem _ ht)).trans
        (detectNext_untouched hr (fun he => hids.1 ⟨t, ht, he.symm⟩) new p')
    have hrest := ih hids.2 (fun t ht => hs t (List.mem_cons_of_mem _ ht))
      (fun t ht => hkeys t (List.mem_cons_of_mem _ ht)) huntouched
      (e.detectNext w nodes (new, p') r).1
    rw [List.foldl_cons, List.flatMap_cons, ← List.append_assoc, ← hone]
    exact hrest

/-- What a rule returns in a round: nothing when it breaks down, or did so before. -/
def detection (e : Engine) (p : Progress) (rule : Rule) : List Finding :=
  (e.detectOne (.ofDocument p.document) p.document.root.walk rule (counted p)).1

theorem mem_of_detection (hf : f ∈ e.detection p rule) :
    f ∈ rule.detect (.ofDocument p.document) p.document.root.walk :=
  (detectOne_sublist _ _ _ _ _).subset hf

/-- A round adds all that the rules return, but for what was known before it. -/
theorem found_seen (hids : (e.rules.map (·.id)).Nodup) (hs : ∀ r ∈ e.rules, r.Signs)
    (hkeys : ∀ r ∈ e.rules,
      ((r.detect (.ofDocument p.document) p.document.root.walk).map (·.key)).Nodup) :
    (e.found p).2.seen =
      p.seen ++ e.rules.flatMap fun r => (e.detection p r).filter fun f => !p.knows f := by
  rw [found_eq]
  exact foldl_filter (p := counted p) hids hs hkeys (fun r _ => .refl r.id (counted p)) []

/-! ### Where findings come from -/

/-- Whether the document of a state was repaired from a document, and all its findings were returned
by rules for repaired documents. -/
structure Traced (e : Engine) (d₀ : Document) (p : Progress) : Prop where
  repaired : d₀.Repaired p.document
  seen : ∀ g ∈ p.seen, ∃ rule ∈ e.rules, ∃ d, d₀.Repaired d ∧
    g ∈ rule.detect (.ofDocument d) d.root.walk

variable {d d₀ : Document}

theorem Traced.found (h : e.Traced d₀ p) : e.Traced d₀ (e.found p).2 := by
  have hd := found_detected e p
  refine ⟨hd.document ▸ h.repaired, fun g hg => ?_⟩
  rw [hd.seen] at hg
  rcases List.mem_append.1 hg with hg | hg
  · exact h.seen g hg
  · obtain ⟨x, hx, rfl⟩ := List.mem_map.1 hg
    exact ⟨x.1, (hd.mem x hx).1, p.document, h.repaired, (hd.mem x hx).2⟩

theorem Traced.round (hrules : e.rules ⊆ Rule.all) (h : e.Traced d₀ p) :
    e.Traced d₀ (e.repaired p) := by
  obtain ⟨changes, w, hr, hdocument, -⟩ := repaired_repairs e p
  refine ⟨?_, fun g hg => h.found.seen g (repaired_seen e p ▸ hg)⟩
  rw [hdocument]
  exact h.repaired.round ⟨_, changes, fun x hx => ⟨hrules ((found_detected e p).mem x hx).1,
    ((found_detected e p).mem x hx).2⟩, hr⟩

theorem Traced.rounds (hrules : e.rules ⊆ Rule.all) (h : e.Traced d₀ p) (k : Nat) :
    e.Traced d₀ (e.repaired^[k] p) := by
  induction k with
  | zero => exact h
  | succ k ih =>
    rw [Function.iterate_succ_apply']
    exact ih.round hrules

/-- What a run has found is what it knew before, or what it knows after one of its detections. -/
theorem rounds_seen (e : Engine) (fix : Bool) (n : Nat) (p : Progress) :
    (e.rounds fix n p).1.seen = p.seen ∨
      ∃ k, (e.rounds fix n p).1.seen = (e.found (e.repaired^[k] p)).2.seen := by
  refine rounds_induction (motive := fun p p' => p'.seen = p.seen ∨
    ∃ k, p'.seen = (e.found (e.repaired^[k] p)).2.seen) (fun p => .inl rfl)
    (fun p => .inr ⟨0, rfl⟩) (fun p => .inr ⟨0, repaired_seen e p⟩) (fun p p' h => ?_) fix n p
  rcases h with h | ⟨k, h⟩
  · exact .inr ⟨0, h.trans (repaired_seen e p)⟩
  · exact .inr ⟨k + 1, h⟩

end Engine

/-! ### Nothing is lost -/

/-- Whether keys tell the findings of a rule apart: those of one detection have different keys and
are about different nodes, and those of all rounds that have one key are about one node. -/
structure Document.TellsApart (d₀ : Document) (rule : Rule) : Prop where
  keys : ∀ d, d₀.Repaired d → ((rule.detect (.ofDocument d) d.root.walk).map (·.key)).Nodup
  nodes : ∀ d, d₀.Repaired d → ((rule.detect (.ofDocument d) d.root.walk).map (·.node)).Nodup
  rounds : ∀ d d', d₀.Repaired d → d₀.Repaired d' →
    ∀ f ∈ rule.detect (.ofDocument d) d.root.walk, ∀ g ∈ rule.detect (.ofDocument d') d'.root.walk,
      g.key = f.key → g.node = f.node

namespace Engine

variable {e : Engine} {d : Document} {path text : String}

/-- Whether a round keeps all that the rules return: what was not known before it is added, each
finding once, and a finding with the key of another one is about the same node. -/
structure KeepsAll (e : Engine) (p : Progress) : Prop where
  seen : (e.found p).2.seen =
    p.seen ++ e.rules.flatMap fun rule => (e.detection p rule).filter fun f => !p.knows f
  known : ∀ rule ∈ e.rules, ∀ f ∈ e.detection p rule, ∀ g ∈ (e.found p).2.seen,
    g.key = f.key → g.rule = rule.id ∧ g.node = f.node

theorem Traced.keepsAll {p : Progress} (h : e.Traced d p) (hrules : e.rules ⊆ Rule.all)
    (hids : (e.rules.map (·.id)).Nodup) (hapart : ∀ rule ∈ Rule.all, d.TellsApart rule) :
    e.KeepsAll p := by
  have hsigns : ∀ r ∈ e.rules, r.Signs := fun r hr => Rule.signs_of_mem_all r (hrules hr)
  refine ⟨found_seen hids hsigns fun r hr => (hapart r (hrules hr)).keys _ h.repaired,
    fun rule hrule f hf g hg hkey => ?_⟩
  obtain ⟨other, hother, d', hd', hg'⟩ := h.found.seen g hg
  have hf := mem_of_detection hf
  -- a key tells the rule
  have hgf : g.rule = f.rule := congrArg Prod.fst hkey
  rw [(hsigns rule hrule).rule_eq hf] at hgf
  obtain rfl := Rule.id_inj (hrules hother) (hrules hrule)
    (((hsigns other hother).rule_eq hg').symm.trans hgf)
  exact ⟨hgf, (hapart other (hrules hother)).rounds _ d' h.repaired hd' f hf g hg' hkey⟩

/-- The key of a finding tells its node: no rule returns two findings with one key in one detection,
or reports a node twice, and what is known in later rounds was reported of the same node before. So
no finding is lost to another one, and without repairs there are as many as the rules return. -/
theorem keys_tell_findings (hc : (e.grammar (.ofPath path) text).Readable text)
    (hplain : (e.grammar (.ofPath path) text).TagsPlain)
    (hnamed : (e.grammar (.ofPath path) text).TagsNamed)
    (hopens : ∀ c ∈ (e.grammar (.ofPath path) text).walk, c.Opens)
    (hread : Document.read e.grammar path text = .ok d) (hrules : e.rules ⊆ Rule.all)
    (hids : (e.rules.map (·.id)).Nodup) :
    (∀ rule ∈ Rule.all, d.TellsApart rule) ∧
    (∀ calls k, d.Repaired (e.repaired^[k] (.start d calls)).document ∧
      e.KeepsAll (e.repaired^[k] (.start d calls))) ∧
    (∀ calls fix n, (e.rounds fix n (.start d calls)).1.seen = [] ∨
      ∃ k, (e.rounds fix n (.start d calls)).1.seen =
        (e.found (e.repaired^[k] (.start d calls))).2.seen) ∧
    ∀ calls fix, fix.getD e.fix = false →
      (e.analyse path text fix calls).1.findings.length =
        if (e.faults.resolve (calls.resolve + 1)).isSome then 0
        else (e.rules.map fun rule => (e.detection (.start d calls) rule).length).sum := by
  have hapart : ∀ rule ∈ Rule.all, d.TellsApart rule := fun rule hrule =>
    ⟨fun _ h => (Document.Repaired.keys_nodup hc hplain hnamed hopens hread h hrule).1,
      fun _ h => (Document.Repaired.keys_nodup hc hplain hnamed hopens hread h hrule).2,
      fun _ _ h h' _ hf _ hg => Document.Repaired.node_eq hc hplain hnamed hopens hread h h' hrule
        hf hg⟩
  have hstart : ∀ calls, e.Traced d (.start d calls) := fun calls =>
    ⟨.start, fun g hg => (by cases hg)⟩
  refine ⟨hapart, fun calls k => ?_, fun calls fix n => rounds_seen e fix n _,
    fun calls fix hfix => ?_⟩
  · have htraced := (hstart calls).rounds hrules k
    exact ⟨htraced.repaired, htraced.keepsAll hrules hids hapart⟩
  · cases hr : e.faults.resolve (calls.resolve + 1) with
    | some message =>
      rw [findings_of_unresolved (by rw [hr]; rfl)]
      rfl
    | none =>
      have hall : ∀ rule, (e.detection (.start d calls) rule).filter
          (fun f => !(Progress.start d calls).knows f) = e.detection (.start d calls) rule :=
        fun rule => List.filter_eq_self.2 fun f _ => rfl
      have hseen := ((hstart calls).keepsAll hrules hids hapart).seen
      simp only [hall] at hseen
      rw [(findings_of_check hread hfix hr).length_eq, hseen]
      exact List.length_flatMap

/-- A key that could not be put in is missed in the second round too, when that is known. -/
theorem taken_keys : ∃ d p, Document.read taken.grammar "A.jsx" takenText = .ok d ∧
    p = taken.repaired (.start d .none) ∧ d.Repaired p.document ∧
    p.seen.map (·.key) = [("missing-key", 2, 15), ("component-naming", 1, 6)] ∧
    (taken.detection p Rule.missingKey).map (·.key) = [("missing-key", 2, 15)] ∧
    (taken.found p).1 = [] ∧ taken.KeepsAll p ∧ (∀ rule ∈ Rule.all, d.TellsApart rule) ∧
    (taken.analyse "A.jsx" takenText (some false) .none).1.findings.length = 2 := by
  have hrounds : (Document.read taken.grammar "A.jsx" takenText).map (fun d =>
      let p := taken.repaired (.start d .none)
      (p.seen.map (·.key), (taken.detection p Rule.missingKey).map (·.key))) =
        .ok ([("missing-key", 2, 15), ("component-naming", 1, 6)], [("missing-key", 2, 15)]) := by
    decide +kernel
  have hcounts : (Document.read taken.grammar "A.jsx" takenText).map (fun d =>
      ((taken.found (taken.repaired (.start d .none))).1.length,
        (taken.rules.map fun rule => (taken.detection (.start d .none) rule).length).sum)) =
        .ok (0, 2) := by decide +kernel
  obtain ⟨d, hd, hrounds⟩ := Reading.map_eq_ok.1 hrounds
  obtain ⟨_, hd', hcounts⟩ := Reading.map_eq_ok.1 hcounts
  obtain rfl := Except.ok.inj (hd.symm.trans hd')
  obtain ⟨hseen, hkey⟩ := Prod.mk.inj hrounds
  obtain ⟨hfound, hsum⟩ := Prod.mk.inj hcounts
  obtain ⟨hapart, hkeeps, -, hcheck⟩ := keys_tell_findings (e := taken) (by decide +kernel)
    (by decide +kernel) (by decide +kernel) (by decide +kernel) hd (List.Subset.refl _) (by decide)
  obtain ⟨hrepaired, hkept⟩ := hkeeps .none 1
  rw [Function.iterate_one] at hrepaired hkept
  have hall := hcheck .none (some false) rfl
  rw [hsum] at hall
  exact ⟨d, _, hd, rfl, hrepaired, hseen, hkey, List.length_eq_zero_iff.1 hfound, hkept, hapart,
    hall⟩

end Engine
end JsxLint
