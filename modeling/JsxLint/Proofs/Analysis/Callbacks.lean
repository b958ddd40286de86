import JsxLint.Proofs.Analysis.Edits
import JsxLint.Proofs.Scope.Ownership

/-!
# The callback of a list

The rule about keys looks down from a callback to what it gives back; its repair looks up from an
element to the nearest function. They agree, in the tree that was searched and as long as a round
goes on, so the repair always finds the callback, and parameters are added to the right function.

* `Workspace.Sound.exists_scope`: functions open scopes;
* `Rule.ListKey.repair_ne_noCallback`: the callback of an element of a list is found;
* `Engine.rounds_refused`: what holds of the refusals of a run;
* `Engine.rounds_noCallback`, `analyse_noCallback`: no key is refused for the lack of a callback;
* `Rule.ListKey.callback_found`: both ways of looking agree.
-/

namespace JsxLint

open Node

/-- In a sound workspace every function of the tree opens a scope. -/
theorem Workspace.Sound.exists_scope {w : Workspace} {start : NodeId} {f : Node} (h : w.Sound start)
    (hf : f ∈ w.document.root.walk) (hl : f.label.isFunction) :
    ∃ s, w.scopes.scopeOpenedBy? f.id = some s := by
  obtain ⟨above, hp⟩ := exists_path hf
  have hregion : (⟨f.id, .function⟩ : Region) ∈ w.scopes.regions := by
    rw [h.regions]
    refine List.mem_append_right _ (List.mem_filterMap.2 ⟨_, mem_spots_of_path _ hp, ?_⟩)
    exact region?_of_isFunction hl
  obtain ⟨s, hs⟩ := List.getElem?_of_mem hregion
  exact ⟨s, h.lists.scopeOpenedBy?_eq (ScopeTable.nodeOf?_of_region hs)⟩

/-! ### Why a key is refused -/

namespace Rule.ListKey

variable {d : Document} {w w' : Workspace} {start : NodeId} {s : ScopeId}
  {callback identifier parameters : Node} {name : String} {reason : Reason} {finding : Finding}
  {change : Change}

theorem introductionConflict?_ne (h : introductionConflict? w callback s name = some reason) :
    reason ≠ .noCallback := by
  rintro rfl
  rw [introductionConflict?] at h
  split_ifs at h
  · cases h
  · obtain ⟨identifier, -, h⟩ := List.exists_of_findSome?_eq_some h
    rw [shadowing?] at h
    split at h
    · cases h
    · dsimp only at h
      split_ifs at h
      · cases h

theorem withIndex_ne (h : withIndex w callback parameters s = .error reason) :
    reason ≠ .noCallback := by
  rintro rfl
  rw [withIndex] at h
  split at h
  · split at h <;> cases h
  · split at h
    · next hconflict =>
      cases h
      obtain ⟨name, -, hconflict⟩ := List.exists_of_findSome?_eq_some hconflict
      exact introductionConflict?_ne hconflict rfl
    · cases h

/-- The repair of a key finds the callback of an element of a list. -/
theorem repair_ne_noCallback (h : w.Sound start) (i : Item w.document.root)
    (hi : i.element.id = finding.node) : repair w finding ≠ .error .noCallback := by
  obtain ⟨parts, hparts⟩ := Option.isSome_iff_exists.1 i.isElement
  obtain ⟨functionParts, hfunction⟩ := exists_function?_of_returned i.mem_returned
  obtain ⟨s, hs⟩ := h.exists_scope i.callback_mem (isFunction_of_function? hfunction)
  have hnode := h.formed.node?_eq i.element_mem
  rw [hi] at hnode
  intro hr
  simp only [repair, hnode, hparts, i.enclosing h.formed, hs, hfunction, bind, Except.bind, throw,
    throwThe, MonadExceptOf.throw, pure, Except.pure] at hr
  split at hr
  · cases hr
  · split at hr
    · next reason hindex =>
      cases hr
      exact withIndex_ne hindex rfl
    · cases hr

end Rule.ListKey

/-- Other rules do not look for callbacks. -/
theorem Rule.reason_ne_noCallback {rule : Rule} {repair : Repair} {w : Workspace} {f : Finding}
    {reason : Reason} (hrule : rule ∈ all) (hr : rule.repair? = some repair)
    (hkey : rule ≠ missingKey) (he : repair w f = .error reason) : reason ≠ .noCallback := by
  rintro rfl
  cases repairing_of_repair? hrule hr with
  | emptyExpression =>
    rw [EmptyExpression.repair] at he
    dsimp only at he
    split at he
    · cases he
    · split at he <;> cases he
  | reservedProp | camelCaseAttribute =>
    rw [AttributeSpelling.repair] at he
    split at he
    · cases he
    · split at he
      · cases he
      · split at he
        · cases he
        · split at he <;> cases he
  | selfClosingTag =>
    rw [VoidElement.repair] at he
    split at he
    · cases he
    · split at he
      · cases he
      · split_ifs at he
        all_goals cases he
  | missingKey => exact hkey rfl
  | componentNaming =>
    simp only [ComponentName.repair, bind, Except.bind, throw, throwThe, MonadExceptOf.throw, pure,
      Except.pure] at he
    split at he
    · split at he
      · split at he
        · cases he
        · split at he
          · cases he
          · split at he <;> cases he
      · cases he
    · cases he

/-! ### Refusals of a run -/

theorem Engine.Repairs.concat {w w' w'' : Workspace} {new : List (Rule × Finding)}
    {changes : List Change} {rule : Rule} {f : Finding} {repair : Repair} {change : Change}
    (h : Repairs w new changes w') (hr : rule.repair? = some repair)
    (hok : repair w' f = .ok (change, w'')) :
    Repairs w (new ++ [(rule, f)]) (changes ++ [change]) w'' := by
  induction h with
  | nil w => exact .repair hr hok (.nil _)
  | skip x _ ih => exact .skip x (ih hok)
  | repair hr' hok' _ ih => exact .repair hr' hok' (ih hok)

theorem Document.InRound.repair {d : Document} {w w' : Workspace} {rule : Rule} {f : Finding}
    {repair : Repair} {change : Change} (hw : d.InRound w) (hrule : rule ∈ Rule.all)
    (hf : f ∈ rule.detect (.ofDocument d) d.root.walk) (hr : rule.repair? = some repair)
    (hok : repair w f = .ok (change, w')) : d.InRound w' := by
  obtain ⟨new, changes, hnew, hrepairs⟩ := hw
  refine ⟨new ++ [(rule, f)], changes ++ [change], fun x hx => ?_, hrepairs.concat hr hok⟩
  rcases List.mem_append.1 hx with hx | hx
  · exact hnew x hx
  · cases List.mem_singleton.1 hx
    exact ⟨hrule, hf⟩

namespace Engine

variable {e : Engine} {d : Document} {w : Workspace} {p : Progress} {rule : Rule} {f : Finding}
  {new : List (Rule × Finding)}

section Refusals

variable {P : Refusal → Prop} (hrules : e.rules ⊆ Rule.all)
  (hfault : ∀ rule ∈ e.rules, ∀ f message, P ⟨rule.id, f, .brokeDown message⟩)
  (hrefuse : ∀ d w, d.Regular → d.InRound w → ∀ rule ∈ e.rules,
    ∀ f ∈ rule.detect (.ofDocument d) d.root.walk, ∀ repair reason, rule.repair? = some repair →
      repair w f = .error reason → P ⟨rule.id, f, reason⟩)

include hrules hfault hrefuse

/-- One finding that comes to its repair. -/
theorem repairOne_refused (hd : d.Regular) (hw : d.InRound w) (hrule : rule ∈ e.rules)
    (hf : f ∈ rule.detect (.ofDocument d) d.root.walk) (hp : ∀ r ∈ p.refusals, P r) :
    d.InRound (e.repairOne w p rule f).1 ∧ ∀ r ∈ (e.repairOne w p rule f).2.refusals, P r := by
  have hmore : ∀ {reason}, P ⟨rule.id, f, reason⟩ →
      ∀ r ∈ p.refusals ++ [⟨rule.id, f, reason⟩], P r := by
    intro reason hreason r hr
    rcases List.mem_append.1 hr with hr | hr
    · exact hp r hr
    · exact List.mem_singleton.1 hr ▸ hreason
  rw [repairOne]
  cases hr : rule.repair? with
  | none => exact ⟨hw, hp⟩
  | some repair =>
    dsimp only
    cases e.faults.repair rule.id (countCall rule.id p.calls.repair).1 with
    | some message => exact ⟨hw, hmore (hfault rule hrule f _)⟩
    | none =>
      dsimp only
      cases hok : repair w f with
      | error reason => exact ⟨hw, hmore (hrefuse d w hd hw rule hrule f hf repair reason hr hok)⟩
      | ok result => exact ⟨hw.repair (hrules hrule) hf hr hok, hp⟩

theorem repairAll_refused (hd : d.Regular) (hw : d.InRound w)
    (hnew : ∀ x ∈ new, x.1 ∈ e.rules ∧ x.2 ∈ x.1.detect (.ofDocument d) d.root.walk)
    (hp : ∀ r ∈ p.refusals, P r) : ∀ r ∈ (e.repairAll w p new).refusals, P r := by
  induction new generalizing w p with
  | nil => exact hp
  | cons x new ih =>
    obtain ⟨hx, hnew⟩ := List.forall_mem_cons.1 hnew
    obtain ⟨hw', hp'⟩ := repairOne_refused hrules hfault hrefuse hd hw hx.1 hx.2 hp
    exact ih hw' hnew hp'

/-- What holds of breakdowns and of what repairs refuse holds of all refusals of a run. -/
theorem rounds_refused (fix : Bool) (n : Nat) (hd : p.document.Regular)
    (hp : ∀ r ∈ p.refusals, P r) : ∀ r ∈ (e.rounds fix n p).1.refusals, P r := by
  have hround : ∀ p : Progress, p.document.Regular → (∀ r ∈ p.refusals, P r) →
      (e.repaired p).document.Regular ∧ ∀ r ∈ (e.repaired p).refusals, P r := by
    intro p hd hp
    obtain ⟨changes, w', hr, hdocument, -⟩ := repaired_repairs e p
    have hfound := found_detected e p
    refine ⟨?_, ?_⟩
    · rw [hdocument]
      exact (Document.repeats_of_repairs hd hrules hfound.mem (fun _ _ _ => trivial) hr).1
    · refine repairAll_refused hrules hfault hrefuse hd (.start p.document) hfound.mem ?_
      rw [hfound.refusals]
      exact hp
  refine rounds_induction (motive := fun p p' => p.document.Regular → (∀ r ∈ p.refusals, P r) →
    ∀ r ∈ p'.refusals, P r) (fun p _ hp => hp) (fun p _ hp => ?_)
    (fun p hd hp => (hround p hd hp).2)
    (fun p p' hrest hd hp => hrest (hround p hd hp).1 (hround p hd hp).2) fix n p hd hp
  rw [(found_detected e p).refusals]
  exact hp

end Refusals

/-- No run refuses a key for the lack of a callback. -/
theorem rounds_noCallback (hrules : e.rules ⊆ Rule.all) (fix : Bool) (n : Nat) (calls : Calls)
    (hd : d.Regular) :
    ∀ r ∈ (e.rounds fix n (.start d calls)).1.refusals, r.reason ≠ .noCallback := by
  refine rounds_refused (P := fun r => r.reason ≠ .noCallback) hrules (fun rule _ f message => ?_)
    (fun d w hd hw rule hrule f hf repair reason hr he => ?_) fix n hd fun r hr => (by cases hr)
  · exact fun h => (by cases h)
  · by_cases hkey : rule = Rule.missingKey
    · subst hkey
      cases hr
      obtain ⟨-, j, -, hj, -⟩ := Rule.ListKey.exists_item_of_inRound hd hw hf
      rintro rfl
      exact Rule.ListKey.repair_ne_noCallback (hw.step hd).1.sound j hj he
    · exact Rule.reason_ne_noCallback (hrules hrule) hr hkey he

/-- What is refused in an outcome was refused in its rounds, or was a change that did not print. -/
theorem conclude_refusals (e : Engine) (path : String) (p : Progress) :
    ∀ r ∈ (e.conclude path p).refusals,
      r ∈ p.refusals ∨ ∃ message, r.reason = .notPrinted message := by
  have habandon : ∀ message, ∀ r ∈ ((finished path p).abandon (.notPrinted message)).refusals,
      r ∈ p.refusals ∨ ∃ message, r.reason = .notPrinted message := by
    intro message r hr
    rcases List.mem_append.1 hr with hr | hr
    · exact .inl hr
    · obtain ⟨change, -, rfl⟩ := List.mem_map.1 hr
      exact .inr ⟨message, rfl⟩
  intro r hr
  rw [conclude] at hr
  split_ifs at hr
  · exact .inl hr
  · split at hr
    · exact habandon _ r hr
    · exact .inl hr
    · cases hr
    · exact habandon _ r hr

/-- No outcome has a refusal for the lack of a callback. -/
theorem analyse_noCallback {path text : String} (hplain : (e.grammar (.ofPath path) text).TagsPlain)
    (hnamed : (e.grammar (.ofPath path) text).TagsNamed) (hrules : e.rules ⊆ Rule.all)
    (fix : Option Bool) (calls : Calls) :
    ∀ r ∈ (e.analyse path text fix calls).1.refusals, r.reason ≠ .noCallback := by
  intro r hr
  rw [analyse] at hr
  split at hr
  · cases hr
  · cases hr
  · next d hread =>
    have hrounds := rounds_noCallback hrules (fix.getD e.fix) e.maxPasses calls
      (.of_read hplain hnamed hread)
    split at hr
    · cases hr
    · next p hp =>
      rw [hp] at hrounds
      rcases conclude_refusals e path p r hr with hr | ⟨message, hr⟩
      · exact hrounds r hr
      · rw [hr]
        exact fun h => (by cases h)

end Engine

/-! ### Both ways of looking -/

namespace Rule.ListKey

/-- In a tree that knows its parents, the search from a function down to its own returns and the
search from a return statement up to the nearest function agree: own returns are the return
statements in the block of the function around which it is the nearest one, each once and in the
order of the source. So the function around an element that is found to lack a key is the callback
that gives it back. In a round this stays so, and the repair finds that callback, adds the
parameters that are lacking to it, and is never refused for the lack of one. -/
theorem callback_found {d : Document} (hrooted : d.root.Rooted d.fresh) :
    (∀ f ∈ d.root.walk, ∀ parts, f.function? = some parts → parts.body.label = .block →
      collectReturns parts.body.children = f.ownReturns ∧
      f.ownReturns.Sublist parts.body.walk ∧ f.ownReturns.Nodup ∧
      ∀ r, r ∈ f.ownReturns ↔ r ∈ parts.body.walk ∧ r.label = .returnStatement ∧
        d.enclosingFunction? r = some f) ∧
    (∀ finding ∈ missingKey.detect (.ofDocument d) d.root.walk, ∃ i : Item d.root,
      d.node? finding.node = some i.element ∧ d.enclosingFunction? i.element = some i.callback) ∧
    (d.Regular → ∀ w, d.InRound w → ∀ finding ∈ missingKey.detect (.ofDocument d) d.root.walk,
      ∃ (i : Item d.root) (j : Item w.document.root), i.element.id = finding.node ∧
        w.document.node? finding.node = some j.element ∧ j.callback.id = i.callback.id ∧
        w.document.enclosingFunction? j.element = some j.callback ∧
        repair w finding ≠ .error .noCallback ∧
        ∀ change w', repair w finding = .ok (change, w') →
          ∃ (k : Keyed w'.document.root) (parts : FunctionParts), k.element.id = finding.node ∧
            k.callback.id = i.callback.id ∧ j.callback.function? = some parts ∧
            Extends (lacking parts.parameters.children) parts.parameters k.parts.parameters) ∧
    (d.Regular → ∀ e : Engine, e.rules ⊆ Rule.all → ∀ fix n calls,
      ∀ r ∈ (e.rounds fix n (.start d calls)).1.refusals, r.reason ≠ .noCallback) := by
  refine ⟨fun f hf parts hparts hb => ?_, fun finding hf => ?_, fun hd w hw finding hf => ?_,
    fun hd e hrules fix n calls => e.rounds_noCallback hrules fix n calls hd⟩
  · have hown : f.ownReturns.Sublist parts.body.walk := by
      rw [ownReturns_eq hparts hb]
      exact parts.body.returnsWithin_sublist
    have hbody := nodup_of_child (nodup_of_mem hrooted.nodup hf) (body_mem_children hparts)
    exact ⟨collectReturns_eq_ownReturns hparts hb, hown, (walk_nodup hbody).sublist hown,
      fun r => hrooted.mem_ownReturns_iff hf hparts hb⟩
  · obtain ⟨i, -, rfl⟩ := mem_detect_iff.1 hf
    exact ⟨i, hrooted.node?_eq i.element_mem,
      hrooted.enclosingFunction?_eq i.callback_mem i.mem_returned⟩
  · obtain ⟨hstep, ha⟩ := hw.step hd
    have hformed := hstep.sound.formed
    obtain ⟨i, j, hi, hj, hcallback⟩ := exists_item_of_inRound hd hw hf
    refine ⟨i, j, hi, hj ▸ hformed.node?_eq j.element_mem, hcallback, j.enclosing hformed,
      repair_ne_noCallback hstep.sound j hj, fun change w' hr => ?_⟩
    obtain ⟨k, hk, hkcallback, ⟨parts, hparts, hextends⟩, -⟩ :=
      exists_keyed hstep.sound (hd.named.alters ha) j hj hr
    exact ⟨k, parts, hk, hkcallback.trans hcallback, hparts, hextends⟩

/-- A callback whose only return statement stands in the block of a loop in its body. -/
theorem callback_found_loop : ∃ d finding, Document.read (fun _ _ => Concrete.indexLoop) "A.jsx"
      "xs.map(x => \x7b for (const index of x) \x7b return <b />; \x7d \x7d);\n" = .ok d ∧
    d.root.Rooted d.fresh ∧ d.Regular ∧ finding ∈ missingKey.detect (.ofDocument d) d.root.walk ∧
    (∃ f r, f ∈ d.root.walk ∧ f.ownReturns = [r] ∧ d.enclosingFunction? r = some f ∧
      ∃ i : Item d.root, d.node? finding.node = some i.element ∧ i.callback = f ∧
        d.enclosingFunction? i.element = some f) ∧
    repair (.ofDocument d) finding ≠ .error .noCallback ∧
    ∀ r ∈ ((⟨all, fun _ _ => Concrete.indexLoop, .none, true, 3⟩ : Engine).rounds true 3
      (.start d .none)).1.refusals, r.reason ≠ .noCallback := by
  have hfacts : (Document.read (fun _ _ => Concrete.indexLoop) "A.jsx"
      "xs.map(x => \x7b for (const index of x) \x7b return <b />; \x7d \x7d);\n").map (fun d =>
        (missingKey.detect (.ofDocument d) d.root.walk).any fun finding =>
        (d.node? finding.node).any fun element =>
        (d.enclosingFunction? element).any fun callback =>
        callback.function?.any (fun parts => decide (parts.body.label = .block)) &&
          callback.ownReturns.length == 1) =
      .ok true := by decide +kernel
  obtain ⟨d, hd, hvalues⟩ := Reading.map_eq_ok.1 hfacts
  have hregular : d.Regular := .of_read (by decide +kernel) (by decide +kernel) hd
  have hrooted := hregular.formed.root.rooted
  obtain ⟨finding, hf, hvalues⟩ := List.any_eq_true.1 hvalues
  obtain ⟨hreturns, hfound, hround, hrun⟩ := callback_found hrooted
  obtain ⟨i, hnode, henclosing⟩ := hfound finding hf
  rw [hnode, Option.any_some, henclosing, Option.any_some, Bool.and_eq_true, beq_iff_eq] at hvalues
  obtain ⟨parts, hparts, hb⟩ := (Option.any_eq_true _ _).1 hvalues.1
  obtain ⟨r, hr⟩ := List.length_eq_one_iff.1 hvalues.2
  obtain ⟨-, -, -, hmem⟩ := hreturns i.callback i.callback_mem parts hparts (of_decide_eq_true hb)
  have hr' := (hmem r).1 (hr ▸ List.mem_singleton.2 rfl)
  obtain ⟨-, -, -, -, -, -, hok, -⟩ := hround hregular _ (.start d) finding hf
  exact ⟨d, finding, hd, hrooted, hregular, hf,
    ⟨i.callback, r, i.callback_mem, hr, hr'.2.2, i, hnode, rfl, henclosing⟩, hok,
    hrun hregular _ (List.Subset.refl _) true 3 .none⟩

end Rule.ListKey
end JsxLint
