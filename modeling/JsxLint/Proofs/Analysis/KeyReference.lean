import JsxLint.Proofs.Analysis.Convergence
import JsxLint.Proofs.Rule.Keyed
import JsxLint.Proofs.Rule.Survival
import JsxLint.Proofs.Workspace.Conflicts

/-!
# What a new key refers to

The repair notes a new key as a reference to the second parameter of the callback. A fresh
resolution of the tree agrees, unless a scope between the key and the callback has the name as well:
the repair asks whether a new parameter changes what the callback refers to, which is another
question.

* `Document.InRound`: the workspaces in which findings of a document come to their repairs;
* `Rule.ListKey.exists_item_of_inRound`: elements of lists in a round;
* `Rule.ListKey.Keyed.RefersToIndex`: a key belongs to the binding of the second parameter;
* `Rule.ListKey.Keyed.refersToIndex_iff`: what a fresh resolution finds;
* `Rule.ListKey.repair_refersToIndex`: what the repair notes, and when a fresh resolution agrees.
-/

namespace JsxLint

open Node

/-! ### In a round -/

/-- Whether repairs of what rules found in a document led to a workspace. -/
def Document.InRound (d : Document) (w : Workspace) : Prop :=
  ∃ new changes, (∀ x ∈ new, x.1 ∈ Rule.all ∧ x.2 ∈ x.1.detect (.ofDocument d) d.root.walk) ∧
    Engine.Repairs (.ofDocument d) new changes w

namespace Document

variable {d : Document} {w : Workspace}

theorem InRound.start (d : Document) : d.InRound (.ofDocument d) :=
  ⟨[], [], fun x hx => (by cases hx), .nil _⟩

theorem InRound.step (h : d.InRound w) (hd : d.Regular) :
    Workspace.Step d.fresh (.ofDocument d) w ∧ Alters True d.root w.document.root := by
  obtain ⟨new, changes, hnew, hr⟩ := h
  exact step_of_repairs hd (List.Subset.refl _) hnew (fun _ _ _ => trivial)
    (.refl (Workspace.sound_ofDocument hd.formed)) (.refl True d.root) hr

end Document

/-! ### The nearest scope that has a name -/

/-- A search finds what it finds at one place just when it finds nothing before that place. -/
theorem findSome?_eq_iff_of_mem {α β : Type} [BEq α] [LawfulBEq α] {f : α → Option β} {l : List α}
    {a : α} {b : β} (ha : a ∈ l) (hb : f a = some b) (hne : ∀ x, x ≠ a → f x ≠ some b) :
    l.findSome? f = some b ↔ ∀ x ∈ l.takeWhile (· != a), f x = none := by
  induction l with
  | nil => cases ha
  | cons x l ih =>
    rw [List.findSome?_cons, List.takeWhile_cons]
    by_cases hx : x = a
    · rw [hx, hb]
      simp
    · have hmem := (List.mem_cons.1 ha).resolve_left fun he => hx he.symm
      rw [if_pos (bne_iff_ne.2 hx)]
      cases hfx : f x with
      | none => simp [ih hmem, hfx]
      | some c =>
        have hcb : c ≠ b := fun he => hne x hx (by rw [hfx, he])
        simp [hfx, hcb]

/-- The region of a function is around what is below it. -/
theorem Node.mem_regionsAbove {above : List Node} {f : Node} (hf : f ∈ above)
    (hl : f.label.isFunction) : (⟨f.id, .function⟩ : Region) ∈ regionsAbove above := by
  induction above with
  | nil => cases hf
  | cons n above ih =>
    rw [regionsAbove]
    rcases List.mem_cons.1 hf with rfl | hf
    · rw [region?_of_isFunction hl]
      exact List.mem_append_left _ List.mem_cons_self
    · exact List.mem_append_right _ (ih hf)

namespace Rule.ListKey

variable {d : Document} {w w' : Workspace} {root : Node} {finding : Finding} {change : Change}

/-- Whether a table has the key of an element and the second parameter of the callback as
identifiers of one binding. -/
def Keyed.RefersToIndex (k : Keyed root) (t : ScopeTable) : Prop :=
  ∃ c, t.bindingOf? k.key.id = some c ∧ t.bindingOf? k.index.id = some c

/-- The key is a use of its name, in the scopes around it, of which the callback opens one. -/
theorem Keyed.exists_use (k : Keyed d.root) : ∃ around,
    (⟨k.key.id, k.key.text, around⟩ : Use) ∈ d.uses ∧ ⟨k.callback.id, .function⟩ ∈ around := by
  have hfunction := isFunction_of_function? k.function?
  have hbelow : k.key ∈ k.callback.walk :=
    mem_walk_trans (key?_mem_walk k.key?) (mem_walk_of_returned k.mem_returned)
  have hne : k.key ≠ k.callback := by
    intro he
    have hi := k.isIdentifier
    rw [he] at hi
    cases hl : k.callback.label <;> rw [hl] at hi hfunction <;> first
      | exact absurd hi Bool.false_ne_true
      | exact absurd hfunction Bool.false_ne_true
  obtain ⟨above, hpath, hcallback⟩ := exists_path_through k.callback_mem hbelow hne
  refine ⟨regionsAbove above ++ d.root.program, ?_, ?_⟩
  · refine List.mem_filterMap.2 ⟨_, mem_spots_of_path d.root.program hpath, ?_⟩
    rw [use?, if_pos k.isIdentifier]
  · exact List.mem_append_left _ (mem_regionsAbove hcallback hfunction)

/-- A fresh resolution finds the second parameter from the key, unless a scope on the way from the
key to the callback has the name. -/
theorem Keyed.refersToIndex_iff (hd : d.WellFormed) (k : Keyed d.root)
    (hkey : (ScopeTable.resolve d.root).declared.lookup k.key.id = none) :
    ∃ s ∈ (Workspace.ofDocument d).scopesAround k.key.id,
      (ScopeTable.resolve d.root).scopeOpenedBy? k.callback.id = some s ∧
      (k.RefersToIndex (ScopeTable.resolve d.root) ↔
        ∀ r ∈ ((Workspace.ofDocument d).scopesAround k.key.id).takeWhile (· != s),
          (ScopeTable.resolve d.root).bound? r k.key.text = none) := by
  have hs := Workspace.sound_ofDocument hd
  obtain ⟨around, hu, hregion⟩ := k.exists_use
  obtain ⟨r, hr⟩ := hs.knows _ hu (Workspace.lt_of_mem_uses hd hu) hkey
  have haround : (Workspace.ofDocument d).scopesAround k.key.id =
      (ScopeTable.resolve d.root).chain r := by
    rw [Workspace.scopesAround, hs.scopeOf_eq hu hr]
    rfl
  -- the scope of the callback, in which the second parameter is bound
  obtain ⟨s, hsr, hnode⟩ : ∃ s ∈ (ScopeTable.resolve d.root).chain r,
      (ScopeTable.resolve d.root).nodeOf? s = some k.callback.id := by
    have hmem := List.mem_map_of_mem (f := some) (List.mem_map_of_mem (f := (·.node)) hregion)
    rw [← hr.around.nodes] at hmem
    exact List.mem_map.1 hmem
  obtain ⟨c, hc, hbound⟩ := exists_bound_parameter hs k.callback_mem k.function? hnode k.index?
  rw [← k.text] at hbound
  have hother : ∀ x, x ≠ s → (ScopeTable.resolve d.root).bound? x k.key.text ≠ some c := by
    intro x hx hxb
    obtain ⟨B, hB, hscope, -⟩ := (hs.lists.bound_iff _ _ _).1 hbound
    obtain ⟨C, hC, hscope', -⟩ := (hs.lists.bound_iff _ _ _).1 hxb
    cases hB.symm.trans hC
    exact hx (hscope'.symm.trans hscope)
  refine ⟨s, haround ▸ hsr, hs.lists.scopeOpenedBy?_eq hnode, ?_⟩
  rw [haround, ← findSome?_eq_iff_of_mem hsr hbound hother]
  have hlookup : (ScopeTable.resolve d.root).bindingOf? k.key.id =
      ((ScopeTable.resolve d.root).chain r).findSome?
        fun x => (ScopeTable.resolve d.root).bound? x k.key.text := hr.binding
  rw [← hlookup]
  constructor
  · rintro ⟨b, hb, hindex⟩
    exact hb.trans (hindex.symm.trans hc)
  · intro hb
    exact ⟨c, hb, hc⟩

/-- What was found in a document is about an element of a list as long as its round goes on, and the
list has the callback that it had. -/
theorem exists_item_of_inRound (hd : d.Regular) (hw : d.InRound w)
    (hf : finding ∈ missingKey.detect (.ofDocument d) d.root.walk) :
    ∃ (i : Item d.root) (j : Item w.document.root), i.element.id = finding.node ∧
      j.element.id = finding.node ∧ j.callback.id = i.callback.id := by
  obtain ⟨hstep, ha⟩ := hw.step hd
  obtain ⟨i, -, hreport⟩ := mem_detect_iff.1 hf
  have hnode : i.element.id = finding.node := (congrArg Finding.node hreport).symm
  obtain ⟨parts, hparts⟩ := Option.isSome_iff_exists.1 i.isElement
  obtain ⟨m, hm, -, hmm⟩ := ha.survives i.element_mem (not_idle_of_element? hparts)
  obtain ⟨parts', hparts', -⟩ := hmm.exists_element? hparts
  obtain ⟨j, rfl, hcallback⟩ := i.alters hd.formed hstep.sound.formed ha hm hmm.id_eq
    (by rw [hparts']; rfl)
  exact ⟨i, j, hnode, hmm.id_eq.trans hnode, hcallback.id_eq⟩

/-- The repair notes a key as a reference to the second parameter of the callback around the
element. A fresh resolution of the tree agrees just when no scope between the key and the callback
has the name of the parameter. -/
theorem repair_refersToIndex (hd : d.Regular) (hw : d.InRound w)
    (hf : finding ∈ missingKey.detect (.ofDocument d) d.root.walk)
    (hr : repair w finding = .ok (change, w')) : ∃ k : Keyed w'.document.root,
      k.element.id = finding.node ∧
      w'.document.enclosingFunction? k.element = some k.callback ∧
      k.RefersToIndex w'.scopes ∧
      ∃ s ∈ (Workspace.ofDocument w'.document).scopesAround k.key.id,
        (ScopeTable.resolve w'.document.root).scopeOpenedBy? k.callback.id = some s ∧
        (k.RefersToIndex (ScopeTable.resolve w'.document.root) ↔
          ∀ r ∈ ((Workspace.ofDocument w'.document).scopesAround k.key.id).takeWhile (· != s),
            (ScopeTable.resolve w'.document.root).bound? r k.key.text = none) := by
  obtain ⟨hstep, ha⟩ := hw.step hd
  obtain ⟨-, i, -, hi, -⟩ := exists_item_of_inRound hd hw hf
  obtain ⟨k, hid, -, -, hkey, hnoted⟩ := exists_keyed hstep.sound (hd.named.alters ha) i hi hr
  have hsound := (repair_step hstep.sound hr).sound
  refine ⟨k, hid, k.enclosing hsound.formed, hnoted, k.refersToIndex_iff hsound.formed ?_⟩
  -- what declares in the tree does so in both tables
  rw [← Option.not_isSome_iff_eq_none] at hkey ⊢
  intro hdeclared
  have hfresh := Workspace.sound_ofDocument hsound.formed
  exact hkey (hsound.declared_iff.2 (hfresh.declared_iff.1 hdeclared))

end Rule.ListKey

/-! ### A loop around the element -/

namespace Concrete

/-- The tree of `xs.map(x => { for (const index of x) { return <b />; } });`. -/
def indexLoop : Concrete :=
  rule "program" 0 59 none
    [rule "expression_statement" 0 58 none
      [rule "call_expression" 0 57 none
        [rule "member_expression" 0 6 (some "function")
            [rule "identifier" 0 2 (some "object") [], token "." 2 3,
              rule "property_identifier" 3 6 (some "property") []],
          rule "arguments" 6 57 (some "arguments")
            [token "(" 6 7,
              rule "arrow_function" 7 56 none
                [rule "identifier" 7 8 (some "parameter") [], token "=>" 9 11,
                  rule "statement_block" 12 56 (some "body")
                    [token "\x7b" 12 13,
                      rule "for_in_statement" 14 54 none
                        [token "for" 14 17, token "(" 18 19,
                          ⟨"const", ⟨19, 24⟩, some "kind", false, false, false, []⟩,
                          rule "identifier" 25 30 (some "left") [],
                          ⟨"of", ⟨31, 33⟩, some "operator", false, false, false, []⟩,
                          rule "identifier" 34 35 (some "right") [], token ")" 35 36,
                          rule "statement_block" 37 54 (some "body")
                            [token "\x7b" 37 38,
                              rule "return_statement" 39 52 none
                                [token "return" 39 45,
                                  rule "jsx_self_closing_element" 46 51 none
                                    [token "<" 46 47, rule "identifier" 47 48 (some "name") [],
                                      token "/>" 49 51],
                                  token ";" 51 52],
                              token "\x7d" 53 54]],
                      token "\x7d" 55 56]],
              token ")" 56 57]],
        token ";" 57 58]]

end Concrete

namespace Rule.ListKey

/-- The loop over `index` takes the key that the repair noted as one for the new parameter. -/
theorem indexLoop_refersToIndex : ∃ d finding change w', Document.read
      (fun _ _ => Concrete.indexLoop) "A.jsx"
      "xs.map(x => \x7b for (const index of x) \x7b return <b />; \x7d \x7d);\n" = .ok d ∧
    d.Regular ∧ finding ∈ missingKey.detect (.ofDocument d) d.root.walk ∧
    repair (.ofDocument d) finding = .ok (change, w') ∧
    ∃ k : Keyed w'.document.root, k.element.id = finding.node ∧ k.RefersToIndex w'.scopes ∧
      ¬k.RefersToIndex (ScopeTable.resolve w'.document.root) := by
  have hfacts : (Document.read (fun _ _ => Concrete.indexLoop) "A.jsx"
      "xs.map(x => \x7b for (const index of x) \x7b return <b />; \x7d \x7d);\n").map (fun d =>
        (missingKey.detect (.ofDocument d) d.root.walk).any fun finding =>
        (repair (.ofDocument d) finding).toOption.any fun result =>
        (result.2.document.node? finding.node).any fun element =>
        (result.2.document.enclosingFunction? element).any fun callback =>
        ((ScopeTable.resolve result.2.document.root).scopeOpenedBy? callback.id).any fun s =>
        (ListKey.key? element).any fun key =>
        (((Workspace.ofDocument result.2.document).scopesAround key.id).takeWhile (· != s)).any
          fun r => ((ScopeTable.resolve result.2.document.root).bound? r key.text).isSome) =
      .ok true := by decide +kernel
  obtain ⟨d, hd, hvalues⟩ := Reading.map_eq_ok.1 hfacts
  have hregular : d.Regular := .of_read (by decide +kernel) (by decide +kernel) hd
  obtain ⟨finding, hf, hvalues⟩ := List.any_eq_true.1 hvalues
  obtain ⟨⟨change, w'⟩, hr, hvalues⟩ := (Option.any_eq_true _ _).1 hvalues
  have hr := Reading.eq_ok_of_toOption hr
  obtain ⟨k, hid, henclosing, hnoted, s, -, hopened, hiff⟩ :=
    repair_refersToIndex hregular (.start d) hf hr
  refine ⟨d, finding, change, w', hd, hregular, hf, hr, k, hid, hnoted, fun hk => ?_⟩
  -- the scope of the loop has the name
  have hsound := (repair_step (Workspace.sound_ofDocument hregular.formed) hr).sound
  have hnode := hsound.formed.node?_eq k.element_mem
  rw [hid] at hnode
  simp only [hnode, henclosing, hopened, k.key?, Option.any_some, List.any_eq_true] at hvalues
  obtain ⟨r, hmem, hbound⟩ := hvalues
  rw [hiff.1 hk r hmem] at hbound
  cases hbound

end Rule.ListKey
end JsxLint
