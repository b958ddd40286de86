import JsxLint.Proofs.Workspace.Renaming
import JsxLint.Rule.ComponentName

/-!
# Renamed components

* `Rule.ComponentName.exists_naming`: the nodes that the names of functions stand below;
* `Rule.ComponentName.repair_step`: another name for a component keeps what names refer to.
-/

namespace JsxLint

/-- Whether a node is one of which a component has its name: a function or a variable. -/
def Label.isNaming : Label → Bool
  | .functionDeclaration _ | .variableDeclarator => true
  | _ => false

namespace Rule.ComponentName

/-- A function declaration has its name as a child. -/
theorem name_mem_of_declaredFunction? {p m f : Node} (h : declaredFunction? p = some (m, f)) :
    (∃ hasName, p.label = .functionDeclaration hasName) ∧ m ∈ p.children := by
  rw [declaredFunction?.eq_def] at h
  split at h
  · next hasName hl =>
    obtain ⟨name, hname, he⟩ := Option.map_eq_some_iff.1 h
    cases he
    obtain ⟨parts, hparts, hname⟩ := Option.bind_eq_some_iff.1 hname
    refine ⟨⟨hasName, hl⟩, ?_⟩
    rw [Node.children_eq_of_function? hparts, hname]
    exact List.mem_cons_self
  · cases h

/-- A variable has its name as a child. -/
theorem name_mem_of_assignedFunction? {p m f : Node} (h : assignedFunction? p = some (m, f)) :
    p.label = .variableDeclarator ∧ m ∈ p.children := by
  rw [assignedFunction?.eq_def] at h
  split at h
  · next hd =>
    split_ifs at h
    cases h
    obtain ⟨rest, hrest⟩ := Node.children_eq_of_declarator? hd
    exact ⟨Node.label_of_declarator? hd, hrest ▸ List.mem_cons_self⟩
  · cases h

/-- The names that functions have are below functions and variables. -/
theorem exists_naming {nodes : List Node} {m f : Node} (h : (m, f) ∈ namedFunctions nodes) :
    ∃ p ∈ nodes, p.label.isNaming ∧ m ∈ p.children := by
  rcases List.mem_append.1 h with h | h
  · obtain ⟨p, hp, h⟩ := List.mem_filterMap.1 h
    obtain ⟨⟨hasName, hl⟩, hm⟩ := name_mem_of_declaredFunction? h
    exact ⟨p, hp, by rw [hl]; rfl, hm⟩
  · obtain ⟨p, hp, h⟩ := List.mem_filterMap.1 h
    obtain ⟨hl, hm⟩ := name_mem_of_assignedFunction? h
    exact ⟨p, hp, by rw [hl]; rfl, hm⟩

variable {w w' : Workspace} {start : NodeId} {finding : Finding} {change : Change}

/-- A repair renames a binding without a conflict. -/
theorem repair_eq_ok (hr : repair w finding = .ok (change, w')) : ∃ identifier b binding,
    w.document.node? finding.node = some identifier ∧
      w.bindingOf? identifier.id = some (b, binding) ∧ w.scopes.bindings[b]? = some binding ∧
      binding.declaration = identifier.id ∧
      w.renameConflict? b (Letter.capitalise binding.name) = none ∧
      change = info.change finding .rename (some binding.name)
        (some (Letter.capitalise binding.name)) none ∧
      w' = w.rename b (Letter.capitalise binding.name) := by
  rw [repair] at hr
  cases hn : w.document.node? finding.node with
  | none =>
    rw [hn] at hr
    cases hr
  | some identifier =>
    rw [hn] at hr
    dsimp only at hr
    cases hb : w.bindingOf? identifier.id with
    | none =>
      rw [hb] at hr
      cases hr
    | some found =>
      obtain ⟨b, binding⟩ := found
      rw [hb] at hr
      dsimp only at hr
      split_ifs at hr with hdeclaration
      · cases hr
      · cases hr
      · cases hr
      · cases hc : w.renameConflict? b (Letter.capitalise binding.name) with
        | some reason =>
          rw [hc] at hr
          cases hr
        | none =>
          rw [hc] at hr
          cases hr
          refine ⟨identifier, b, binding, rfl, hb, ?_, by simpa using hdeclaration, hc, rfl, rfl⟩
          rw [Workspace.bindingOf?] at hb
          obtain ⟨c, -, hb⟩ := Option.bind_eq_some_iff.1 hb
          obtain ⟨C, hC, hb⟩ := Option.map_eq_some_iff.1 hb
          cases hb
          exact hC

/-- Another name for a component keeps what names refer to. -/
theorem repair_step (h : w.Sound start) (hr : repair w finding = .ok (change, w')) :
    Workspace.Step start w w' := by
  obtain ⟨-, b, binding, -, -, hb, -, hc, -, rfl⟩ := repair_eq_ok hr
  refine h.rename hb (fun hname => ?_) hc
  -- a binding without a name already has the name that it would get
  have hself := h.lists.bound?_self hb
  have hbound := ((Workspace.renameConflict?_eq_none_iff hb).1 hc).1
  rw [hname] at hself hbound
  rw [show Letter.capitalise "" = "" from rfl, hself] at hbound
  cases hbound

end Rule.ComponentName
end JsxLint
