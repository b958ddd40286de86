import JsxLint.Proofs.Analysis.KeyReference
import JsxLint.Proofs.Rule.Settled

/-!
# The names that a module exports

An export statement that declares something makes the declared names known to other files, an export
specifier its alias or the name that was read. The repair of a component's name refuses to rename
what is exported by its name, but looks only at the statement around the first declaration of the
binding. The other declarations of the binding are renamed wherever they stand.

* `Node.declaredNames`, `Node.exportedNames`: the names that a declaration and an export statement
  declare;
* `Document.exported`, `Document.exportedNames`: what a document makes known;
* `Rule.ComponentName.exportAround?_eq`: the export statement around the name of a component;
* `Rule.ComponentName.repair_exports`: what a repair does to the names that are exported.
-/

namespace JsxLint

open Node

/-! ### Names that a module exports -/

namespace Node

/-- The names that a declaration declares. -/
def declaredNames (n : Node) : List Node :=
  match n.label with
  | .functionDeclaration _ => (n.function?.bind (·.name)).toList
  | .variableDeclaration _ =>
    (n.children.filterMap fun d => d.declarator?.map (·.1)).flatMap patternNames
  | .other .. => (n.part? "name").toList.filter (·.label.isIdentifier)
  | _ => []

/-- The names that an export statement declares; a declaration may stand behind `declare`. -/
def exportedNames (n : Node) : List Node :=
  n.children.flatMap fun c =>
    if c.isOther "ambient_declaration" then c.children.flatMap declaredNames else c.declaredNames

variable {m n : Node}

theorem mem_walk_of_declaredNames (h : m ∈ n.declaredNames) : m ∈ n.walk := by
  rw [declaredNames.eq_def] at h
  split at h
  · obtain ⟨parts, hparts, hname⟩ := Option.bind_eq_some_iff.1 (Option.mem_toList.1 h)
    refine child_mem_walk ?_
    rw [children_eq_of_function? hparts, hname]
    exact List.mem_cons_self
  · obtain ⟨pattern, hpattern, h⟩ := List.mem_flatMap.1 h
    obtain ⟨d, hd, hpattern⟩ := List.mem_filterMap.1 hpattern
    obtain ⟨⟨pattern', value⟩, hdeclarator, rfl⟩ := Option.map_eq_some_iff.1 hpattern
    obtain ⟨rest, hrest⟩ := children_eq_of_declarator? hdeclarator
    have hchild : pattern' ∈ d.children := hrest ▸ List.mem_cons_self
    exact mem_walk_of_child hd (mem_walk_of_child hchild (mem_walk_of_patternNames h).1)
  · exact child_mem_walk (part?_mem (Option.mem_toList.1 (List.mem_filter.1 h).1))
  · cases h

theorem mem_walk_of_exportedNames (h : m ∈ n.exportedNames) : m ∈ n.walk := by
  obtain ⟨c, hc, h⟩ := List.mem_flatMap.1 h
  split_ifs at h
  · obtain ⟨k, hk, h⟩ := List.mem_flatMap.1 h
    exact mem_walk_of_child hc (mem_walk_of_child hk (mem_walk_of_declaredNames h))
  · exact mem_walk_of_child hc (mem_walk_of_declaredNames h)

end Node

/-- What a module makes known to other files under a name. -/
inductive Exported
  /-- What an identifier declares, under its current name. -/
  | declared (identifier : Node)
  /-- What stands under a name of its own. -/
  | spelled (name : String)

/-- The name under which something is known. -/
def Exported.name : Exported → String
  | .declared m => m.text
  | .spelled name => name

/-- The name under which something is known when some identifiers are called otherwise. -/
def Exported.nameWith (ids : List NodeId) (y : String) : Exported → String
  | .declared m => if m.id ∈ ids then y else m.text
  | .spelled name => name

/-- What other names in the tree make of something that is known under a name. -/
def Exported.mapNames (g : NodeId → String → String) : Exported → Exported
  | .declared m => .declared (m.mapNames g)
  | .spelled name => .spelled name

namespace Document

/-- The text of a node behind its last part, which is printed as it was read. -/
def textBehind (d : Document) (n : Node) : String :=
  match n.place.span, n.children.getLast?.bind (·.place.span) with
  | some span, some last => d.source.text ⟨last.stop, span.stop⟩
  | some span, none => d.source.text span
  | none, _ => ""

/-- What a node of the tree makes known. A specifier without an alias stands under the name that was
read. Aliases, and what is passed on from other modules, are not in the tree; `spelled` finds their
names in the text. -/
def exportedBy (d : Document) (spelled : String → List String) (n : Node) : List Exported :=
  match n.label with
  | .identifier _ written (some .exported) => [.spelled written]
  | .other kind _ _ =>
    if kind = "export_specifier" || kind = "export_statement" && n.children.isEmpty then
      (spelled (d.textBehind n)).map .spelled
    else if kind = "export_statement" && Rule.ComponentName.isNamedExport d n then
      n.exportedNames.map .declared
    else []
  | _ => []

/-- What a document makes known to other files. -/
def exported (d : Document) (spelled : String → List String) : List Exported :=
  d.root.walk.flatMap (d.exportedBy spelled)

/-- The names under which a document makes something known. -/
def exportedNames (d : Document) (spelled : String → List String) : List String :=
  (d.exported spelled).map Exported.name

/-- A declared name is declared by an export statement that is not a default export. -/
theorem exists_statement {d : Document} {spelled : String → List String} {m : Node}
    (h : .declared m ∈ d.exported spelled) : ∃ s ∈ d.root.walk,
      s.isOther "export_statement" ∧ Rule.ComponentName.isNamedExport d s ∧ m ∈ s.exportedNames := by
  obtain ⟨s, hs, hm⟩ := List.mem_flatMap.1 h
  refine ⟨s, hs, ?_⟩
  rw [exportedBy] at hm
  split at hm
  · cases List.mem_singleton.1 hm
  · next kind _ _ hl =>
    split_ifs at hm with hspelled hnamed
    · obtain ⟨name, -, he⟩ := List.mem_map.1 hm
      cases he
    · obtain ⟨m', hm', he⟩ := List.mem_map.1 hm
      cases he
      rw [Bool.and_eq_true, decide_eq_true_eq] at hnamed
      obtain ⟨rfl, hnamed⟩ := hnamed
      exact ⟨by rw [isOther.eq_def, hl]; rfl, hnamed, hm'⟩
    · cases hm
  · cases hm

theorem mem_walk_of_exported {d : Document} {spelled : String → List String} {m : Node}
    (h : .declared m ∈ d.exported spelled) : m ∈ d.root.walk := by
  obtain ⟨s, hs, -, -, hm⟩ := exists_statement h
  exact mem_walk_trans (mem_walk_of_exportedNames hm) hs

end Document

/-! ### Other names -/

namespace Node

variable {g : NodeId → String → String} {n : Node}

theorem combine_map (kind : String) (fields : List (Option String)) (parts : List (List Node))
    (f : Node → Node) : Pattern.combine kind fields (parts.map (List.map f)) =
      (Pattern.combine kind fields parts).map f := by
  rw [Pattern.combine, Pattern.combine]
  split_ifs
  · exact List.map_flatten.symm
  · split
    · rfl
    · next field orFirst _ =>
      rw [lookup_zip_map]
      cases (fields.zip parts).lookup (some field) with
      | some names => rfl
      | none => cases parts <;> cases orFirst <;> rfl

theorem patternNames_mapNames (n : Node) :
    (n.mapNames g).patternNames = n.patternNames.map (mapNames g) := by
  induction n using induct with
  | step n ih =>
    rw [patternNames_eq, patternNames_eq n, mapNames_label, mapNames_children]
    have hparts : (n.children.map (mapNames g)).map patternNames =
        (n.children.map patternNames).map (List.map (mapNames g)) := by
      rw [List.map_map, List.map_map]
      exact List.map_congr_left ih
    cases n.label <;> first
      | rfl
      | exact hparts ▸ combine_map ..

/-- Names declare nothing. -/
theorem nothing_of_name (h : n.label.name?.isSome) : n.declarator? = none ∧ n.declaredNames = [] := by
  rw [declarator?.eq_def, declaredNames.eq_def]
  cases hl : n.label <;> rw [hl] at h <;> first
    | exact ⟨rfl, rfl⟩
    | cases h

theorem mapNames_name? (n : Node) : (n.mapNames g).label.name?.isSome = n.label.name?.isSome := by
  rw [mapNames_label]
  cases n.label <;> rfl

theorem declarator?_mapNames (n : Node) : (n.mapNames g).declarator? =
    n.declarator?.map fun d => (d.1.mapNames g, d.2.map (mapNames g)) := by
  cases hn : n.label.name? with
  | none => rw [mapNames_of_unnamed hn, declarator?_mapChildren]
  | some name =>
    have hname : n.label.name?.isSome := by rw [hn]; rfl
    rw [(nothing_of_name hname).1, (nothing_of_name ((mapNames_name? n).trans hname)).1]
    rfl

theorem declaredNames_mapNames (n : Node) :
    (n.mapNames g).declaredNames = n.declaredNames.map (mapNames g) := by
  cases hn : n.label.name? with
  | some name =>
    have hname : n.label.name?.isSome := by rw [hn]; rfl
    rw [(nothing_of_name hname).2, (nothing_of_name ((mapNames_name? n).trans hname)).2]
    rfl
  | none =>
    rw [mapNames_of_unnamed hn, declaredNames.eq_def, declaredNames.eq_def n,
      show (n.mapChildren (mapNames g)).label = n.label from rfl]
    cases n.label with
    | functionDeclaration hasName =>
      dsimp only
      rw [function?_mapChildren, Option.bind_map]
      cases n.function? <;> simp [FunctionParts.map, Option.toList_map]
    | variableDeclaration keyword =>
      have hpatterns : (n.children.map (mapNames g)).filterMap (fun d => d.declarator?.map (·.1)) =
          (n.children.filterMap fun d => d.declarator?.map (·.1)).map (mapNames g) := by
        rw [List.filterMap_map, List.map_filterMap]
        refine List.filterMap_congr fun d _ => ?_
        rw [Function.comp_apply, declarator?_mapNames, Option.map_map, Option.map_map]
        rfl
      show List.flatMap patternNames ((n.children.map (mapNames g)).filterMap _) = _
      rw [hpatterns, List.flatMap_map, List.map_flatMap]
      exact List.flatMap_congr fun k _ => patternNames_mapNames k
    | other =>
      dsimp only
      rw [part?_mapChildren]
      cases n.part? "name" with
      | none => rfl
      | some k =>
        simp only [Option.map_some, Option.toList_some, List.filter_cons, List.filter_nil,
          mapNames_label, mapName_isIdentifier]
        split_ifs <;> rfl
    | _ => rfl

theorem mapNames_isOther (n : Node) (kind : String) :
    (n.mapNames g).isOther kind = n.isOther kind := by
  rw [isOther.eq_def, isOther.eq_def, mapNames_label]
  cases n.label <;> rfl

theorem exportedNames_mapNames (n : Node) :
    (n.mapNames g).exportedNames = n.exportedNames.map (mapNames g) := by
  rw [exportedNames, exportedNames, mapNames_children, List.flatMap_map, List.map_flatMap]
  refine List.flatMap_congr fun c _ => ?_
  rw [mapNames_isOther]
  split_ifs
  · rw [mapNames_children, List.flatMap_map, List.map_flatMap]
    exact List.flatMap_congr fun k _ => declaredNames_mapNames k
  · exact declaredNames_mapNames c

end Node

namespace Document

variable {d d' : Document} {g : NodeId → String → String} {spelled : String → List String}

theorem textBehind_mapNames (hs : d'.source = d.source) (n : Node) :
    d'.textBehind (n.mapNames g) = d.textBehind n := by
  have hplace : ∀ m : Node, (m.mapNames g).place = m.place := fun m => by rw [mapNames_eq]
  have hlast : (n.mapNames g).children.getLast?.bind (·.place.span) =
      n.children.getLast?.bind (·.place.span) := by
    rw [mapNames_children, List.getLast?_map, Option.bind_map]
    exact congrArg _ (funext fun m => congrArg Place.span (hplace m))
  rw [textBehind, textBehind, hlast, hplace, hs]

theorem exportedBy_mapNames (hs : d'.source = d.source) (n : Node) :
    d'.exportedBy spelled (n.mapNames g) = (d.exportedBy spelled n).map (Exported.mapNames g) := by
  have hnamed : Rule.ComponentName.isNamedExport d' (n.mapNames g) =
      Rule.ComponentName.isNamedExport d n := by
    rw [Rule.ComponentName.isNamedExport, Rule.ComponentName.isNamedExport, textOf, textOf, hs,
      mapNames_eq]
  have hspelled : (spelled (d.textBehind n)).map Exported.spelled =
      ((spelled (d.textBehind n)).map Exported.spelled).map (Exported.mapNames g) := by
    rw [List.map_map]
    rfl
  rw [exportedBy, exportedBy, textBehind_mapNames hs, hnamed, exportedNames_mapNames,
    mapNames_children, List.isEmpty_map, mapNames_label]
  cases n.label with
  | identifier name written shorthand =>
    rcases shorthand with - | - | - <;> rfl
  | other kind fields keyword =>
    show (if _ then _ else _) = List.map _ (if _ then _ else _)
    split_ifs
    · exact hspelled
    · rw [List.map_map, List.map_map]
      rfl
    · rfl
  | _ => rfl

/-- What is known when names in the tree are others. -/
theorem exported_mapNames (hs : d'.source = d.source) (hr : d'.root = d.root.mapNames g) :
    d'.exported spelled = (d.exported spelled).map (Exported.mapNames g) := by
  rw [exported, exported, hr, walk_mapNames, List.flatMap_map, List.map_flatMap]
  exact List.flatMap_congr fun n _ => exportedBy_mapNames hs n

end Document

/-! ### Names of components -/

/-- Whether a node may have a declared name for a child. -/
def Label.isDeclaring : Label → Bool
  | .other .. => true
  | label => label.isNaming

namespace Node

variable {cuts : Prop} {c c' m m' n n' s : Node}

/-- What an altered tree has below a function, a variable or other syntax was there before. -/
theorem Altered.declaring (h : Altered cuts n n') (hm : m' ∈ n'.walk) (hl : m'.label.isDeclaring)
    (hc : c' ∈ m'.children) : ∃ m ∈ n.walk, m.label = m'.label ∧ m.id = m'.id ∧
      ∃ c ∈ m.children, c.id = c'.id := by
  have halterable : m'.label.isAlterable = false := by
    cases hlabel : m'.label <;> rw [hlabel] at hl <;> first | rfl | cases hl
  rcases h.mem_walk hm with ⟨m, hm, hmm⟩ | ⟨k, hk, hmk⟩
  · have hlabel := hmm.label_eq rfl halterable
    have hchildren := (hmm.around (by rw [hlabel, halterable]; exact Bool.false_ne_true)).2
    obtain ⟨c, hcm, hcc⟩ := exists_of_forall₂ hchildren hc
    exact ⟨m, hm, hlabel, hmm.keeps.id.symm, c, hcm, hcc.keeps.id.symm⟩
  · have hnot := hk.forall_walk (P := fun m => m.label.isDeclaring = false) (by intros; rfl)
      (by intros; rfl) (by intros; rfl) (by intros; rfl) m' hmk
    rw [hnot] at hl
    cases hl

theorem Alters.declaring (h : Alters cuts n n') (hm : m' ∈ n'.walk) (hl : m'.label.isDeclaring)
    (hc : c' ∈ m'.children) : ∃ m ∈ n.walk, m.label = m'.label ∧ m.id = m'.id ∧
      ∃ c ∈ m.children, c.id = c'.id := by
  induction h generalizing m' c' with
  | refl => exact ⟨m', hm, rfl, rfl, c', hc, rfl⟩
  | tail _ hstep ih =>
    obtain ⟨m, hm, hlabel, hid, c, hc, hcid⟩ := hstep.declaring hm hl hc
    obtain ⟨l, hl', hlabel', hid', b, hb, hbid⟩ := ih hm (hlabel ▸ hl) hc
    exact ⟨l, hl', hlabel'.trans hlabel, hid'.trans hid, b, hb, hbid.trans hcid⟩

/-- A name that a pattern binds is the pattern, or part of other syntax. -/
theorem eq_or_part_of_patternNames (h : m ∈ n.patternNames) :
    m = n ∨ ∃ p ∈ n.walk, m ∈ p.children ∧ p.label.isDeclaring ∧ p.label.isNaming = false := by
  induction n using induct with
  | step n ih =>
    rw [patternNames_eq] at h
    split at h
    · exact .inl (List.mem_singleton.1 h)
    · next hl =>
      obtain ⟨names, hn, hm⟩ := mem_combine h
      obtain ⟨k, hk, rfl⟩ := List.mem_map.1 hn
      rcases ih k hk hm with rfl | ⟨p, hp, hmp⟩
      · exact .inr ⟨n, n.self_mem_walk, hk, by rw [hl]; rfl, by rw [hl]; rfl⟩
      · exact .inr ⟨p, mem_walk_of_child hk hp, hmp⟩
    · cases h

/-- The way up from a declared name that has a function or a variable for its parent. -/
theorem path_of_declaredNames (hm : m ∈ n.declaredNames)
    (hparent : ∀ p ∈ n.walk, m ∈ p.children → p.label.isDeclaring → p.label.isNaming) :
    ∃ inner, n.Path inner m ∧ ∀ a ∈ inner, (∀ kind, a.isOther kind = false) ∧
      (a.label.isFunction || a.label = .variableDeclarator → m ∈ a.children) := by
  rw [declaredNames.eq_def] at hm
  split at hm
  · next hl =>
    obtain ⟨parts, hparts, hname⟩ := Option.bind_eq_some_iff.1 (Option.mem_toList.1 hm)
    have hchild : m ∈ n.children := by
      rw [children_eq_of_function? hparts, hname]
      exact List.mem_cons_self
    refine ⟨[n], .child .root hchild, fun a ha => ?_⟩
    cases List.mem_singleton.1 ha
    exact ⟨fun kind => by rw [isOther.eq_def, hl], fun _ => hchild⟩
  · next hl =>
    obtain ⟨pattern, hpattern, hm⟩ := List.mem_flatMap.1 hm
    obtain ⟨d, hd, hpd⟩ := List.mem_filterMap.1 hpattern
    obtain ⟨⟨pattern', value⟩, hdeclarator, rfl⟩ := Option.map_eq_some_iff.1 hpd
    have hdl := label_of_declarator? hdeclarator
    obtain ⟨rest, hrest⟩ := children_eq_of_declarator? hdeclarator
    have hchild : pattern' ∈ d.children := hrest ▸ List.mem_cons_self
    -- below a pattern the parent of the name would be part of the pattern
    rcases eq_or_part_of_patternNames hm with rfl | ⟨p, hp, hmp, hdeclaring, hnot⟩
    · refine ⟨[d, n], .child (.child .root hd) hchild, fun a ha => ?_⟩
      simp only [List.mem_cons, List.not_mem_nil, or_false] at ha
      rcases ha with rfl | rfl
      · exact ⟨fun kind => by rw [isOther.eq_def, hdl], fun _ => hchild⟩
      · exact ⟨fun kind => by rw [isOther.eq_def, hl], fun ha => by rw [hl] at ha; cases ha⟩
    · have hpn := mem_walk_of_child hd (mem_walk_of_child hchild hp)
      rw [hparent p hpn hmp hdeclaring] at hnot
      cases hnot
  · next hl =>
    have hname := Option.mem_toList.1 (List.mem_filter.1 hm).1
    have hnaming := hparent n n.self_mem_walk (part?_mem hname) (by rw [hl]; rfl)
    rw [hl] at hnaming
    cases hnaming
  · cases hm

theorem path_of_exportedNames (hm : m ∈ n.exportedNames)
    (hparent : ∀ p ∈ n.walk, m ∈ p.children → p.label.isDeclaring → p.label.isNaming) :
    ∃ inner, n.Path (inner ++ [n]) m ∧ ∀ a ∈ inner, a.isOther "export_statement" = false ∧
      (a.label.isFunction || a.label = .variableDeclarator → m ∈ a.children) := by
  obtain ⟨c, hc, hm⟩ := List.mem_flatMap.1 hm
  split_ifs at hm with hambient
  · obtain ⟨k, hk, hm⟩ := List.mem_flatMap.1 hm
    obtain ⟨inner, hp, hin⟩ := path_of_declaredNames hm fun p hp =>
      hparent p (mem_walk_of_child hc (mem_walk_of_child hk hp))
    refine ⟨inner ++ [c], ?_, fun a ha => ?_⟩
    · rw [List.append_assoc]
      exact hp.trans (.child (.child .root hc) hk)
    · rcases List.mem_append.1 ha with ha | ha
      · exact ⟨(hin a ha).1 _, (hin a ha).2⟩
      · cases List.mem_singleton.1 ha
        rw [isOther.eq_def] at hambient ⊢
        cases hl : c.label <;> rw [hl] at hambient <;> first
          | exact absurd hambient Bool.false_ne_true
          | skip
        cases eq_of_beq hambient
        exact ⟨rfl, fun h => by cases h⟩
  · obtain ⟨inner, hp, hin⟩ := path_of_declaredNames hm fun p hp =>
      hparent p (mem_walk_of_child hc hp)
    exact ⟨inner, hp.trans (.child .root hc), fun a ha => ⟨(hin a ha).1 _, (hin a ha).2⟩⟩

end Node

namespace Rule.ComponentName

variable {d : Document} {w w' : Workspace} {finding : Finding} {change : Change} {m s : Node}

/-- The way up from the exported name of a function or a variable reaches the export statement. -/
theorem exportAround?_eq (hd : d.WellFormed) (hs : s ∈ d.root.walk)
    (hkind : s.isOther "export_statement") (hm : m ∈ s.exportedNames)
    (hparent : ∀ p ∈ d.root.walk, m ∈ p.children → p.label.isDeclaring → p.label.isNaming) :
    exportAround? d m = some s := by
  obtain ⟨inner, hp, hin⟩ := path_of_exportedNames hm fun p hp =>
    hparent p (mem_walk_trans hp hs)
  obtain ⟨above, hpath⟩ := exists_path hs
  have hfull := hp.trans hpath
  have hnone : inner.find? (fun a => a.isOther "export_statement" || endsExport m a) = none := by
    refine List.find?_eq_none.2 fun a ha => ?_
    obtain ⟨hother, hchild⟩ := hin a ha
    have hroot : a ∈ d.root.walk := hfull.above_mem_walk
      (List.mem_append_left _ (List.mem_append_left _ ha))
    rw [hother, Bool.false_or, endsExport, Bool.and_eq_true]
    rintro ⟨hends, hne⟩
    rw [hd.root.linked a hroot m (hchild hends), bne_self_eq_false] at hne
    cases hne
  rw [exportAround?, hd.ancestors_eq hfull, List.append_assoc, List.find?_append, hnone,
    Option.none_or, List.singleton_append, List.find?_cons_of_pos (by rw [hkind]; rfl),
    Option.filter_some, if_pos hkind]

/-- A repair finds no export statement that makes the name known. -/
theorem not_exported_of_repair (hn : w.document.node? finding.node = some m)
    (hr : repair w finding = .ok (change, w')) :
    (exportAround? w.document m).any (isNamedExport w.document) = false := by
  by_contra hexported
  rw [Bool.not_eq_false] at hexported
  rw [repair, hn] at hr
  dsimp only at hr
  cases hb : w.bindingOf? m.id with
  | none =>
    rw [hb] at hr
    cases hr
  | some found =>
    rw [hb] at hr
    dsimp only at hr
    rw [if_pos hexported] at hr
    split_ifs at hr <;> cases hr

/-- The name that a repair starts from has the same parent as when it was found. -/
theorem parent_of_finding (hd : d.Regular) (hw : d.InRound w)
    (hf : finding ∈ componentNaming.detect (.ofDocument d) d.root.walk) (hid : m.id = finding.node) :
    ∀ p ∈ w.document.root.walk, m ∈ p.children → p.label.isDeclaring → p.label.isNaming := by
  intro p hp hm hdeclaring
  obtain ⟨⟨name, f⟩, hx, hf⟩ := List.mem_filterMap.1 hf
  dsimp only at hf
  split_ifs at hf
  cases hf
  obtain ⟨q, hq, hnaming, hname⟩ := exists_naming hx
  obtain ⟨l, hl, hlabel, -, c, hc, hcid⟩ := (hw.step hd).2.declaring hp hdeclaring hm
  -- both are the parent of one node of the tree in which the name was found
  have hsame : c = name := eq_of_id_eq hd.formed.root.nodup
    (mem_walk_trans (child_mem_walk hc) hl) (mem_walk_trans (child_mem_walk hname) hq)
    (hcid.trans hid)
  subst hsame
  obtain rfl := hd.formed.root.eq_of_child hl hq hc hname
  exact hlabel ▸ hnaming

variable {b : BindingId} {B : Binding} {y : String} {spelled : String → List String}

/-- What is known after a renaming. -/
theorem rename_exportedNames (hd : w.document.WellFormed) (hB : w.scopes.bindings[b]? = some B)
    (hnames : ∀ m ∈ w.document.root.walk, m.id ∈ B.declaration :: B.references →
      m.label.name?.isSome) : (w.rename b y).document.exportedNames spelled =
        (w.document.exported spelled).map (·.nameWith (B.declaration :: B.references) y) := by
  rw [Workspace.rename_eq hB, Document.exportedNames,
    Document.exported_mapNames (Document.foldl_rename_source _ _ y)
      (Document.foldl_rename_root hd.root.nodup _ y), List.map_map]
  refine List.map_congr_left fun e he => ?_
  cases e with
  | spelled name => rfl
  | declared m =>
    show (m.mapNames _).text = if m.id ∈ _ then y else m.text
    rw [text, mapNames_label, text]
    split_ifs with hid
    · have hname := hnames m (Document.mem_walk_of_exported he) hid
      cases hl : m.label <;> rw [hl] at hname <;> first
        | exact if_pos hid
        | cases hname
    · cases m.label <;> first
        | exact if_neg hid
        | rfl

/-- The name that a repair starts from is not exported by that name, or the repair would have been
refused. -/
theorem id_ne_of_repair (hd : d.Regular) (hw : d.InRound w)
    (hf : finding ∈ componentNaming.detect (.ofDocument d) d.root.walk)
    (hr : repair w finding = .ok (change, w')) (hm : .declared m ∈ w.document.exported spelled) :
    m.id ≠ finding.node := by
  intro hnode
  have hformed := (hw.step hd).1.sound.formed
  obtain ⟨s, hs, hkind, hnamed, hms⟩ := Document.exists_statement hm
  have haround := exportAround?_eq hformed hs hkind hms (parent_of_finding hd hw hf hnode)
  have hnot := not_exported_of_repair
    (hnode ▸ hformed.node?_eq (Document.mem_walk_of_exported hm)) hr
  rw [haround, Option.any_some, hnamed] at hnot
  cases hnot

/-- A name that one declaration has lost is exported by no other one. -/
theorem not_mem_of_nodup {ids : List NodeId} (hnew : y ≠ m.text)
    (hnodup : (d.exportedNames spelled).Nodup) (hm : .declared m ∈ d.exported spelled)
    (hi : m.id ∈ ids) : m.text ∉ (d.exported spelled).map (·.nameWith ids y) := by
  intro hmem
  obtain ⟨e, he, hname⟩ := List.mem_map.1 hmem
  -- what is known by the old name has not got the new one, and was known by the old name before
  have hold : e.name = m.text ∧ ∀ k, e = .declared k → k.id ∉ ids := by
    cases e with
    | spelled name => exact ⟨hname, fun k hk => by cases hk⟩
    | declared k =>
      rw [Exported.nameWith] at hname
      split_ifs at hname with hk
      · exact absurd hname hnew
      · exact ⟨hname, fun k' hk' => by cases hk'; exact hk⟩
  have hsame := List.inj_on_of_nodup_map hnodup he hm hold.1
  exact hold.2 m hsame hi

/-- After a repair a module makes the same known, but what declares the binding again is known under
the new name. -/
theorem repair_exports (hd : d.Regular) (hw : d.InRound w)
    (hf : finding ∈ componentNaming.detect (.ofDocument d) d.root.walk)
    (hr : repair w finding = .ok (change, w')) (spelled : String → List String) :
    ∃ b B, w.bindingOf? finding.node = some (b, B) ∧
      w'.document.exportedNames spelled = (w.document.exported spelled).map
        (·.nameWith B.references (Letter.capitalise B.name)) ∧
      (w'.document.exportedNames spelled = w.document.exportedNames spelled ↔
        ∀ m, .declared m ∈ w.document.exported spelled → m.id ∉ B.references) ∧
      ((w.document.exportedNames spelled).Nodup → ∀ m, .declared m ∈ w.document.exported spelled →
        m.id ∈ B.references → B.name ∈ w.document.exportedNames spelled ∧
          B.name ∉ w'.document.exportedNames spelled) := by
  have h := (hw.step hd).1.sound
  obtain ⟨identifier, b, B, hn, hb, hB, hdeclaration, hc, -, rfl⟩ := repair_eq_ok hr
  have hid := (h.formed.mem_or_idle hn).1
  have hnew : Letter.capitalise B.name ≠ B.name := fun he => h.renameConflict?_self hB (he ▸ hc)
  have hfirst : ∀ m, .declared m ∈ w.document.exported spelled → m.id ≠ B.declaration :=
    fun m hm => (hdeclaration.trans hid) ▸ id_ne_of_repair hd hw hf hr hm
  have htext : ∀ m, .declared m ∈ w.document.exported spelled → m.id ∈ B.references →
      m.text = B.name := fun m hm hi => h.text_eq hB (Document.mem_walk_of_exported hm)
    ((h.mem_binding_iff hB m.id).1 (List.mem_cons_of_mem _ hi))
  have hafter : (w.rename b (Letter.capitalise B.name)).document.exportedNames spelled =
      (w.document.exported spelled).map (·.nameWith B.references (Letter.capitalise B.name)) := by
    rw [rename_exportedNames h.formed hB fun m hm hi => h.name?_isSome hB (fun he => hnew ?_) hm
      ((h.mem_binding_iff hB m.id).1 hi)]
    · refine List.map_congr_left fun e he => ?_
      cases e with
      | spelled name => rfl
      | declared m => simp only [Exported.nameWith, List.mem_cons, hfirst m he, false_or]
    · rw [he]
      rfl
  refine ⟨b, B, hid ▸ hb, hafter, ?_, fun hnodup m hm hi => ⟨?_, ?_⟩⟩
  · rw [hafter, Document.exportedNames, List.map_inj_left]
    constructor
    · intro hsame m hm hi
      have hname := hsame _ hm
      rw [Exported.nameWith, if_pos hi] at hname
      exact hnew (hname.trans (htext m hm hi))
    · intro hnone e he
      cases e with
      | spelled name => rfl
      | declared m => exact if_neg (hnone m he)
  · exact List.mem_map.2 ⟨_, hm, htext m hm hi⟩
  · rw [hafter, ← htext m hm hi]
    exact not_mem_of_nodup (htext m hm hi ▸ hnew) hnodup hm hi

end Rule.ComponentName

/-! ### A variable that is exported when it is declared again -/

namespace Concrete

/-- The tree of `var card = () => <b />;` and `export var card;`. -/
def exportedAgain : Concrete :=
  rule "program" 0 41 none
    [rule "variable_declaration" 0 23 none
      [token "var" 0 3,
        rule "variable_declarator" 4 22 none
          [rule "identifier" 4 8 (some "name") [], token "=" 9 10,
            rule "arrow_function" 11 22 (some "value")
              [rule "formal_parameters" 11 13 (some "parameters") [token "(" 11 12, token ")" 12 13],
                token "=>" 14 16,
                rule "jsx_self_closing_element" 17 22 (some "body")
                  [token "<" 17 18, rule "identifier" 18 19 (some "name") [], token "/>" 20 22]]],
        token ";" 22 23],
      rule "export_statement" 24 40 none
        [token "export" 24 30,
          rule "variable_declaration" 31 40 (some "declaration")
            [token "var" 31 34,
              rule "variable_declarator" 35 39 none [rule "identifier" 35 39 (some "name") []],
              token ";" 39 40]]]

end Concrete

namespace Rule.ComponentName

/-- A second declaration of `card` is exported, and the repair of the first one takes the name
`card` from other files. -/
theorem exportedAgain_repair_exports : ∃ d finding change w', Document.read
      (fun _ _ => Concrete.exportedAgain) "A.jsx"
      "var card = () => <b />;\nexport var card;\n" = .ok d ∧
    d.Regular ∧ finding ∈ componentNaming.detect (.ofDocument d) d.root.walk ∧
    repair (.ofDocument d) finding = .ok (change, w') ∧
    "card" ∈ d.exportedNames (fun _ => []) ∧ "card" ∉ w'.document.exportedNames fun _ => [] := by
  have hfacts : (Document.read (fun _ _ => Concrete.exportedAgain) "A.jsx"
      "var card = () => <b />;\nexport var card;\n").map (fun d =>
        (componentNaming.detect (.ofDocument d) d.root.walk).any fun finding =>
        (repair (.ofDocument d) finding).toOption.isSome &&
        ((Workspace.ofDocument d).bindingOf? finding.node).any fun found =>
        found.2.name == "card" && d.exportedNames (fun _ => []) == ["card"] &&
          (d.exported fun _ => []).any fun e => e.nameWith found.2.references "Card" != e.name) =
      .ok true := by decide +kernel
  obtain ⟨d, hd, hvalues⟩ := Reading.map_eq_ok.1 hfacts
  have hregular : d.Regular := .of_read (by decide +kernel) (by decide +kernel) hd
  obtain ⟨finding, hf, hvalues⟩ := List.any_eq_true.1 hvalues
  rw [Bool.and_eq_true] at hvalues
  obtain ⟨hsome, hvalues⟩ := hvalues
  obtain ⟨⟨change, w'⟩, hr⟩ := Option.isSome_iff_exists.1 hsome
  have hr := Reading.eq_ok_of_toOption hr
  obtain ⟨b, B, hb, -, -, hlost⟩ := repair_exports hregular (.start d) hf hr fun _ => []
  simp only [hb, Option.any_some, Bool.and_eq_true, beq_iff_eq, List.any_eq_true, bne_iff_ne]
    at hvalues
  obtain ⟨⟨hname, hnames⟩, e, he, hne⟩ := hvalues
  rw [hname] at hlost
  cases e with
  | spelled name => exact absurd rfl hne
  | declared m =>
    have hi : m.id ∈ B.references := by
      by_contra hi
      exact hne (if_neg hi)
    have hnodup : (d.exportedNames fun _ => []).Nodup := hnames ▸ List.nodup_singleton "card"
    exact ⟨d, finding, change, w', hd, hregular, hf, hr, hlost hnodup m he hi⟩

end Rule.ComponentName
end JsxLint
