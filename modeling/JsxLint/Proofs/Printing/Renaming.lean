import JsxLint.Proofs.Printing.Editing
import JsxLint.Proofs.Reading.Outside
import JsxLint.Proofs.Scope.Ownership
import JsxLint.Proofs.Workspace.Conflicts

/-!
# Printing a renamed binding

When a binding gets another name, the text changes in the places of its identifiers only, and what
stands there afterwards depends on what the written name names outside of the binding: the key of a
property and the name of an export are kept in front of or behind the new name. The name that is
imported from another module is not.

* `Node.patches_of_names`: the patches of a tree that is given names only;
* `Document.restated`: the export specifiers that are printed as their names alone;
* `Outside.spelling`: the text of a renamed identifier;
* `rename_print`: what is printed after a binding was renamed.
-/

namespace JsxLint

open Node Reading

/-! ### Patches of names -/

/-- Names for some nodes. -/
def Edit.renames (names : List (NodeId × String)) : List Edit :=
  names.map fun e => .rename e.1 e.2

section Names

variable {names more : List (NodeId × String)} {id : NodeId} {n m : Node}

theorem lastName?_renames (names : List (NodeId × String)) (id : NodeId) :
    lastName? (Edit.renames names) id = names.reverse.lookup id := by
  induction names using List.reverseRecOn with
  | nil => rfl
  | append_singleton names e ih =>
    obtain ⟨i, name⟩ := e
    rw [lastName?, Edit.renames, List.map_append, List.filterMap_append, List.getLast?_append,
      List.reverse_append, List.reverse_singleton, List.singleton_append, lookup_cons_if, ← ih]
    by_cases h : i = id
    · simp [Edit.name?, h]
    · simp [Edit.name?, h, Ne.symm h, lastName?, Edit.renames]

theorem isGone_renames (n m : Node) : n.isGone (Edit.renames names) m = false := by
  have hnone : (Edit.renames names).contains (.remove n.id m.id) = false := by
    simp [Edit.renames]
  rw [isGone, hnone, Bool.and_false]

theorem name?_of_spelling? {label : Label} {name t : String}
    (h : (label.rename name).spelling? = some t) : label.name?.isSome := by
  cases label <;> first | rfl | cases h

/-- Names are given to leaves, so that each makes a patch of its own. -/
theorem patches_of_names (hl : ∀ m ∈ n.walk, m.label.name?.isSome → m.children = []) :
    n.patches (Edit.renames names) = n.walk.filterMap fun m =>
      (m.newText? (Edit.renames names)).map fun t => ⟨m.span, Utf8.encode t⟩ := by
  induction n using Node.induct with
  | step n ih =>
    have hgone : n.isGone (Edit.renames names) = fun _ => false :=
      funext fun m => isGone_renames n m
    rw [patches_eq, walk_eq]
    cases ht : n.newText? (Edit.renames names) with
    | some t =>
      obtain ⟨name, -, hs⟩ := Option.bind_eq_some_iff.1 ht
      rw [hl n n.self_mem_walk (name?_of_spelling? hs), List.flatMap_nil,
        List.filterMap_cons_some (by rw [ht]; rfl), List.filterMap_nil]
    | none =>
      rw [List.filterMap_cons_none (by rw [ht]; rfl), List.filterMap_flatMap, patchesOf, hgone]
      exact List.flatMap_congr fun k hk => ih k hk fun m hm => hl m (mem_walk_of_child hk hm)

theorem lookup_const (ids : List NodeId) (y : String) (id : NodeId) :
    (ids.map (·, y)).reverse.lookup id = if id ∈ ids then some y else none := by
  induction ids using List.reverseRecOn with
  | nil => rfl
  | append_singleton ids i ih =>
    rw [List.map_append, List.map_singleton, List.reverse_append, List.reverse_singleton,
      List.singleton_append, lookup_cons_if, ih]
    by_cases h : id = i <;> simp [h]

end Names

/-! ### Renamed identifiers -/

/-- The text that stands for a name that got another one: what it also names outside of the binding
stays written, except for what is imported. -/
def Outside.spelling (old new : String) : Option Outside → String
  | some .key => if new = old then new else old ++ ": " ++ new
  | some .exported => if new = old then new else new ++ " as " ++ old
  | some .imported | none => new

theorem Outside.identifierText_eq (old new : String) (o : Option Outside) :
    Printer.identifierText false new old (shorthand o) = spelling old new o := by
  rcases o with - | - | - | - <;> simp [Printer.identifierText, shorthand, spelling]

namespace Document

variable {d : Document} {n : Node} {ids : List NodeId} {y : String}

/-- Whether an identifier is an export specifier that holds more than its name; it is printed as
the name alone. -/
def restates (d : Document) (n : Node) : Bool :=
  n.label.isExported && d.textOf n != n.text

/-- The specifiers that are printed as their names, with these names. -/
def restated (d : Document) : List (NodeId × String) :=
  (d.root.walk.filter d.restates).map entry

/-- The text that is printed for a node, when some nodes get a name, where it is not what was
written. -/
def respelled? (d : Document) (ids : List NodeId) (y : String) (n : Node) : Option String :=
  if n.id ∈ ids then (n.label.rename y).spelling?
  else if d.restates n then some n.text
  else none

/-- The patches that give a name to some nodes. -/
def renamePatches (d : Document) (ids : List NodeId) (y : String) : List Patch :=
  d.root.walk.filterMap fun n => (d.respelled? ids y n).map fun t => ⟨n.span, Utf8.encode t⟩

theorem rename_text (hd : d.WellFormed) (hn : n ∈ d.root.walk) (hl : n.label.isExported) :
    d.rename n.id n.text = d := by
  have hroot : d.root.modify n.id (fun m => { m with label := m.label.rename n.text }) = d.root := by
    refine modify_eq_self fun m hm hid => ?_
    rw [eq_of_id_eq hd.root.nodup hm hn hid, text]
    cases h : n.label <;> rw [h] at hl <;> first
      | cases hl
      | (cases n; cases h; rfl)
  have hdetached : d.detached.map (·.modify n.id fun m =>
      { m with label := m.label.rename n.text }) = d.detached := by
    refine (List.map_congr_left fun m hm => ?_).trans (List.map_id _)
    exact modify_of_not_mem fun hi => (hd.apart m hm n.id hi).1 (id_mem_ids hn)
  rw [rename, modifyLabel, modify, hroot, hdetached]

/-- Giving specifiers the names that they have changes nothing. -/
theorem edited_restated (hd : d.WellFormed) : d.edited (Edit.renames d.restated) = d := by
  have hall : ∀ ns : List Node, (∀ n ∈ ns, n ∈ d.root.walk ∧ n.label.isExported) →
      d.edited (Edit.renames (ns.map entry)) = d := by
    intro ns h
    induction ns with
    | nil => rfl
    | cons n ns ih =>
      obtain ⟨⟨hn, hl⟩, hns⟩ := List.forall_mem_cons.1 h
      show (d.rename n.id n.text).edited (Edit.renames (ns.map entry)) = d
      rw [rename_text hd hn hl, ih hns]
  refine hall _ fun n hn => ?_
  obtain ⟨hn, hr⟩ := List.mem_filter.1 hn
  exact ⟨hn, (Bool.and_eq_true_iff.1 hr).1⟩

theorem lookup_restated (hd : d.root.ids.Nodup) (hn : n ∈ d.root.walk) :
    d.restated.reverse.lookup n.id = if d.restates n then some n.text else none := by
  have hnodup : (d.restated.reverse.map (·.1)).Nodup := by
    rw [List.map_reverse, List.nodup_reverse, restated, List.map_map]
    exact (List.filter_sublist.map _).nodup hd
  split_ifs with hr
  · refine lookup_of_mem hnodup (List.mem_reverse.2 ?_)
    exact List.mem_map.2 ⟨n, List.mem_filter.2 ⟨hn, hr⟩, rfl⟩
  · refine List.lookup_eq_none_iff.2 fun e he => ?_
    obtain ⟨m, hm, rfl⟩ := List.mem_map.1 (List.mem_reverse.1 he)
    obtain ⟨hm, hmr⟩ := List.mem_filter.1 hm
    rw [bne_iff_ne]
    intro hid
    rw [eq_of_id_eq hd hn hm hid] at hr
    exact hr hmr

/-- What names make of a node depends on whether it gets one, or is printed anew all the same. -/
theorem newText?_renames (hd : d.root.ids.Nodup) (hn : n ∈ d.root.walk)
    (hl : n.label.isExported → n.label.spelling? = some n.text) :
    n.newText? (Edit.renames (d.restated ++ ids.map (·, y))) = d.respelled? ids y n := by
  rw [newText?, lastName?_renames, List.reverse_append, List.lookup_append, lookup_const,
    lookup_restated hd hn, respelled?]
  by_cases hi : n.id ∈ ids
  · rw [if_pos hi, if_pos hi]
    rfl
  rw [if_neg hi, if_neg hi]
  by_cases hr : d.restates n
  · rw [if_pos hr]
    have he : n.label.isExported := (Bool.and_eq_true_iff.1 hr).1
    have hself : n.label.rename n.text = n.label := by
      rw [text]
      cases h : n.label <;> rw [h] at he <;> first | cases he | rfl
    show (n.label.rename n.text).spelling? = some n.text
    rw [hself, hl he]
  · rw [if_neg hr]
    rfl

theorem patches_renames (hd : d.WellFormed)
    (hl : ∀ n ∈ d.root.walk, n.label.isExported → n.label.spelling? = some n.text) :
    d.root.patches (Edit.renames (d.restated ++ ids.map (·, y))) = d.renamePatches ids y := by
  rw [patches_of_names fun m hm => (hd.root.shaped m hm).leaf, renamePatches]
  exact List.filterMap_congr fun n hn => by
    rw [newText?_renames hd.root.nodup hn (hl n hn)]

/-- An exported name that gets no name is one that is copied. -/
theorem textOf_of_lastName? (hd : d.root.ids.Nodup) (hn : n ∈ d.root.walk)
    (he : n.label.isExported)
    (h : lastName? (Edit.renames (d.restated ++ ids.map (·, y))) n.id = none) :
    d.textOf n = n.text := by
  by_contra hne
  have hr : d.restates n := Bool.and_eq_true_iff.2 ⟨he, by simpa using hne⟩
  rw [lastName?_renames, List.reverse_append, List.lookup_append, lookup_restated hd hn,
    if_pos hr, Option.or_eq_none_iff] at h
  cases h.2

/-- A renaming edits the names of a binding only. -/
theorem edited_renames {b : BindingId} {B : Binding} (hd : d.WellFormed)
    (hb : (Workspace.ofDocument d).scopes.bindings[b]? = some B) :
    d.edited (Edit.renames (d.restated ++ (B.declaration :: B.references).map (·, y))) =
      ((Workspace.ofDocument d).rename b y).document := by
  have hall : Edit.renames (d.restated ++ (B.declaration :: B.references).map (·, y)) =
      Edit.renames d.restated ++ (B.declaration :: B.references).map (Edit.rename · y) := by
    simp [Edit.renames]
  rw [hall, edited, List.foldl_append]
  show (d.edited (Edit.renames d.restated)).edited _ = _
  rw [edited_restated hd, Workspace.rename_eq hb, edited, List.foldl_map]
  rfl

end Document

/-! ### Renamed bindings -/

section Rename

variable {grammar : Grammar} {path text : String} {d : Document} {b : BindingId} {B : Binding}

theorem spelling?_of_isExported (hn : (grammar (.ofPath path) text).NamesShaped)
    (h : Document.read grammar path text = .ok d) {n : Node} (hm : n ∈ d.root.walk)
    (he : n.label.isExported) : n.label.spelling? = some n.text := by
  have hid : n.label.isIdentifier := by
    cases hl : n.label <;> rw [hl] at he <;> first
      | cases he
      | rfl
  obtain ⟨a, x, hx⟩ := read_written hn h hm hid
  rw [Node.text, hx.label]
  exact congrArg some (identifierText_self _ _ _)

/-- After a binding was renamed, the text differs in the places of its identifiers only, and in the
export specifiers that are printed as their names alone. What is printed for an identifier depends
on what the name in its place names outside of the binding: the key of a property and the name of an
export stay, but what an import takes from another module gets the new name. -/
theorem rename_print (hs : (grammar (.ofPath path) text).Readable text)
    (hn : (grammar (.ofPath path) text).NamesShaped)
    (hp : (grammar (.ofPath path) text).TagsPlain)
    (hz : (grammar (.ofPath path) text).span.stop = 0 → text = "")
    (h : Document.read grammar path text = .ok d) (hi : d.DeclaresIdentifiers)
    (hb : (Workspace.ofDocument d).scopes.bindings[b]? = some B) (y : String) :
    (PatchRow 0 (Utf8.encode text).length (d.renamePatches (B.declaration :: B.references) y) ∧
      ((Workspace.ofDocument d).rename b y).document.print =
        .ok (patched (Utf8.encode text) 0 (Utf8.encode text).length
          (d.renamePatches (B.declaration :: B.references) y))) ∧
    ∀ id ∈ B.declaration :: B.references, ∃ n ∈ d.root.walk, n.id = id ∧ ∃ a x,
      (grammar (.ofPath path) text).WrittenAs d.source n a x ∧ textOf d.source x = B.name ∧
        d.respelled? (B.declaration :: B.references) y n =
          some (Outside.spelling B.name y (a.outside? x)) := by
  have hd := read_wellFormed hp h
  constructor
  · rw [← Document.edited_renames hd hb,
      ← Document.patches_renames hd fun n hm he => spelling?_of_isExported hn h hm he]
    exact print_edited hs hz h fun n hm he hname =>
      Document.textOf_of_lastName? hd.root.nodup hm he hname
  · intro id hid
    have hof := ((Workspace.sound_ofDocument hd).mem_binding_iff hb id).1 hid
    obtain ⟨n, hm, rfl, hname⟩ := (ScopeTable.resolve_covers hd.root.nodup
      (fun n hn => (hd.root.shaped n hn).parameters) hd.root.program).named hb hid
    obtain ⟨a, x, hx⟩ := read_written hn h hm
      (Workspace.isIdentifier_of_bindingOf? hd hi hm (by rw [hof]; rfl))
    have htext : textOf d.source x = B.name := by
      rw [← hname, Node.text, hx.label]
      rfl
    refine ⟨n, hm, rfl, a, x, hx, htext, ?_⟩
    rw [Document.respelled?, if_pos hid, hx.label, htext]
    exact congrArg some (Outside.identifierText_eq _ _ _)

end Rename

/-! ### An import, a shorthand and an export -/

namespace Concrete

/-- The tree of an import that is used as a shorthand property and exported again. -/
def cardImport : Concrete :=
  rule "program" 0 58 none
    [rule "import_statement" 0 27 none
      [token "import" 0 6,
        rule "import_clause" 7 15 none
          [rule "named_imports" 7 15 none
            [token "\x7b" 7 8,
              rule "import_specifier" 9 13 none [rule "identifier" 9 13 (some "name") []],
              token "\x7d" 14 15]],
        token "from" 16 20, rule "string" 21 26 (some "source") [], token ";" 26 27],
      rule "expression_statement" 28 40 none
        [rule "call_expression" 28 39 none
          [rule "identifier" 28 29 (some "function") [],
            rule "arguments" 29 39 (some "arguments")
              [token "(" 29 30,
                rule "object" 30 38 none
                  [token "\x7b" 30 31, rule "shorthand_property_identifier" 32 36 none [],
                    token "\x7d" 37 38],
                token ")" 38 39]],
          token ";" 39 40],
      rule "export_statement" 41 57 none
        [token "export" 41 47,
          rule "export_clause" 48 56 none
            [token "\x7b" 48 49,
              rule "export_specifier" 50 54 none [rule "identifier" 50 54 (some "name") []],
              token "\x7d" 55 56],
          token ";" 56 57]]

end Concrete

/-- The text of `Concrete.cardImport`. -/
def cardText : String :=
  "import \x7b card \x7d from './m';\nf(\x7b card \x7d);\nexport \x7b card \x7d;\n"

/-- The key and the exported name stay, but the import asks for another name. -/
theorem cardImport_rename_print : ∃ d B,
    Document.read (fun _ _ => Concrete.cardImport) "A.jsx" cardText = .ok d ∧
      (Workspace.ofDocument d).scopes.bindings[0]? = some B ∧ B.name = "card" ∧
      (Workspace.ofDocument d).renameConflict? 0 "Card" = none ∧
      ((Workspace.ofDocument d).rename 0 "Card").document.print = .ok (Utf8.encode
        ("import \x7b Card \x7d from './m';\nf(\x7b card: Card \x7d);\n" ++
          "export \x7b Card as card \x7d;\n")) := by
  have hread : (Document.read (fun _ _ => Concrete.cardImport) "A.jsx" cardText).map
      (fun d => (decide d.DeclaresIdentifiers, (Workspace.ofDocument d).renameConflict? 0 "Card",
        (Workspace.ofDocument d).scopes.bindings[0]?.map fun B => (B.name,
          patched (Utf8.encode cardText) 0 (Utf8.encode cardText).length
            (d.renamePatches (B.declaration :: B.references) "Card")))) =
        .ok (true, none, some ("card", Utf8.encode
          ("import \x7b Card \x7d from './m';\nf(\x7b card: Card \x7d);\n" ++
            "export \x7b Card as card \x7d;\n"))) := by decide +kernel
  obtain ⟨d, hd, hx⟩ := Reading.map_eq_ok.1 hread
  simp only [Prod.mk.injEq] at hx
  obtain ⟨hi, hconflict, hB⟩ := hx
  obtain ⟨B, hB, he⟩ := Option.map_eq_some_iff.1 hB
  obtain ⟨hname, hpatched⟩ := Prod.mk.inj he
  have hprint := (@rename_print (fun _ _ => Concrete.cardImport) "A.jsx" cardText d 0 B
    (by decide +kernel) (by decide +kernel) (by decide +kernel) (fun h => absurd h (by decide)) hd
    (of_decide_eq_true hi) hB "Card").1.2
  exact ⟨d, B, hd, hB, hname, hconflict, by rw [hprint, hpatched]⟩

end JsxLint
