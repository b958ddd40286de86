import JsxLint.Proofs.Analysis.KeyReference

/-!
# Which argument a new key is

The parameter that a key refers to is the second of the list, and the parameters before it keep
their order and their texts. It is the second argument as well, unless the list starts with a
parameter for `this`, which takes no argument; and a parameter that takes all arguments that are
left must not have another one behind.

* `Rule.ListKey.arguments`: the parameters that arguments are given for;
* `Rule.ListKey.RestLast`: whether nothing follows a parameter that takes what is left;
* `Rule.ListKey.Extends.print`: what is printed for a list with parameters that were added;
* `Rule.ListKey.repair_parameters`: the parameters after the repair.
-/

namespace JsxLint

open Node Printer

namespace Rule.ListKey

/-! ### Kinds of parameters -/

/-- What a parameter stands for, a type annotation aside. -/
def target (parameter : Node) : Node :=
  if parameter.isOther "required_parameter" || parameter.isOther "optional_parameter" then
    (parameter.part? "pattern").getD parameter
  else parameter

/-- Whether a parameter takes all arguments that are left. -/
def isRest (parameter : Node) : Bool :=
  (target parameter).isOther "rest_pattern"

/-- Whether a parameter is the one for `this`, which no argument is given for. -/
def isThis (parameter : Node) : Bool :=
  (target parameter).isOther "this"

/-- The parameters that arguments are given for. -/
def arguments (parameters : List Node) : List Node :=
  parameters.filter (!isThis ·)

/-- Whether nothing follows a parameter that takes all arguments that are left. -/
def RestLast (parameters : List Node) : Prop :=
  ∀ p ∈ parameters.dropLast, isRest p = false

variable {text : String} {forms : NodeId → String} {d : Document} {w w' : Workspace}
  {finding : Finding} {change : Change} {p k index P P' : Node} {ps qs : List Node} {name : String}
  {names ts : List String} {source : Bytes}

theorem isOther_of_isIdentifier (h : p.label.isIdentifier) (kind : String) :
    p.isOther kind = false := by
  rw [isOther.eq_def]
  cases hl : p.label with
  | other _ _ _ =>
    rw [hl] at h
    cases h
  | _ => rfl

/-- An identifier takes one argument. -/
theorem target_of_plainIdentifier? (h : plainIdentifier? p = some index) :
    isRest p = false ∧ isThis p = false := by
  have ht : target p = index ∧ index.label.isIdentifier := by
    rw [plainIdentifier?] at h
    rw [target]
    split_ifs at h with hi hp
    · cases h
      rw [isOther_of_isIdentifier hi, isOther_of_isIdentifier hi]
      exact ⟨rfl, hi⟩
    · obtain ⟨hpart, hidentifier⟩ := Option.filter_eq_some_iff.1 h
      rw [if_pos hp, hpart]
      exact ⟨rfl, hidentifier⟩
  rw [isRest, isThis, ht.1]
  exact ⟨isOther_of_isIdentifier ht.2 _, isOther_of_isIdentifier ht.2 _⟩

/-! ### Lists of parameters -/

/-- The second parameter is the second that an argument is given for, unless the first is the one
for `this`. -/
theorem arguments_second {first second : Node} (hd : (first :: second :: ps).Nodup)
    (hs : isThis second = false) :
    (arguments (first :: second :: ps))[1]? = some second ↔ isThis first = false := by
  cases hf : isThis first with
  | false =>
    rw [arguments, List.filter_cons_of_pos (by rw [hf]; rfl),
      List.filter_cons_of_pos (by rw [hs]; rfl)]
    exact ⟨fun _ => rfl, fun _ => rfl⟩
  | true =>
    rw [arguments, List.filter_cons_of_neg (by rw [hf]; decide),
      List.filter_cons_of_pos (by rw [hs]; rfl), List.getElem?_cons_succ]
    refine ⟨fun h => ?_, fun h => by cases h⟩
    have hmem := (List.mem_filter.1 (List.mem_of_getElem? h)).1
    exact absurd hmem (List.nodup_cons.1 (List.nodup_cons.1 hd).2).1

/-- A parameter that takes what is left stays the last, unless it was the only one. -/
theorem Extends.restLast_iff (h : Extends (lacking P.children) P P') :
    RestLast P'.children ↔ RestLast P.children ∧ ∀ p, P.children = [p] → isRest p = false := by
  rcases h.cases with ⟨hP, a, k, hP', ha, -⟩ | ⟨p, k, hP, hP', -⟩ | ⟨p, q, ps, hP, rfl⟩
  · rw [hP, hP']
    simp [RestLast, (target_of_plainIdentifier? ha.plainIdentifier?).1]
  · rw [hP, hP']
    simp [RestLast]
  · rw [hP]
    simp

/-- The second parameter after the repair is the second that an argument is given for, unless the
list starts with the one for `this`. -/
theorem Extends.second (h : Extends (lacking P.children) P P') (hd : P'.children.Nodup)
    (hi : ListKey.index? P'.children = some index) : ∃ second,
      P'.children[1]? = some second ∧ plainIdentifier? second = some index ∧
        ((arguments P'.children)[1]? = some second ↔
          ∀ first ∈ P.children.head?, isThis first = false) := by
  obtain ⟨second, hsecond, hplain⟩ := Option.bind_eq_some_iff.1 hi
  have hthis := (target_of_plainIdentifier? hplain).2
  refine ⟨second, hsecond, hplain, ?_⟩
  rcases h.cases with ⟨hP, a, k, hP', ha, -⟩ | ⟨p, k, hP, hP', -⟩ | ⟨p, q, ps, hP, rfl⟩
  · rw [hP'] at hd hsecond ⊢
    cases hsecond
    rw [arguments_second hd hthis, (target_of_plainIdentifier? ha.plainIdentifier?).2, hP]
    simp
  · rw [hP'] at hd hsecond ⊢
    cases hsecond
    rw [arguments_second hd hthis, hP]
    simp
  · rw [hP] at hd hsecond ⊢
    cases hsecond
    rw [arguments_second hd hthis]
    simp

/-! ### Printing -/

theorem print_parameters {parenthesized : Bool} (hl : P.label = .parameters parenthesized) :
    P.print source = parameters source P (P.children.map fun c => (c, c.print source)) := by
  rw [Node.print_eq, assemble, hl]

theorem printedAs_of_isAdded (h : List.Forall₂ IsAdded names ps) : PrintedAs source ps names := by
  induction h with
  | nil => exact .nil
  | cons hk _ ih => exact .cons (Reading.print_identifier hk.label) ih

/-- A list with parameters that were added is laid out anew, with the texts of those that were
there and the names of the new ones. -/
theorem Extends.print (h : Extends names P P') {parenthesized : Bool}
    (hl : P'.label = .parameters parenthesized) (hts : PrintedAs source P.children ts) :
    P'.print source = if names = [] then P.print source else
      .ok (Utf8.encode ("(" ++ Text.joined ", " (ts ++ names) ++ ")")) := by
  split_ifs with hn
  · rw [h.same hn]
  · obtain ⟨-, -, ⟨added, hchildren, hadded⟩, -⟩ := h
    obtain ⟨name, names, rfl⟩ := List.exists_cons_of_ne_nil hn
    have hmade : ¬(!P'.isMade &&
        (P'.children.map fun c => (c, c.print source)).all (!·.1.isMade)) = true := by
      obtain ⟨k, ks, hk, -, rfl⟩ := List.forall₂_cons_left_iff.1 hadded
      rw [hchildren]
      simp [hk.isMade]
    have htexts : PrintedAs source P'.children (ts ++ name :: names) := by
      rw [hchildren]
      exact List.rel_append hts (printedAs_of_isAdded hadded)
    rw [print_parameters hl, parameters, if_neg hmade, htexts.mapM_text]
    rfl

end Rule.ListKey

/-! ### In a round -/

/-- Repairs in a round keep a document printable. -/
theorem Document.InRound.grows {text : String} {forms : NodeId → String} {d : Document}
    {w : Workspace} (h : d.InRound w) (hp : d.Printable text forms) :
    d.Grows text forms w.document := by
  obtain ⟨new, changes, hnew, hr⟩ := h
  refine hr.invariant (I := fun w => d.Grows text forms w.document) ?_ (.refl hp)
  intro x hx repair hrepair v hv change v' hok
  exact Rule.repair_grows (hnew x hx).1 hp hv hrepair (hnew x hx).2 hok

namespace Rule.ListKey

variable {text : String} {forms : NodeId → String} {d : Document} {w w' : Workspace}
  {finding : Finding} {change : Change}

/-- The parameters after the repair are those before it, in their order and with their texts, and
behind them those that were lacking. A parameter that takes what is left is then not the last if it
was the only one. The key refers to the second parameter, which takes the second argument just when
the first one is not for `this`. -/
theorem repair_parameters (hd : d.Regular) (hp : d.Printable text forms) (hw : d.InRound w)
    (hf : finding ∈ missingKey.detect (.ofDocument d) d.root.walk)
    (hr : repair w finding = .ok (change, w')) :
    ∃ (i : Item w.document.root) (k : Keyed w'.document.root) (parts : FunctionParts)
      (ts : List String), i.element.id = finding.node ∧ k.element.id = finding.node ∧
      k.callback.id = i.callback.id ∧ i.callback.function? = some parts ∧
      Extends (lacking parts.parameters.children) parts.parameters k.parts.parameters ∧
      PrintedAs (Utf8.encode text) parts.parameters.children ts ∧
      k.parts.parameters.print (Utf8.encode text) =
        (if lacking parts.parameters.children = [] then parts.parameters.print (Utf8.encode text)
          else .ok (Utf8.encode
            ("(" ++ Text.joined ", " (ts ++ lacking parts.parameters.children) ++ ")"))) ∧
      (RestLast k.parts.parameters.children ↔ RestLast parts.parameters.children ∧
        ∀ p, parts.parameters.children = [p] → isRest p = false) ∧
      k.RefersToIndex w'.scopes ∧ ∃ second, k.parts.parameters.children[1]? = some second ∧
        plainIdentifier? second = some k.index ∧
        ((arguments k.parts.parameters.children)[1]? = some second ↔
          ∀ first ∈ parts.parameters.children.head?, isThis first = false) := by
  obtain ⟨hstep, ha⟩ := hw.step hd
  obtain ⟨-, i, -, hi, -⟩ := exists_item_of_inRound hd hw hf
  obtain ⟨k, hid, hcallback, ⟨parts, hparts, hextends⟩, -, hnoted⟩ :=
    exists_keyed hstep.sound (hd.named.alters ha) i hi hr
  have hformed := (repair_step hstep.sound hr).sound.formed
  obtain ⟨parenthesized, hlabel⟩ :=
    parameters_of_form ((hformed.root.shaped _ k.callback_mem).parameters _ k.function?)
  -- what the parameters print
  obtain ⟨_, -, -, hprintable⟩ := hw.grows hp
  have htexts : PrintsTexts (Utf8.encode text) parts.parameters.children := by
    intro p hpp
    refine print_isText fun m hm => (hprintable.ready m (Document.mem_nodes.2 (.inl ?_))).printable
    exact mem_walk_trans hm (mem_walk_trans (mem_walk_of_child (parameters_mem_children hparts)
      (child_mem_walk hpp)) i.callback_mem)
  obtain ⟨ts, hts⟩ := htexts.exists_printedAs
  have hnodup : k.parts.parameters.children.Nodup := by
    refine List.Nodup.of_map _ (nodup_children (nodup_of_child ?_
      (parameters_mem_children k.function?)))
    exact nodup_of_mem hformed.root.nodup k.callback_mem
  exact ⟨i, k, parts, ts, hi, hid, hcallback, hparts, hextends, hts, hextends.print hlabel hts,
    hextends.restLast_iff, hnoted, hextends.second hnodup k.index?⟩

end Rule.ListKey

/-! ### A parameter for `this` -/

namespace Concrete

/-- The tree of `xs.map(function (this: X, x, i) { return <b />; });`. -/
def boundThis : Concrete :=
  rule "program" 0 52 none
    [rule "expression_statement" 0 51 none
      [rule "call_expression" 0 50 none
        [rule "member_expression" 0 6 (some "function")
            [rule "identifier" 0 2 (some "object") [], token "." 2 3,
              rule "property_identifier" 3 6 (some "property") []],
          rule "arguments" 6 50 (some "arguments")
            [token "(" 6 7,
              rule "function_expression" 7 49 none
                [token "function" 7 15,
                  rule "formal_parameters" 16 31 (some "parameters")
                    [token "(" 16 17,
                      rule "required_parameter" 17 24 none
                        [rule "this" 17 21 (some "pattern") [],
                          rule "type_annotation" 21 24 (some "type")
                            [token ":" 21 22, rule "type_identifier" 23 24 none []]],
                      token "," 24 25,
                      rule "required_parameter" 26 27 none
                        [rule "identifier" 26 27 (some "pattern") []],
                      token "," 27 28,
                      rule "required_parameter" 29 30 none
                        [rule "identifier" 29 30 (some "pattern") []],
                      token ")" 30 31],
                  rule "statement_block" 32 49 (some "body")
                    [token "\x7b" 32 33,
                      rule "return_statement" 34 47 none
                        [token "return" 34 40,
                          rule "jsx_self_closing_element" 41 46 none
                            [token "<" 41 42, rule "identifier" 42 43 (some "name") [],
                              token "/>" 44 46],
                          token ";" 46 47],
                      token "\x7d" 48 49]],
              token ")" 49 50]],
        token ";" 50 51]]

end Concrete

namespace Rule.ListKey

/-- Behind a parameter for `this`, the key is the item and not the index. -/
theorem boundThis_parameters : ∃ d finding change w', Document.read
      (fun _ _ => Concrete.boundThis) "A.tsx"
      "xs.map(function (this: X, x, i) \x7b return <b />; \x7d);\n" = .ok d ∧
    d.Regular ∧ (∃ forms, d.Printable
      "xs.map(function (this: X, x, i) \x7b return <b />; \x7d);\n" forms) ∧
    finding ∈ missingKey.detect (.ofDocument d) d.root.walk ∧
    repair (.ofDocument d) finding = .ok (change, w') ∧
    ∃ k : Keyed w'.document.root, k.element.id = finding.node ∧
      ∃ second, k.parts.parameters.children[1]? = some second ∧
        plainIdentifier? second = some k.index ∧
        (arguments k.parts.parameters.children)[1]? ≠ some second := by
  have hfacts : (Document.read (fun _ _ => Concrete.boundThis) "A.tsx"
      "xs.map(function (this: X, x, i) \x7b return <b />; \x7d);\n").map (fun d =>
        (missingKey.detect (.ofDocument d) d.root.walk).any fun finding =>
        (repair (.ofDocument d) finding).toOption.any fun _ =>
        (d.node? finding.node).any fun element =>
        (d.enclosingFunction? element).any fun callback =>
        callback.function?.any fun parts =>
        parts.parameters.children.head?.any isThis) = .ok true := by decide +kernel
  obtain ⟨d, hd, hvalues⟩ := Reading.map_eq_ok.1 hfacts
  have hregular : d.Regular := .of_read (by decide +kernel) (by decide +kernel) hd
  obtain ⟨forms, hprintable⟩ := Reading.read_printable (by decide +kernel) hd
  obtain ⟨finding, hf, hvalues⟩ := List.any_eq_true.1 hvalues
  obtain ⟨⟨change, w'⟩, hr, hvalues⟩ := (Option.any_eq_true _ _).1 hvalues
  have hr := Reading.eq_ok_of_toOption hr
  obtain ⟨i, k, parts, ts, hi, hid, -, hparts, -, -, -, -, -, second, hsecond, hplain, hiff⟩ :=
    repair_parameters hregular hprintable (.start d) hf hr
  refine ⟨d, finding, change, w', hd, hregular, ⟨forms, hprintable⟩, hf, hr, k, hid, second, hsecond,
    hplain, fun hk => ?_⟩
  -- the first parameter is the one for `this`
  have hnode := hregular.formed.node?_eq i.element_mem
  rw [hi] at hnode
  have henclosing := i.enclosing hregular.formed
  simp only [hnode, henclosing, hparts, Option.any_some] at hvalues
  obtain ⟨first, hfirst, hthis⟩ := (Option.any_eq_true _ _).1 hvalues
  rw [hiff.1 hk first hfirst] at hthis
  cases hthis

end Rule.ListKey
end JsxLint
