import JsxLint.Proofs.Rule.Altered
import JsxLint.Proofs.Syntax.Returned
import JsxLint.Proofs.Text.Letter
import JsxLint.Rule.Registry

/-!
# Findings on altered trees

An altered tree has no finding that was not there before, apart from void elements that lost their
content. Most rules look at each node by itself, and then it is enough to compare a node with what
it was made from.

* `Finding.spot`: the node and the place of a finding;
* `Rule.Covers`: findings of one tree that are all findings of another one;
* `Rule.Steady`: rules that look at each node by itself and find nothing new;
* `Rule.Firm`: rules that moreover find all that they found before;
* `Rule.covers_altered`: what the rules find.
-/

namespace JsxLint

/-- The node of a finding, with its rule and place. -/
def Finding.spot (f : Finding) : NodeId × String × Int × Int :=
  (f.node, f.key)

open Node

/-! ### Nodes by label -/

section ByLabel

variable {nodes : List Node} {n : Node}

theorem mem_containers {expression : Option Node} : (n, expression) ∈ containers nodes ↔
    n ∈ nodes ∧ (∃ hasComment, n.label = .container hasComment) ∧
      expression = n.children.head?.map unwrapped := by
  rw [containers, List.mem_filterMap]
  constructor
  · rintro ⟨m, hm, hx⟩
    split at hx
    · next hasComment hl =>
      cases hx
      exact ⟨hm, ⟨hasComment, hl⟩, rfl⟩
    · cases hx
  · rintro ⟨hn, ⟨hasComment, hl⟩, rfl⟩
    exact ⟨n, hn, by rw [hl]⟩

theorem mem_attributes {text : String} {value : Option Node} : (n, text, value) ∈ attributes nodes ↔
    n ∈ nodes ∧ ∃ name, n.attribute? = some (name, value) ∧ text = name.text := by
  rw [attributes, List.mem_filterMap]
  constructor
  · rintro ⟨m, hm, hx⟩
    obtain ⟨a, ha, he⟩ := Option.map_eq_some_iff.1 hx
    cases he
    exact ⟨hm, a.1, ha, rfl⟩
  · rintro ⟨hn, name, ha, rfl⟩
    exact ⟨n, hn, by rw [ha]; rfl⟩

theorem mem_elements {parts : ElementParts} : (n, parts) ∈ elements nodes ↔
    n ∈ nodes ∧ n.element? = some parts := by
  rw [elements, List.mem_filterMap]
  constructor
  · rintro ⟨m, hm, hx⟩
    obtain ⟨p, hp, he⟩ := Option.map_eq_some_iff.1 hx
    cases he
    exact ⟨hm, hp⟩
  · rintro ⟨hn, hp⟩
    exact ⟨n, hn, by rw [hp]; rfl⟩

end ByLabel

namespace Rule

variable {cuts : Prop} {rule : Rule} {n n' n'' : Node} {w w' : Workspace} {nodes : List Node}
  {f : Finding}

/-- Whether every finding of a rule on one tree is, by node and place, a finding on another. -/
def Covers (rule : Rule) (n n' : Node) : Prop :=
  ∀ w w', ∀ f' ∈ rule.detect w' n'.walk, ∃ f ∈ rule.detect w n.walk, f.spot = f'.spot

theorem Covers.trans (h : rule.Covers n n') (h' : rule.Covers n' n'') : rule.Covers n n'' := by
  intro w w'' f'' hf''
  obtain ⟨f', hf', hs'⟩ := h' w'' w'' f'' hf''
  obtain ⟨f, hf, hs⟩ := h w w'' f' hf'
  exact ⟨f, hf, hs.trans hs'⟩

/-- Whether a rule looks at each node by itself and finds nothing new in altered trees. -/
structure Steady (cuts : Prop) (rule : Rule) : Prop where
  single : ∀ w nodes f, f ∈ rule.detect w nodes ↔ ∃ n ∈ nodes, f ∈ rule.detect w [n]
  inert : ∀ w (k : Node), k.Inert → ∀ m ∈ k.walk, rule.detect w [m] = []
  altered : ∀ {n n' : Node}, Altered cuts n n' → ∀ w w', ∀ f' ∈ rule.detect w' [n'],
    ∃ f ∈ rule.detect w [n], f.spot = f'.spot

/-- Findings at nodes with the same name and place have the same spot. -/
theorem spot_report (info : RuleInfo) (h : Altered cuts n n') (detail detail' : Option String) :
    (info.report w n detail).spot = (info.report w' n' detail').spot := by
  rw [Finding.spot, Finding.spot, Finding.key, Finding.key, RuleInfo.report, RuleInfo.report,
    h.keeps.id, h.place]

/-- A steady rule finds nothing new in altered trees. -/
theorem Steady.covers (h : rule.Steady cuts) (ha : Altered cuts n n') : rule.Covers n n' := by
  intro w w' f' hf'
  obtain ⟨m', hm', hf'⟩ := (h.single w' _ f').1 hf'
  rcases ha.mem_walk hm' with ⟨m, hm, hmm⟩ | ⟨k, hk, hm'⟩
  · obtain ⟨f, hf, hspot⟩ := h.altered hmm w w' f' hf'
    exact ⟨f, (h.single w _ _).2 ⟨m, hm, hf⟩, hspot⟩
  · rw [h.inert w' k hk m' hm'] at hf'
    cases hf'

/-- Whether a rule looks at each node by itself and finds in altered trees what it found before, no
less and no more. -/
structure Firm (cuts : Prop) (rule : Rule) : Prop where
  single : ∀ w nodes f, f ∈ rule.detect w nodes ↔ ∃ n ∈ nodes, f ∈ rule.detect w [n]
  inert : ∀ w (k : Node), k.Inert → ∀ m ∈ k.walk, rule.detect w [m] = []
  idle : ∀ w (n : Node), n.Idle → rule.detect w [n] = []
  altered : ∀ {n n' : Node}, Altered cuts n n' → ∀ w w',
    List.Forall₂ (fun f f' => f.spot = f'.spot) (rule.detect w [n]) (rule.detect w' [n'])

theorem Firm.steady (h : rule.Firm cuts) : rule.Steady cuts where
  single := h.single
  inert := h.inert
  altered ha w w' _ hf' := exists_of_forall₂ (h.altered ha w w') hf'

/-! ### Braces -/

theorem emptyExpression_steady : emptyExpression.Steady cuts where
  single w nodes f := by simp [emptyExpression, EmptyExpression.detect, and_assoc]
  inert w k hk := hk.forall_walk (by intros; rfl) (by intros; rfl) (by intros; rfl) (by intros; rfl)
  altered {n n'} h w w' f' hf' := by
    simp only [emptyExpression, EmptyExpression.detect, List.mem_map, List.mem_filter,
      List.mem_singleton] at hf' ⊢
    obtain ⟨_, ⟨rfl, he⟩, rfl⟩ := hf'
    refine ⟨_, ⟨n, ⟨rfl, ?_⟩, rfl⟩, spot_report _ h _ _⟩
    obtain ⟨⟨hasComment, hl⟩, hc⟩ := emptyContainer_leaf he
    have hn := h.label_eq hl rfl
    have hchildren := (h.around (by rw [hn]; exact Bool.false_ne_true)).2
    rw [hc, List.forall₂_nil_right_iff] at hchildren
    rw [isEmptyContainer.eq_def, hl, hc] at he
    rw [isEmptyContainer.eq_def, hn, hchildren]
    exact he

/-- What no label has that a repair edits is there when it was there before. -/
theorem label?_altered {a a' : Option Node} (h : Option.Rel (Altered cuts) a a') {l : Label}
    (hl : l.isAlterable = false) : a'.map Node.label = some l ↔ a.map Node.label = some l := by
  cases h with
  | none => exact Iff.rfl
  | some h =>
    rw [Option.map_some, Option.map_some, Option.some_inj, Option.some_inj]
    refine ⟨fun hl' => h.label_eq hl' hl, fun hl' => ?_⟩
    rw [(h.around (by rw [hl', hl]; exact Bool.false_ne_true)).1, hl']

/-- Braces stay braces, with what their expression has become. -/
theorem containers_altered (h : n.Altered cuts n') : List.Forall₂ (fun x x' =>
    Altered cuts x.1 x'.1 ∧ Option.Rel (Altered cuts) x.2 x'.2)
      (containers [n]) (containers [n']) := by
  rw [containers, containers]
  refine forall₂_filterMap (.cons h .nil) fun m _ m' h => ?_
  by_cases hl : ∃ hasComment, m.label = .container hasComment
  · obtain ⟨hasComment, hl⟩ := hl
    obtain ⟨hl', hc⟩ := h.around (by rw [hl]; exact Bool.false_ne_true)
    rw [hl', hl]
    exact .some ⟨h, rel_map (Altered.head? hc) fun _ _ h => h.unwrapped⟩
  · split
    · next hasComment hl₁ => exact absurd ⟨hasComment, hl₁⟩ hl
    · split
      · next hasComment hl' => exact absurd ⟨hasComment, h.label_eq hl' rfl⟩ hl
      · exact .none

/-- The expressions of idle braces are idle. -/
theorem idle_of_mem_containers {expression : Node} (h : n.Idle)
    (hx : (n', some expression) ∈ containers [n]) : expression.label.isIdle := by
  obtain ⟨hm, -, he⟩ := mem_containers.1 hx
  cases List.mem_singleton.1 hm
  obtain ⟨c, hc, rfl⟩ := Option.map_eq_some_iff.1 he.symm
  exact h _ (mem_walk_of_child (List.mem_of_mem_head? hc) c.unwrapped_mem_walk)

theorem nestedTernary_firm : nestedTernary.Firm cuts where
  single w nodes f := by simp [nestedTernary, containers, List.filterMap_filterMap]
  inert w k hk := hk.forall_walk (by intros; rfl) (by intros; rfl) (by intros; rfl) (by intros; rfl)
  idle w n h := by
    refine List.filterMap_eq_nil_iff.2 ?_
    rintro ⟨m, expression⟩ hx
    dsimp only
    split
    · next hc =>
      -- only a choice has a second outcome
      obtain ⟨second, hsecond, -⟩ := Option.map_eq_some_iff.1 hc
      obtain ⟨alternate, halternate, -⟩ := Option.map_eq_some_iff.1 hsecond
      obtain ⟨e, rfl, he⟩ := Option.bind_eq_some_iff.1 halternate
      have hi := idle_of_mem_containers h hx
      rw [alternate?.eq_def] at he
      split at he
      · next hl _ =>
        rw [hl] at hi
        cases hi
      · cases he
    · rfl
  altered {n n'} h w w' := by
    refine forall₂_filterMap (containers_altered h) ?_
    rintro ⟨m, e⟩ - ⟨m', e'⟩ ⟨hm, he⟩
    have hiff := label?_altered (l := .conditional)
      (rel_map (rel_bind he fun _ _ h => h.alternate?) fun _ _ h => h.unwrapped) rfl
    dsimp only
    by_cases hc : ((e.bind alternate?).map unwrapped).map Node.label = some .conditional
    · rw [hc, hiff.2 hc]
      exact .some (spot_report _ hm _ _)
    · split
      · next hc' => exact absurd hc' hc
      · split
        · next hc' => exact absurd (hiff.1 hc') hc
        · exact .none

theorem conditionalRendering_firm : conditionalRendering.Firm cuts where
  single w nodes f := by simp [conditionalRendering, containers, List.filterMap_filterMap]
  inert w k hk := hk.forall_walk (by intros; rfl) (by intros; rfl) (by intros; rfl) (by intros; rfl)
  idle w n h := by
    refine List.filterMap_eq_nil_iff.2 ?_
    rintro ⟨m, expression⟩ hx
    dsimp only
    split
    all_goals first
      | rfl
      | next hl =>
        obtain ⟨e, rfl, he⟩ := Option.map_eq_some_iff.1 hl
        have hi := idle_of_mem_containers h hx
        rw [he] at hi
        cases hi
  altered {n n'} h w w' := by
    refine forall₂_filterMap (containers_altered h) ?_
    rintro ⟨m, e⟩ - ⟨m', e'⟩ ⟨hm, he⟩
    have hchoice := label?_altered he (l := .conditional) rfl
    have hand := label?_altered he (l := .logical "&&") rfl
    dsimp only
    by_cases hc : e.map Node.label = some .conditional
    · rw [hc, hchoice.2 hc]
      exact .some (spot_report _ hm _ _)
    · by_cases ha : e.map Node.label = some (.logical "&&")
      · rw [ha, hand.2 ha]
        exact .some (spot_report _ hm _ _)
      · split
        · next hc' => exact absurd hc' hc
        · next ha' => exact absurd ha' ha
        · split
          · next hc' => exact absurd (hchoice.1 hc') hc
          · next ha' => exact absurd (hand.1 ha') ha
          · exact .none

/-! ### Attributes -/

/-- No spelling that an attribute gets is one that a rule looks for, and none is a key or raw
markup. -/
theorem spellings_apart : ∀ x ∈ Label.spellings,
    AttributeSpelling.reservedNames.lookup x.2 = none ∧
      AttributeSpelling.camelCaseNames.lookup x.2 = none ∧
      (x.1 ≠ "dangerouslySetInnerHTML" ∧ x.2 ≠ "dangerouslySetInnerHTML") ∧
      (x.1 ≠ "key" ∧ x.2 ≠ "key") := by
  decide +kernel

/-- Attributes stay attributes, each with its name, in another spelling at most. -/
theorem attributes_altered (h : n.Altered cuts n') : List.Forall₂ (fun x x' =>
    Altered cuts x.1 x'.1 ∧ (x'.2.1 = x.2.1 ∨ (x.2.1, x'.2.1) ∈ Label.spellings) ∧
      Option.Rel (Altered cuts) x.2.2 x'.2.2) (attributes [n]) (attributes [n']) := by
  rw [attributes, attributes]
  exact forall₂_filterMap (.cons h .nil) fun m _ m' h =>
    rel_map h.attribute? fun _ _ ⟨hname, hs, hvalue⟩ => ⟨h, hname.text_spelled hs, hvalue⟩

/-- An idle node is no attribute. -/
theorem attributes_of_idle (h : n.Idle) : attributes [n] = [] := by
  refine List.eq_nil_iff_forall_not_mem.2 fun ⟨m, name, value⟩ hx => ?_
  obtain ⟨hm, _, ha, -⟩ := mem_attributes.1 hx
  cases List.mem_singleton.1 hm
  have hi := h n n.self_mem_walk
  rw [label_of_attribute? ha] at hi
  cases hi

/-- The name of an attribute in an altered tree. -/
theorem attribute_altered {name' : Node} {value' : Option Node} (h : n.Altered cuts n')
    (ha : n'.attribute? = some (name', value')) : ∃ name value,
      n.attribute? = some (name, value) ∧ Option.Rel (Altered cuts) value value' ∧
        (name'.text = name.text ∨ (name.text, name'.text) ∈ Label.spellings) := by
  have hrel := h.attribute?
  rw [ha] at hrel
  cases hn : n.attribute? with
  | none => rw [hn] at hrel; cases hrel
  | some a =>
    rw [hn] at hrel
    obtain ⟨hname, hspelled, hvalue⟩ := Option.rel_some_some.1 hrel
    exact ⟨a.1, a.2, rfl, hvalue, hname.text_spelled hspelled⟩

theorem attributeSpelling_steady {info : RuleInfo} {names : List (String × String)}
    (hkey : names.lookup "key" = none)
    (hnames : ∀ x ∈ Label.spellings, names.lookup x.2 = none) :
    (AttributeSpelling.rule info names).Steady cuts where
  single w nodes f := by
    simp [AttributeSpelling.rule, AttributeSpelling.detect, attributes, List.filterMap_filterMap]
  inert w k hk := hk.forall_walk (by intros; rfl)
    (by
      intros
      show (if (names.lookup "key").isSome then _ else none).toList = []
      rw [hkey]
      rfl)
    (by intros; rfl) (by intros; rfl)
  altered {n n'} h w w' f' hf' := by
    obtain ⟨⟨_, text', value'⟩, hx, hf'⟩ := List.mem_filterMap.1 hf'
    obtain ⟨hn, name', ha', rfl⟩ := mem_attributes.1 hx
    cases List.mem_singleton.1 hn
    obtain ⟨name, value, ha, -, htext⟩ := attribute_altered h ha'
    dsimp only at hf'
    split_ifs at hf' with hlookup
    cases hf'
    have he : name'.text = name.text := by
      refine htext.resolve_right fun hmem => ?_
      rw [hnames _ hmem] at hlookup
      cases hlookup
    exact ⟨_, List.mem_filterMap.2 ⟨(n, name.text, value),
      mem_attributes.2 ⟨List.mem_singleton.2 rfl, name, ha, rfl⟩, if_pos (he ▸ hlookup)⟩,
      spot_report _ h _ _⟩

theorem reservedProp_steady : reservedProp.Steady cuts :=
  attributeSpelling_steady (by decide) fun x hx => (spellings_apart x hx).1

theorem camelCaseAttribute_steady : camelCaseAttribute.Steady cuts :=
  attributeSpelling_steady (by decide) fun x hx => (spellings_apart x hx).2.1

/-- The attributes among some nodes whose value is in the given quotes. -/
def quoted (quote : String) (nodes : List Node) : List Node :=
  (attributes nodes).filterMap fun (n, _, value) =>
    if quoteOf? value == some quote then some n else none

theorem quoted_append (quote : String) (ms ns : List Node) :
    quoted quote (ms ++ ns) = quoted quote ms ++ quoted quote ns := by
  rw [quoted, attributes, List.filterMap_append, List.filterMap_append]
  rfl

theorem quoted_singleton (quote : String) (n : Node) : quoted quote [n] =
    n.attribute?.toList.flatMap fun a => if quoteOf? a.2 == some quote then [n] else [] := by
  simp only [quoted, attributes, List.filterMap_cons, List.filterMap_nil]
  cases n.attribute? with
  | none => rfl
  | some a =>
    simp only [Option.map_some, List.filterMap_cons, List.filterMap_nil, Option.toList_some,
      List.flatMap_singleton]
    split_ifs <;> rfl

theorem quoted_flatMap (quote : String) (ns : List Node) :
    quoted quote (ns.flatMap walk) = ns.flatMap fun n => quoted quote n.walk := by
  induction ns with
  | nil => rfl
  | cons n ns ih => rw [List.flatMap_cons, List.flatMap_cons, quoted_append, ih]

theorem quoted_eq_nil {quote : String} (h : ∀ n ∈ nodes, quoted quote [n] = []) :
    quoted quote nodes = [] := by
  induction nodes with
  | nil => rfl
  | cons n nodes ih =>
    rw [← List.singleton_append, quoted_append, h n List.mem_cons_self,
      ih fun m hm => h m (List.mem_cons_of_mem _ hm)]
    rfl

theorem quoteOf?_altered {value value' : Option Node} (h : Option.Rel (Altered cuts) value value') :
    quoteOf? value' = quoteOf? value := by
  cases h with
  | none => rfl
  | @some v v' h =>
    have hnone : ∀ v : Node, v.label.isAlterable → quoteOf? (some v) = none := by
      intro v hv
      rw [quoteOf?.eq_def, Option.map_some]
      cases hl : v.label <;> first
        | rfl
        | (rw [hl] at hv; cases hv)
    by_cases ha : v.label.isAlterable
    · rw [hnone v ha, hnone v' (h.isAlterable.trans ha)]
    · rw [quoteOf?.eq_def, quoteOf?.eq_def, Option.map_some, Option.map_some, (h.around ha).1]

/-- Attributes keep their quotes. -/
theorem quoted_altered (quote : String) (h : n.Altered cuts n') :
    List.Forall₂ (Altered cuts) (quoted quote n.walk) (quoted quote n'.walk) := by
  induction n using induct generalizing n' with
  | step n ih =>
    rw [walk_eq, walk_eq n', ← List.singleton_append, ← List.singleton_append (x := n'),
      quoted_append, quoted_append, quoted_flatMap, quoted_flatMap]
    refine List.rel_append ?_ (Altered.flatMap_children (Altered.refl cuts) (fun k hk => ?_)
      (fun k hk => ?_) h fun c hc c' hcc => ih c hc hcc)
    · have hrel := h.attribute?
      rw [quoted_singleton, quoted_singleton]
      cases ha : n.attribute? <;> cases ha' : n'.attribute? <;> rw [ha, ha'] at hrel
      · exact .nil
      · cases hrel
      · cases hrel
      · rw [Option.toList_some, Option.toList_some, List.flatMap_singleton, List.flatMap_singleton,
          quoteOf?_altered (Option.rel_some_some.1 hrel).2.2]
        split_ifs
        · exact .cons h .nil
        · exact .nil
    · exact quoted_eq_nil (hk.forall_walk (by intros; rfl) (by intros; rfl) (by intros; rfl)
        (by intros; rfl))
    · refine quoted_eq_nil fun m hm => ?_
      have hi := hk m hm
      rw [quoted_singleton, attribute?.eq_def]
      split
      · next hl _ =>
        rw [hl] at hi
        cases hi
      · rfl

/-- The attribute that is reported for its quotes stays the same one. -/
theorem quoteConsistency_altered (h : n.Altered cuts n') (w w' : Workspace) :
    List.Forall₂ (fun f f' => f.spot = f'.spot) (quoteConsistency.detect w n.walk)
      (quoteConsistency.detect w' n'.walk) := by
  have hdetect : ∀ w nodes, quoteConsistency.detect w nodes =
      if (quoted "'" nodes).isEmpty || (quoted "\"" nodes).isEmpty then [] else
        ((if (quoted "\"" nodes).length < (quoted "'" nodes).length then quoted "\"" nodes
          else quoted "'" nodes).take 1).map fun n => quoteConsistency.report w n
            (some ("Mixed quotes: " ++ toString (quoted "'" nodes).length ++ " single, " ++
              toString (quoted "\"" nodes).length ++ " double")) := fun _ _ => rfl
  have hs := quoted_altered "'" h
  have hd := quoted_altered "\"" h
  have hempty : ∀ {l l' : List Node}, List.Forall₂ (Altered cuts) l l' →
      l'.isEmpty = l.isEmpty := fun h => by cases h <;> rfl
  have hhead : ∀ {l l' : List Node}, List.Forall₂ (Altered cuts) l l' → ∀ detail,
      List.Forall₂ (fun f f' => f.spot = f'.spot)
        ((l.take 1).map fun n => quoteConsistency.report w n detail)
        ((l'.take 1).map fun n => quoteConsistency.report w' n detail) := by
    intro l l' h detail
    cases h with
    | nil => exact .nil
    | cons h _ => exact .cons (spot_report _ h _ _) .nil
  rw [hdetect, hdetect, hempty hs, hempty hd, ← hs.length_eq, ← hd.length_eq]
  split_ifs
  · exact .nil
  · exact hhead hd _
  · exact hhead hs _

theorem dangerousHtml_firm : dangerousHtml.Firm cuts where
  single w nodes f := by simp [dangerousHtml, attributes, List.filterMap_filterMap]
  inert w k hk := hk.forall_walk (by intros; rfl) (by intros; rfl) (by intros; rfl) (by intros; rfl)
  idle w n h := congrArg (List.filterMap _) (attributes_of_idle h)
  altered {n n'} h w w' := by
    refine forall₂_filterMap (attributes_altered h) fun ⟨m, name, _⟩ _ ⟨m', name', _⟩ hx => ?_
    obtain ⟨hm, hname, -⟩ := hx
    have hiff : name' = "dangerouslySetInnerHTML" ↔ name = "dangerouslySetInnerHTML" := by
      rcases hname with he | hx
      · rw [show name' = name from he]
      · obtain ⟨hold, hnew⟩ := (spellings_apart _ hx).2.2.1
        exact ⟨fun he => absurd he hnew, fun he => absurd he hold⟩
    dsimp only
    rw [if_congr hiff rfl rfl]
    split_ifs
    · exact .some (spot_report _ hm _ _)
    · exact .none

theorem propsSpreading_firm : propsSpreading.Firm cuts where
  single w nodes f := by simp [propsSpreading, and_assoc]
  inert w k hk := hk.forall_walk (by intros; rfl) (by intros; rfl) (by intros; rfl) (by intros; rfl)
  idle w n h := by
    refine List.map_eq_nil_iff.2 (List.filter_eq_nil_iff.2 fun m hm hl => ?_)
    cases List.mem_singleton.1 hm
    have hi := h n n.self_mem_walk
    rw [beq_iff_eq.1 hl] at hi
    cases hi
  altered {n n'} h w w' := by
    have hl : (n'.label == .spreadAttribute) = (n.label == .spreadAttribute) :=
      h.label_congr (q := (· == .spreadAttribute)) fun l hl => by
        cases l <;> first | rfl | cases hl
    simp only [propsSpreading, List.filter_cons, List.filter_nil, hl]
    split_ifs
    · exact .cons (spot_report _ h _ _) .nil
    · exact .nil

theorem inlineFunction_firm : inlineFunction.Firm cuts where
  single w nodes f := by simp [inlineFunction, attributes, List.filterMap_filterMap]
  inert w k hk := hk.forall_walk (by intros; rfl) (by intros; rfl) (by intros; rfl) (by intros; rfl)
  idle w n h := congrArg (List.filterMap _) (attributes_of_idle h)
  altered {n n'} h w w' := by
    refine forall₂_filterMap (attributes_altered h) fun ⟨m, _, value⟩ _ ⟨m', _, value'⟩ hx => ?_
    obtain ⟨hm, -, hvalue⟩ := hx
    have hbraces : List.Forall₂ (fun x x' => Altered cuts x.1 x'.1 ∧
        Option.Rel (Altered cuts) x.2 x'.2)
          (containers value.toList) (containers value'.toList) := by
      cases hvalue with
      | none => exact .nil
      | some h => exact containers_altered h
    dsimp only
    generalize containers value.toList = l, containers value'.toList = l' at hbraces
    cases hbraces with
    | nil => exact .none
    | @cons x x' _ _ hx hrest =>
      obtain ⟨braces, e⟩ := x
      obtain ⟨braces', e'⟩ := x'
      obtain ⟨-, he⟩ := hx
      cases hrest with
      | cons _ _ => cases e <;> cases e' <;> exact .none
      | nil =>
        cases he with
        | none => exact .none
        | some he =>
          dsimp only
          rw [he.isFunctionValue]
          split_ifs
          · exact .some (spot_report _ hm _ _)
          · exact .none

/-! ### Elements -/

theorem fragment_of_form {l : Label} (h : l.form = "JSXFragment") :
    ∃ removed, l = .fragment removed := by
  cases l <;> first | exact ⟨_, rfl⟩ | simp [Label.form] at h

/-- The name of an element in an altered tree. -/
theorem name_altered {parts' : ElementParts} {name' : Node} (h : n.Altered cuts n')
    (hp : n'.element? = some parts') (hn : parts'.name? = some name') : ∃ parts name,
      n.element? = some parts ∧ parts.name? = some name ∧ name.Altered cuts name' ∧
      (name.label.name?.isSome → name.label.Spelled name'.label) := by
  obtain ⟨parts, hparts, ho, -⟩ := h.element? hp
  obtain ⟨o', ho', rfl⟩ := Option.map_eq_some_iff.1 hn
  have hrel := ho.opening?
  rw [ho'] at hrel
  cases hopening : parts.opening.opening? with
  | none => rw [hopening] at hrel; cases hrel
  | some o =>
    rw [hopening] at hrel
    obtain ⟨hname, hspelled, -⟩ := Option.rel_some_some.1 hrel
    exact ⟨parts, o.1, hparts, by rw [ElementParts.name?, hopening]; rfl, hname, hspelled⟩

theorem namesFragment_altered {name name' : Node} (h : name.Altered cuts name')
    (hs : name.label.name?.isSome → name.label.Spelled name'.label) (hf : namesFragment name') :
    namesFragment name := by
  have hsame : name'.label = name.label := by
    rw [namesFragment.eq_def] at hf
    split at hf
    · next hl =>
      have hform := h.keeps.form
      rw [hl] at hform
      rcases hs ((Label.name?_isSome_iff _).2 (.inl hform.symm)) with he | ⟨_, _, -, -, hl'⟩
      · exact he
      · cases hl.symm.trans hl'
    · next hl => rw [hl, h.label_eq hl rfl]
    · cases hf
  rw [namesFragment.eq_def, hsame] at hf
  rw [namesFragment.eq_def]
  exact hf

theorem fragmentUsage_steady : fragmentUsage.Steady cuts where
  single w nodes f := by
    simp only [fragmentUsage, List.mem_map, List.mem_append, List.mem_filter, Prod.exists,
      mem_elements, List.mem_singleton]
    grind
  inert w k hk := hk.forall_walk (by intros; rfl) (by intros; rfl) (by intros; rfl) (by intros; rfl)
  altered {n n'} h w w' f' hf' := by
    obtain ⟨_, hm, rfl⟩ := List.mem_map.1 hf'
    rcases List.mem_append.1 hm with hm | hm
    · obtain ⟨hm, hf⟩ := List.mem_filter.1 hm
      cases List.mem_singleton.1 hm
      refine ⟨_, List.mem_map.2 ⟨n, List.mem_append_left _ (List.mem_filter.2
        ⟨List.mem_singleton.2 rfl, ?_⟩), rfl⟩, spot_report _ h _ _⟩
      split at hf
      · next hl =>
        obtain ⟨removed, hl⟩ := fragment_of_form (h.keeps.form.symm.trans (congrArg Label.form hl))
        rw [hl]
      · cases hf
    · obtain ⟨⟨m, parts'⟩, hx, rfl⟩ := List.mem_map.1 hm
      obtain ⟨hx, hf⟩ := List.mem_filter.1 hx
      obtain ⟨hm, hp⟩ := mem_elements.1 hx
      cases List.mem_singleton.1 hm
      obtain ⟨name', hname', hf⟩ := (Option.any_eq_true _ _).1 hf
      obtain ⟨parts, name, hparts, hname, hnn, hs⟩ := name_altered h hp hname'
      refine ⟨_, List.mem_map.2 ⟨n, List.mem_append_right _ (List.mem_map.2 ⟨(n, parts),
        List.mem_filter.2 ⟨mem_elements.2 ⟨List.mem_singleton.2 rfl, hparts⟩, ?_⟩, rfl⟩), rfl⟩,
        spot_report _ h _ _⟩
      dsimp only
      rw [hname]
      exact namesFragment_altered hnn hs hf

/-- No spelling that an attribute gets is a void tag. -/
theorem spellings_notVoid : ∀ x ∈ Label.spellings,
    VoidElement.voidTags.contains (Letter.lower x.2) = false := by
  -- void tags are short, and lower case makes no text shorter
  have hshort : ∀ tag ∈ VoidElement.voidTags, tag.toList.length ≤ 6 := by decide +kernel
  have hlong : ∀ x ∈ Label.spellings, 6 < x.2.toList.length ∨
      VoidElement.voidTags.contains (Letter.lower x.2) = false := by decide +kernel
  intro x hx
  refine (hlong x hx).elim (fun hl => ?_) id
  rw [List.contains_eq_any_beq, List.any_eq_false]
  intro tag htag he
  have hlength := Letter.length_lower x.2
  rw [beq_iff_eq.1 he] at hlength
  have := hshort tag htag
  omega

theorem isVoidName_altered {name name' : Node} (h : name.Altered cuts name')
    (hs : name.label.name?.isSome → name.label.Spelled name'.label)
    (hv : VoidElement.isVoidName name') : VoidElement.isVoidName name := by
  rw [VoidElement.isVoidName.eq_def] at hv
  split at hv
  · next tag hl =>
    have hform := h.keeps.form
    rw [hl] at hform
    rcases hs ((Label.name?_isSome_iff _).2 (.inr hform.symm)) with he | ⟨_, _, hx, -, hl'⟩
    · rw [VoidElement.isVoidName.eq_def, ← he, hl]
      exact hv
    · cases hl.symm.trans hl'
      rw [spellings_notVoid _ hx] at hv
      cases hv
  · cases hv

theorem isSelfClosing_of_element? {parts : ElementParts} (hp : n.element? = some parts) :
    n.isSelfClosing = (parts.opening.label == .openingTag true) := by
  obtain ⟨isClosed, removed, hl⟩ := label_of_element? hp
  rw [isSelfClosing.eq_def, hl]
  dsimp only
  rw [hp]

theorem isBlankText_altered (h : n.Altered cuts n') (hb : n'.isBlankText) : n.isBlankText := by
  rw [Node.isBlankText.eq_def] at hb ⊢
  split at hb
  · next text hl =>
    rw [h.label_eq hl rfl]
    exact hb
  · cases hb

/-- Without cuts, no element is empty that was not. -/
theorem selfClosingTag_steady (hcuts : ¬cuts) : selfClosingTag.Steady cuts where
  single w nodes f := by
    simp [selfClosingTag, VoidElement.detect, elements, List.filterMap_filterMap]
  inert w k hk := hk.forall_walk (by intros; rfl) (by intros; rfl) (by intros; rfl) (by intros; rfl)
  altered {n n'} h w w' f' hf' := by
    obtain ⟨⟨m, parts'⟩, hx, hf'⟩ := List.mem_filterMap.1 hf'
    obtain ⟨hm, hp⟩ := mem_elements.1 hx
    cases List.mem_singleton.1 hm
    dsimp only at hf'
    split_ifs at hf' with hfound
    cases hf'
    simp only [Bool.and_eq_true, Bool.not_eq_true'] at hfound
    obtain ⟨⟨hvoid, hopen⟩, hblank⟩ := hfound
    obtain ⟨name', hname', hvoid⟩ := (Option.any_eq_true _ _).1 hvoid
    obtain ⟨parts, name, hparts, hname, hnn, hs⟩ := name_altered h hp hname'
    obtain ⟨parts₁, hparts₁, ho, hcontent⟩ := h.element? hp
    rw [hparts] at hparts₁
    cases hparts₁
    rw [isSelfClosing_of_element? hp, beq_eq_false_iff_ne] at hopen
    refine ⟨_, List.mem_filterMap.2 ⟨(n, parts),
      mem_elements.2 ⟨List.mem_singleton.2 rfl, hparts⟩, if_pos ?_⟩, spot_report _ h _ _⟩
    simp only [Bool.and_eq_true, Bool.not_eq_true', isSelfClosing_of_element? hparts,
      beq_eq_false_iff_ne]
    refine ⟨⟨?_, fun hl => hopen (ho.selfClosing hl)⟩, ?_⟩
    · rw [hname]
      exact isVoidName_altered hnn hs hvoid
    · have hcontent := (hcontent.resolve_left hcuts).resolve_left hopen
      refine List.all_eq_true.2 fun c hc => ?_
      obtain ⟨c', hc', hcc⟩ := exists_of_forall₂ hcontent.flip hc
      exact isBlankText_altered hcc (List.all_eq_true.1 hblank c' hc')

/-! ### Functions -/

theorem mapCallback?_altered {f' : Node} (h : n.Altered cuts n')
    (hf : ListKey.mapCallback? n' = some f') :
    ∃ f, ListKey.mapCallback? n = some f ∧ f.Altered cuts f' := by
  rw [ListKey.mapCallback?.eq_def] at hf
  split at hf
  · next callee' first' rest' hc' =>
    split_ifs at hf with hcall
    cases hf
    rw [Bool.and_eq_true, decide_eq_true_iff] at hcall
    have hrel := h.call?
    rw [hc'] at hrel
    cases hc : n.call? with
    | none => rw [hc] at hrel; cases hrel
    | some call =>
      rw [hc] at hrel
      obtain ⟨hcallee, harguments⟩ := Option.rel_some_some.1 hrel
      obtain ⟨callee, arguments⟩ := call
      cases harguments with
      | @cons first _ rest _ hfirst _ =>
        refine ⟨first.unwrapped, ?_, hfirst.unwrapped⟩
        rw [ListKey.mapCallback?, hc]
        dsimp only
        rw [if_pos]
        rw [Bool.and_eq_true, decide_eq_true_iff]
        exact ⟨hcallee.label_eq hcall.1 rfl, hfirst.unwrapped.isFunctionValue.symm.trans hcall.2⟩
  · cases hf

/-- An opening tag keeps its `key`. -/
theorem findKey_altered {opening opening' : Node} (h : opening.Altered cuts opening')
    (hk : (opening.findAttribute? "key").isSome) : (opening'.findAttribute? "key").isSome := by
  obtain ⟨a, ha⟩ := Option.isSome_iff_exists.1 hk
  rw [findAttribute?] at ha
  obtain ⟨⟨tag, attributes⟩, ho, ha⟩ := Option.bind_eq_some_iff.1 ha
  have hmem := List.mem_of_find?_eq_some ha
  have hkey := List.find?_some ha
  rw [beq_iff_eq] at hkey
  obtain ⟨⟨name, value⟩, hname, hkey⟩ := Option.map_eq_some_iff.1 hkey
  have hrel := h.opening?
  rw [ho] at hrel
  cases ho' : opening'.opening? with
  | none => rw [ho'] at hrel; cases hrel
  | some o' =>
    rw [ho'] at hrel
    obtain ⟨-, -, hattributes⟩ := Option.rel_some_some.1 hrel
    obtain ⟨a', ha', haa⟩ := hattributes a hmem
    have hrel := haa.attribute?
    rw [hname] at hrel
    cases hname' : a'.attribute? with
    | none => rw [hname'] at hrel; cases hrel
    | some attribute' =>
      rw [hname'] at hrel
      obtain ⟨hn, hs, -⟩ := Option.rel_some_some.1 hrel
      have htext : attribute'.1.text = name.text :=
        (hn.text_spelled hs).resolve_right fun hx => (spellings_apart _ hx).2.2.2.1 hkey
      rw [findAttribute?, ho', Option.bind_some, List.find?_isSome]
      refine ⟨a', ha', ?_⟩
      rw [hname', Option.map_some, htext]
      exact beq_iff_eq.2 (congrArg some hkey)

theorem missingKey_steady : missingKey.Steady cuts where
  single w nodes f := by
    simp only [missingKey, ListKey.detect, List.mem_flatMap, List.mem_filterMap, List.mem_singleton]
    grind
  inert w k hk := hk.forall_walk (by intros; rfl) (by intros; rfl) (by intros; rfl) (by intros; rfl)
  altered {n n'} h w w' f' hf' := by
    obtain ⟨callback', hc', hf'⟩ := List.mem_flatMap.1 hf'
    obtain ⟨_, hm, hc'⟩ := List.mem_filterMap.1 hc'
    cases List.mem_singleton.1 hm
    obtain ⟨m', hm', rfl⟩ := List.mem_map.1 hf'
    obtain ⟨hm', hkey⟩ := List.mem_filter.1 hm'
    obtain ⟨hm', helement⟩ := List.mem_filter.1 hm'
    obtain ⟨callback, hc, hcc⟩ := mapCallback?_altered h hc'
    obtain ⟨m, hm, hmm⟩ := exists_of_forall₂ hcc.returned hm'
    obtain ⟨parts', hp'⟩ := Option.isSome_iff_exists.1 helement
    obtain ⟨parts, hp, ho, -⟩ := hmm.element? hp'
    refine ⟨_, List.mem_flatMap.2 ⟨callback, List.mem_filterMap.2 ⟨n, List.mem_singleton.2 rfl, hc⟩,
      List.mem_map.2 ⟨m, List.mem_filter.2 ⟨List.mem_filter.2 ⟨hm, by rw [hp]; rfl⟩, ?_⟩, rfl⟩⟩,
      spot_report _ hmm _ _⟩
    rw [Bool.not_eq_true', ListKey.hasKey, hp', Option.bind_some] at hkey
    rw [Bool.not_eq_true', ListKey.hasKey, hp, Option.bind_some, ← Bool.not_eq_true]
    exact fun hk => Bool.false_ne_true (hkey.symm.trans (findKey_altered ho hk))

theorem spellings_startLower : ∀ x ∈ Label.spellings, Letter.startsLower x.1 := by
  decide +kernel

/-- A name that starts with a small letter did so before. -/
theorem startsLower_altered {name name' : Node} (h : name.Altered cuts name')
    (hl : Letter.startsLower name'.text) : Letter.startsLower name.text := by
  rcases h.text with he | he | hx
  · rwa [he] at hl
  · rw [he] at hl
    rwa [Letter.capitalise_of_startsLower hl] at hl
  · exact spellings_startLower _ hx

theorem isMarkup_iff (l : Label) : l.isMarkup ↔ l.form = "JSXElement" ∨ l.form = "JSXFragment" := by
  cases l <;> simp [Label.isMarkup, Label.form]

theorem returnsMarkup_altered {f f' : Node} (h : f.Altered cuts f') :
    f'.returnsMarkup = f.returnsMarkup := by
  have hsame : ∀ {m m' : Node}, Altered cuts m m' → (m'.label.isMarkup ↔ m.label.isMarkup) :=
    fun h => by rw [isMarkup_iff, isMarkup_iff, h.keeps.form]
  rw [returnsMarkup, returnsMarkup, Bool.eq_iff_iff, List.any_eq_true, List.any_eq_true]
  constructor
  · rintro ⟨m', hm', hl⟩
    obtain ⟨m, hm, hmm⟩ := exists_of_forall₂ h.returned hm'
    exact ⟨m, hm, (hsame hmm).1 hl⟩
  · rintro ⟨m, hm, hl⟩
    obtain ⟨m', hm', hmm⟩ := exists_of_forall₂ h.returned.flip hm
    exact ⟨m', hm', (hsame hmm).2 hl⟩

/-- The function that a node gives a name to, with the name. -/
def NamesAltered (cuts : Prop) (x x' : Node × Node) : Prop :=
  Altered cuts x.1 x'.1 ∧ Altered cuts x.2 x'.2

theorem declaredFunction?_altered (h : n.Altered cuts n') : Option.Rel (NamesAltered cuts)
    (ComponentName.declaredFunction? n) (ComponentName.declaredFunction? n') := by
  by_cases hl : ∃ hasName, n.label = .functionDeclaration hasName
  · obtain ⟨hasName, hl⟩ := hl
    have hl' := (h.around (by rw [hl]; exact Bool.false_ne_true)).1.trans hl
    rw [ComponentName.declaredFunction?.eq_def, ComponentName.declaredFunction?.eq_def n', hl, hl']
    exact rel_map (rel_bind h.function? fun _ _ h => h.1) fun _ _ hname => ⟨hname, h⟩
  · have hnone : ∀ m : Node, (¬∃ hasName, m.label = .functionDeclaration hasName) →
        ComponentName.declaredFunction? m = none := by
      intro m hm
      rw [ComponentName.declaredFunction?.eq_def]
      split
      · next hasName hl => exact absurd ⟨hasName, hl⟩ hm
      · rfl
    rw [hnone n hl, hnone n' fun ⟨hasName, hl'⟩ => hl ⟨hasName, h.label_eq hl' rfl⟩]
    exact .none

theorem assignedFunction?_altered (h : n.Altered cuts n') : Option.Rel (NamesAltered cuts)
    (ComponentName.assignedFunction? n) (ComponentName.assignedFunction? n') := by
  have hrel := h.declarator?
  rw [ComponentName.assignedFunction?, ComponentName.assignedFunction?]
  cases hd : n.declarator? <;> cases hd' : n'.declarator? <;> rw [hd, hd'] at hrel
  · exact .none
  · cases hrel
  · cases hrel
  · next x x' =>
    obtain ⟨name, value⟩ := x
    obtain ⟨name', value'⟩ := x'
    obtain ⟨hname, hvalue⟩ := Option.rel_some_some.1 hrel
    cases hvalue with
    | none => exact .none
    | @some value value' hvalue =>
      have hidentifier : name'.label.isIdentifier = name.label.isIdentifier := by
        rw [Bool.eq_iff_iff, Label.isIdentifier_iff, Label.isIdentifier_iff, hname.keeps.form]
      dsimp only
      rw [hidentifier, hvalue.unwrapped.isFunctionValue]
      split_ifs
      · exact .some ⟨hname, hvalue.unwrapped⟩
      · exact .none

theorem namedFunctions_altered (h : n.Altered cuts n') : List.Forall₂ (NamesAltered cuts)
    (ComponentName.namedFunctions [n]) (ComponentName.namedFunctions [n']) :=
  List.rel_append (forall₂_filterMap (.cons h .nil) fun _ _ _ h => declaredFunction?_altered h)
    (forall₂_filterMap (.cons h .nil) fun _ _ _ h => assignedFunction?_altered h)

theorem componentNaming_steady : componentNaming.Steady cuts where
  single w nodes f := by
    simp only [componentNaming, ComponentName.detect, ComponentName.namedFunctions,
      List.mem_filterMap, List.mem_append, List.mem_singleton]
    grind
  inert w k hk := hk.forall_walk (by intros; rfl) (by intros; rfl) (by intros; rfl) (by intros; rfl)
  altered {n n'} h w w' f' hf' := by
    obtain ⟨⟨name', func'⟩, hx, hf'⟩ := List.mem_filterMap.1 hf'
    dsimp only at hf'
    split_ifs at hf' with hfound
    cases hf'
    rw [Bool.and_eq_true] at hfound
    obtain ⟨⟨name, func⟩, hin, hnn, hff⟩ := exists_of_forall₂ (namedFunctions_altered h) hx
    refine ⟨_, List.mem_filterMap.2 ⟨_, hin, if_pos ?_⟩, spot_report _ hnn _ _⟩
    rw [Bool.and_eq_true, ← returnsMarkup_altered hff]
    exact ⟨startsLower_altered hnn hfound.1, hfound.2⟩

/-! ### All rules that do not look at scopes -/

/-- Rules that do not look at scopes find nothing new in an altered tree, but for void elements that
lost their content. -/
theorem covers_altered (hrule : rule ∈ all) (hscopes : rule ≠ safeInterpolation)
    (hcuts : rule = selfClosingTag → ¬cuts) (h : n.Altered cuts n') : rule.Covers n n' := by
  simp only [all, List.mem_cons, List.not_mem_nil, or_false] at hrule
  rcases hrule with rfl | rfl | rfl | rfl | rfl | rfl | rfl | rfl | rfl | rfl | rfl | rfl | rfl | rfl
  · exact emptyExpression_steady.covers h
  · exact nestedTernary_firm.steady.covers h
  · exact conditionalRendering_firm.steady.covers h
  · exact fun w w' _ hf' => exists_of_forall₂ (quoteConsistency_altered h w w') hf'
  · exact reservedProp_steady.covers h
  · exact camelCaseAttribute_steady.covers h
  · exact dangerousHtml_firm.steady.covers h
  · exact absurd rfl hscopes
  · exact (selfClosingTag_steady (hcuts rfl)).covers h
  · exact fragmentUsage_steady.covers h
  · exact missingKey_steady.covers h
  · exact componentNaming_steady.covers h
  · exact propsSpreading_firm.steady.covers h
  · exact inlineFunction_firm.steady.covers h

end Rule
end JsxLint
