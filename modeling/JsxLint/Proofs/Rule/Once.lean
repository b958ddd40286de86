import JsxLint.Proofs.Rule.Items
import JsxLint.Proofs.Rule.Settled

/-!
# One finding a node

In one detection a rule reports no node twice, by whatever way it comes to its nodes, and all nodes
that it reports have one mark.

* `Rule.Spotted`: the node that a finding is about, with its mark;
* `Rule.Once`: a rule that reports marked nodes, each of them once;
* `Rule.exists_once`: every rule does.
-/

namespace JsxLint

open Node

namespace Rule

variable {rule : Rule} {mark : Mark} {d : Document} {f : Finding}

/-- Whether a finding of a rule is about a node with a mark, at its place. A name that is reported is
not empty. -/
structure Spotted (rule : Rule) (mark : Mark) (n : Node) (f : Finding) : Prop where
  marked : n.label.mark? = some mark
  named : mark = .name → n.text ≠ ""
  node : f.node = n.id
  key : f.key = (rule.id, (n.place.position.line : Int), (n.place.position.column : Int))

/-- Whether what a rule finds in a document is about marked nodes of its tree, and each finding about
another one. -/
def Once (rule : Rule) (mark : Mark) (d : Document) : Prop :=
  ∃ ns : List Node, ns ⊆ d.root.walk ∧ ns.Nodup ∧
    List.Forall₂ (rule.Spotted mark) ns (rule.detect (.ofDocument d) d.root.walk)

theorem Once.exists_spotted (h : rule.Once mark d)
    (hf : f ∈ rule.detect (.ofDocument d) d.root.walk) :
    ∃ n ∈ d.root.walk, rule.Spotted mark n f := by
  obtain ⟨ns, hin, -, hns⟩ := h
  obtain ⟨n, hn, hspotted⟩ := exists_of_forall₂ hns hf
  exact ⟨n, hin hn, hspotted⟩

/-- No node is reported twice. -/
theorem Once.nodup (h : rule.Once mark d) (hd : d.WellFormed) :
    ((rule.detect (.ofDocument d) d.root.walk).map (·.node)).Nodup := by
  obtain ⟨ns, hin, hnodup, hns⟩ := h
  have hnodes : ∀ {ns fs}, List.Forall₂ (rule.Spotted mark) ns fs →
      fs.map (·.node) = ns.map (·.id) := by
    intro ns fs h
    induction h with
    | nil => rfl
    | cons h _ ih => rw [List.map_cons, List.map_cons, h.node, ih]
  rw [hnodes hns]
  exact hnodup.map_on fun m hm n hn he => eq_of_id_eq hd.root.nodup (hin hm) (hin hn) he

/-! ### Ways to come to nodes -/

section Ways

variable {α β : Type} {l : List α} {nodes : List Node}
  {g : α → Option Finding} {h : Node → Option (Node × β)} {detail : Node → Option String}

/-- Findings that are made of the elements of a list, at most one of each. -/
theorem once_of_filterMap (node : α → Node) (hin : l.map node ⊆ d.root.walk) (hnodup : (l.map node).Nodup)
    (hg : ∀ a ∈ l, ∀ f, g a = some f → rule.Spotted mark (node a) f)
    (hd : rule.detect (.ofDocument d) d.root.walk = l.filterMap g) : rule.Once mark d := by
  rw [Once, hd]
  clear hd
  have hsub : ∃ ns, ns.Sublist (l.map node) ∧
      List.Forall₂ (rule.Spotted mark) ns (l.filterMap g) := by
    clear hin hnodup
    induction l with
    | nil => exact ⟨[], .slnil, .nil⟩
    | cons a l ih =>
      obtain ⟨ns, hsub, hns⟩ := ih fun b hb => hg b (List.mem_cons_of_mem _ hb)
      cases hga : g a with
      | none =>
        rw [List.filterMap_cons_none hga]
        exact ⟨ns, hsub.cons _, hns⟩
      | some f =>
        rw [List.filterMap_cons_some hga]
        exact ⟨node a :: ns, hsub.cons_cons _, .cons (hg a List.mem_cons_self f hga) hns⟩
  obtain ⟨ns, hsub, hns⟩ := hsub
  exact ⟨ns, fun n hn => hin (hsub.subset hn), hnodup.sublist hsub, hns⟩

/-- Findings that are made of nodes in the order of the tree, or of what these nodes have. -/
theorem once_of_sublist (hd : d.WellFormed) (node : α → Node) (hl : (l.map node).Sublist d.root.walk)
    (hg : ∀ a ∈ l, ∀ f, g a = some f → rule.Spotted mark (node a) f)
    (hdetect : rule.detect (.ofDocument d) d.root.walk = l.filterMap g) : rule.Once mark d :=
  once_of_filterMap node hl.subset ((walk_nodup hd.root.nodup).sublist hl) hg hdetect

/-- Findings about every node of a list, none of them a name. -/
theorem once_of_map (ns : List Node) (hin : ns ⊆ d.root.walk) (hnodup : ns.Nodup) (hname : mark ≠ .name)
    (hmark : ∀ n ∈ ns, n.label.mark? = some mark)
    (hdetect : rule.detect (.ofDocument d) d.root.walk =
      ns.map fun n => rule.report (.ofDocument d) n (detail n)) : rule.Once mark d := by
  refine ⟨ns, hin, hnodup, ?_⟩
  rw [hdetect, List.forall₂_map_right_iff, List.forall₂_same]
  exact fun n hn => ⟨hmark n hn, fun he => absurd he hname, rfl, rfl⟩

/-- What nodes have, with the nodes in front. -/
theorem fst_sublist (hh : ∀ n x, h n = some x → x.1 = n) (nodes : List Node) :
    ((nodes.filterMap h).map (·.1)).Sublist nodes := by
  induction nodes with
  | nil => exact .slnil
  | cons n nodes ih =>
    cases hn : h n with
    | none =>
      rw [List.filterMap_cons_none hn]
      exact ih.cons n
    | some x =>
      rw [List.filterMap_cons_some hn, List.map_cons, hh n x hn]
      exact ih.cons_cons n

theorem containers_sublist (nodes : List Node) : ((containers nodes).map (·.1)).Sublist nodes :=
  fst_sublist (fun n x hx => by
    split at hx
    · cases hx
      rfl
    · cases hx) nodes

theorem attributes_sublist (nodes : List Node) : ((attributes nodes).map (·.1)).Sublist nodes :=
  fst_sublist (fun n x hx => by
    obtain ⟨_, -, rfl⟩ := Option.map_eq_some_iff.1 hx
    rfl) nodes

theorem elements_sublist (nodes : List Node) : ((elements nodes).map (·.1)).Sublist nodes :=
  fst_sublist (fun n x hx => by
    obtain ⟨_, -, rfl⟩ := Option.map_eq_some_iff.1 hx
    rfl) nodes

theorem mark?_of_mem_containers {x : Node × Option Node} (hx : x ∈ containers nodes) :
    x.1.label.mark? = some .braces := by
  obtain ⟨-, ⟨hasComment, hl⟩, -⟩ := mem_containers.1 hx
  rw [hl]
  rfl

theorem mark?_of_mem_attributes {x : Node × String × Option Node} (hx : x ∈ attributes nodes) :
    x.1.label.mark? = some .attribute := by
  obtain ⟨-, name, ha, -⟩ := mem_attributes.1 hx
  rw [label_of_attribute? ha]
  rfl

end Ways

/-! ### Braces and attributes -/

section InOrder

variable (hd : d.WellFormed)

include hd

theorem emptyExpression_once : emptyExpression.Once .braces d := by
  refine once_of_map _ List.filter_sublist.subset ((walk_nodup hd.root.nodup).filter _) (by decide)
    (fun n hn => ?_) rfl
  obtain ⟨⟨hasComment, hl⟩, -⟩ := emptyContainer_leaf (List.mem_filter.1 hn).2
  rw [hl]
  rfl

theorem nestedTernary_once : nestedTernary.Once .braces d := by
  refine once_of_sublist hd (·.1) (containers_sublist _) (fun ⟨n, expression⟩ hn f hf => ?_) rfl
  dsimp only at hf
  split at hf <;> cases hf
  exact ⟨mark?_of_mem_containers hn, fun he => (by cases he), rfl, rfl⟩

theorem conditionalRendering_once : conditionalRendering.Once .braces d := by
  refine once_of_sublist hd (·.1) (containers_sublist _) (fun ⟨n, expression⟩ hn f hf => ?_) rfl
  dsimp only at hf
  split at hf <;> cases hf <;>
    exact ⟨mark?_of_mem_containers hn, fun he => (by cases he), rfl, rfl⟩

theorem safeInterpolation_once : safeInterpolation.Once .braces d := by
  refine once_of_sublist hd (fun n => n) (by rw [List.map_id']) (fun n hn f hf => ?_) rfl
  dsimp only at hf
  split at hf
  · next hl _ =>
    split_ifs at hf
    cases hf
    exact ⟨by rw [hl]; rfl, fun he => (by cases he), rfl, rfl⟩
  · cases hf

omit hd in
/-- At most one of the attributes with string literals is reported. -/
theorem quoteConsistency_once : quoteConsistency.Once .attribute d := by
  let quotedBy : String → List Node := fun quote => (attributes d.root.walk).filterMap
    fun x => if quoteOf? x.2.2 == some quote then some x.1 else none
  have hquoted : ∀ quote, ∀ n ∈ quotedBy quote, n ∈ d.root.walk ∧
      n.label.mark? = some .attribute := by
    intro quote n hn
    obtain ⟨x, hx, hn⟩ := List.mem_filterMap.1 hn
    split_ifs at hn
    cases hn
    exact ⟨(attributes_sublist _).subset (List.mem_map_of_mem hx), mark?_of_mem_attributes hx⟩
  have hfirst : ∀ ns : List Node, (ns.take 1).Nodup
    | [] => .nil
    | n :: _ => List.nodup_singleton n
  have hone : ∀ quote detail, quoteConsistency.detect (.ofDocument d) d.root.walk =
      ((quotedBy quote).take 1).map (fun n => quoteConsistency.report (.ofDocument d) n detail) →
      quoteConsistency.Once .attribute d := fun quote detail hdetect =>
    once_of_map _ (fun n hn => (hquoted quote n (List.mem_of_mem_take hn)).1) (hfirst _) (by decide)
      (fun n hn => (hquoted quote n (List.mem_of_mem_take hn)).2) hdetect
  obtain ⟨fs, hdetect⟩ : ∃ fs, quoteConsistency.detect (.ofDocument d) d.root.walk = fs := ⟨_, rfl⟩
  have hfs := hdetect
  dsimp only [quoteConsistency] at hfs
  split_ifs at hfs
  · refine ⟨[], List.nil_subset _, .nil, ?_⟩
    rw [hdetect, ← hfs]
    exact .nil
  · exact hone "\"" _ (hdetect.trans hfs.symm)
  · exact hone "'" _ (hdetect.trans hfs.symm)

theorem dangerousHtml_once : dangerousHtml.Once .attribute d := by
  refine once_of_sublist hd (·.1) (attributes_sublist _) (fun ⟨n, name, value⟩ hn f hf => ?_) rfl
  dsimp only at hf
  split_ifs at hf
  cases hf
  exact ⟨mark?_of_mem_attributes hn, fun he => (by cases he), rfl, rfl⟩

theorem attributeSpelling_once (info : RuleInfo) (names : List (String × String)) :
    (AttributeSpelling.rule info names).Once .attribute d := by
  refine once_of_sublist hd (·.1) (attributes_sublist _) (fun ⟨n, name, value⟩ hn f hf => ?_) rfl
  dsimp only at hf
  split_ifs at hf
  cases hf
  exact ⟨mark?_of_mem_attributes hn, fun he => (by cases he), rfl, rfl⟩

theorem inlineFunction_once : inlineFunction.Once .attribute d := by
  refine once_of_sublist hd (·.1) (attributes_sublist _) (fun ⟨n, name, value⟩ hn f hf => ?_) rfl
  dsimp only at hf
  split at hf
  · split_ifs at hf
    cases hf
    exact ⟨mark?_of_mem_attributes hn, fun he => (by cases he), rfl, rfl⟩
  · cases hf

theorem propsSpreading_once : propsSpreading.Once .spread d := by
  refine once_of_map _ List.filter_sublist.subset ((walk_nodup hd.root.nodup).filter _) (by decide)
    (fun n hn => ?_) rfl
  rw [beq_iff_eq.1 (List.mem_filter.1 hn).2]
  rfl

/-! ### Elements and fragments -/

theorem selfClosingTag_once : selfClosingTag.Once .element d := by
  refine once_of_sublist hd (·.1) (elements_sublist _) (fun ⟨n, parts⟩ hn f hf => ?_) rfl
  dsimp only at hf
  split_ifs at hf
  cases hf
  exact ⟨mark?_of_element? (mem_elements.1 hn).2, fun he => (by cases he), rfl, rfl⟩

/-- Fragments are written as such, or elements with their name: no node is both. -/
theorem fragmentUsage_once : fragmentUsage.Once .element d := by
  have hnamed : ∀ {p : Node × ElementParts → Bool}, ∀ n ∈ ((elements d.root.walk).filter p).map (·.1),
      n.element?.isSome := by
    intro p n hn
    obtain ⟨x, hx, rfl⟩ := List.mem_map.1 hn
    rw [(mem_elements.1 (List.mem_filter.1 hx).1).2]
    rfl
  have hsub : ∀ p : Node × ElementParts → Bool,
      (((elements d.root.walk).filter p).map (·.1)).Sublist d.root.walk := fun p =>
    (List.filter_sublist.map _).trans (elements_sublist _)
  have hnodup := walk_nodup hd.root.nodup
  refine once_of_map _ (List.append_subset.2 ⟨List.filter_sublist.subset, (hsub _).subset⟩)
    (List.nodup_append'.2 ⟨hnodup.filter _, hnodup.sublist (hsub _), fun n hn hn' => ?_⟩) (by decide)
    (fun n hn => ?_) rfl
  · have hsome := hnamed n hn'
    have hfragment := (List.mem_filter.1 hn).2
    split at hfragment
    · next hl =>
      rw [element?, hl] at hsome
      cases hsome
    · cases hfragment
  · rcases List.mem_append.1 hn with hn | hn
    · have hfragment := (List.mem_filter.1 hn).2
      split at hfragment
      · next hl =>
        rw [hl]
        rfl
      · cases hfragment
    · obtain ⟨parts, hp⟩ := Option.isSome_iff_exists.1 (hnamed n hn)
      exact mark?_of_element? hp

/-- A callback tells its call. -/
theorem callbacks_nodup : (d.root.walk.filterMap ListKey.mapCallback?).Nodup := by
  refine nodup_filterMap_on (fun call hm call' hm' callback h h' => ?_) (walk_nodup hd.root.nodup)
  obtain ⟨hl, first, hfirst, he⟩ := ListKey.exists_child_of_mapCallback? h
  obtain ⟨hl', first', hfirst', he'⟩ := ListKey.exists_child_of_mapCallback? h'
  refine hd.eq_of_unwrapped hm hm' hfirst hfirst' ?_ ?_ (he.trans he'.symm)
  · exact hl ▸ Label.noConfusion
  · exact hl' ▸ Label.noConfusion

/-- An element tells the callback that gives it back. -/
theorem missingKey_once : missingKey.Once .element d := by
  have hin : ∀ {f}, f ∈ d.root.walk.filterMap ListKey.mapCallback? → f ∈ d.root.walk := by
    intro f hf
    obtain ⟨call, hcall, hf⟩ := List.mem_filterMap.1 hf
    exact mem_walk_trans (ListKey.mem_walk_of_mapCallback? hf) hcall
  have hsub : ∀ f, ((ListKey.returnedElements f).filter (!ListKey.hasKey ·)).Sublist f.returned :=
    fun f => List.filter_sublist.trans List.filter_sublist
  refine once_of_map ((d.root.walk.filterMap ListKey.mapCallback?).flatMap fun f =>
      (ListKey.returnedElements f).filter (!ListKey.hasKey ·)) (fun n hn => ?_)
    (List.nodup_flatMap.2 ⟨fun f hf => (hd.returned_nodup (hin hf)).sublist (hsub f), ?_⟩)
    (by decide) (fun n hn => ?_) List.map_flatMap.symm
  · obtain ⟨f, hf, hn⟩ := List.mem_flatMap.1 hn
    exact mem_walk_trans (mem_walk_of_returned ((hsub f).subset hn)) (hin hf)
  · refine (List.Pairwise.and_mem.1 (callbacks_nodup hd)).imp fun ⟨hf, hf', hne⟩ n hn hn' => hne ?_
    have he := hd.enclosingFunction?_eq (hin hf) ((hsub _).subset hn)
    rw [hd.enclosingFunction?_eq (hin hf') ((hsub _).subset hn')] at he
    exact (Option.some.inj he).symm
  · obtain ⟨f, -, hn⟩ := List.mem_flatMap.1 hn
    obtain ⟨parts, hp⟩ := Option.isSome_iff_exists.1
      (List.mem_filter.1 (List.mem_filter.1 hn).1).2
    exact mark?_of_element? hp

/-! ### Names -/

/-- A name tells what it is the name of, a function or a variable. -/
theorem namedFunctions_nodup : ((ComponentName.namedFunctions d.root.walk).map (·.1)).Nodup := by
  have hnames : ∀ {g : Node → Option (Node × Node)}, (∀ {p x}, g p = some x → x.1 ∈ p.children) →
      ((d.root.walk.filterMap g).map (·.1)).Nodup := by
    intro g hg
    rw [List.map_filterMap]
    refine nodup_filterMap_on (fun p hp p' hp' m h h' => ?_) (walk_nodup hd.root.nodup)
    obtain ⟨x, hx, rfl⟩ := Option.map_eq_some_iff.1 h
    obtain ⟨x', hx', he⟩ := Option.map_eq_some_iff.1 h'
    have hm' := hg hx'
    rw [he] at hm'
    exact hd.root.eq_of_child hp hp' (hg hx) hm'
  rw [ComponentName.namedFunctions, List.map_append]
  refine List.nodup_append'.2 ⟨hnames fun h => (ComponentName.name_mem_of_declaredFunction? h).2,
    hnames fun h => (ComponentName.name_mem_of_assignedFunction? h).2, fun n hn hn' => ?_⟩
  obtain ⟨⟨m, f⟩, hx, rfl⟩ := List.mem_map.1 hn
  obtain ⟨⟨m', f'⟩, hx', he⟩ := List.mem_map.1 hn'
  obtain rfl : m' = m := he
  obtain ⟨p, hp, hx⟩ := List.mem_filterMap.1 hx
  obtain ⟨p', hp', hx'⟩ := List.mem_filterMap.1 hx'
  obtain ⟨⟨hasName, hl⟩, hm⟩ := ComponentName.name_mem_of_declaredFunction? hx
  obtain ⟨hl', hm'⟩ := ComponentName.name_mem_of_assignedFunction? hx'
  obtain rfl := hd.root.eq_of_child hp hp' hm hm'
  rw [hl] at hl'
  cases hl'

theorem componentNaming_once : componentNaming.Once .name d := by
  refine once_of_filterMap (·.1) (fun n hn => ?_) (namedFunctions_nodup hd)
    (fun ⟨name, function⟩ hx f hf => ?_) rfl
  · obtain ⟨⟨name, function⟩, hx, rfl⟩ := List.mem_map.1 hn
    obtain ⟨p, hp, -, hname⟩ := ComponentName.exists_naming hx
    exact mem_walk_trans (child_mem_walk hname) hp
  · dsimp only at hf
    split_ifs at hf with hfound
    cases hf
    rw [Bool.and_eq_true] at hfound
    have hlower := hfound.1
    refine ⟨mark?_of_startsLower hlower, fun _ he => ?_, rfl, rfl⟩
    dsimp only at he
    rw [he] at hlower
    cases hlower

end InOrder

/-- Every rule reports nodes of one mark, and none of them twice. -/
theorem exists_once (hrule : rule ∈ all) : ∃ mark, ∀ d : Document, d.WellFormed → rule.Once mark d := by
  simp only [all, List.mem_cons, List.not_mem_nil, or_false] at hrule
  rcases hrule with rfl | rfl | rfl | rfl | rfl | rfl | rfl | rfl | rfl | rfl | rfl | rfl | rfl | rfl
  · exact ⟨_, fun d hd => emptyExpression_once hd⟩
  · exact ⟨_, fun d hd => nestedTernary_once hd⟩
  · exact ⟨_, fun d hd => conditionalRendering_once hd⟩
  · exact ⟨_, fun d _ => quoteConsistency_once⟩
  · exact ⟨_, fun d hd => attributeSpelling_once hd _ _⟩
  · exact ⟨_, fun d hd => attributeSpelling_once hd _ _⟩
  · exact ⟨_, fun d hd => dangerousHtml_once hd⟩
  · exact ⟨_, fun d hd => safeInterpolation_once hd⟩
  · exact ⟨_, fun d hd => selfClosingTag_once hd⟩
  · exact ⟨_, fun d hd => fragmentUsage_once hd⟩
  · exact ⟨_, fun d hd => missingKey_once hd⟩
  · exact ⟨_, fun d hd => componentNaming_once hd⟩
  · exact ⟨_, fun d hd => propsSpreading_once hd⟩
  · exact ⟨_, fun d hd => inlineFunction_once hd⟩

end Rule
end JsxLint
