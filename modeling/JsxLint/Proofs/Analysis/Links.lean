import JsxLint.Proofs.Analysis.Edits
import JsxLint.Proofs.Reading.Apart
import JsxLint.Proofs.Rule.Grafts
import JsxLint.Proofs.Rule.Standing

/-!
# The tree stays a tree

However many rounds of repairs were made of a document that was read, in whatever order and with
whatever findings left out, its tree is one: nodes are reached once, and know their parents. What
was read stays in the order of the source, and what was put in hangs on parameters and opening tags.

* `Document.Repaired`: documents that rounds of repairs make of another one;
* `Document.Grafted`: what every repair keeps of the tree that was read;
* `Document.WellLinked`: the links, the spans and the places of a tree that was edited;
* `Document.wellLinked_of_repaired`: they hold after all repairs.
-/

namespace JsxLint

open Node

/-- The spans of the children that were read. -/
def Node.spans (n : Node) : List Span :=
  n.children.filterMap (·.place.span)

namespace Document

variable {d₀ d : Document} {w w' : Workspace} {m : Node} {above : List Node}

/-- Documents that rounds of repairs make of a document: in a round, some of what rules found in the
document is repaired, in some order. -/
inductive Repaired (d₀ : Document) : Document → Prop
  | start : Repaired d₀ d₀
  | round {d : Document} {w : Workspace} (h : Repaired d₀ d) (hw : d.InRound w) :
    Repaired d₀ w.document

theorem Repaired.regular (h : d₀.Repaired d) (hd : d₀.Regular) : d.Regular := by
  induction h with
  | start => exact hd
  | round _ hw ih =>
    obtain ⟨new, changes, hnew, hr⟩ := hw
    exact (repeats_of_repairs ih (List.Subset.refl _) hnew (fun _ _ _ => trivial) hr).1

/-- Repairs move no node. -/
theorem Repaired.stands (h : d₀.Repaired d) : d₀.Stands d := by
  induction h with
  | start => exact .refl d₀
  | round _ hw ih =>
    obtain ⟨new, changes, hnew, hr⟩ := hw
    exact ih.trans (hr.stands fun x hx => (hnew x hx).1)

/-! ### What repairs keep -/

/-- What repairs keep of the tree that was read: its nodes have their places and those of their
children that are left, in order, and all other nodes were put in. -/
structure Grafted (d₀ d : Document) : Prop where
  fresh : d₀.fresh ≤ d.fresh
  read : ∀ m ∈ d.root.walk, m.id < d₀.fresh → ∃ m₀ ∈ d₀.root.walk, m₀.id = m.id ∧
    m.place = m₀.place ∧
      ((m.children.map (·.id)).filter fun j => decide (j < d₀.fresh)).Sublist
        (m₀.children.map (·.id))
  grafts : ∀ m ∈ d.root.walk, ¬m.id < d₀.fresh → m.Graft d₀.fresh d.root

theorem Grafted.refl (hd : d.WellFormed) : d.Grafted d where
  fresh := Nat.le_refl _
  read m hm _ := ⟨m, hm, rfl, rfl, List.filter_sublist⟩
  grafts _ hm hnew := absurd (hd.root.lt_fresh _ (id_mem_ids hm)) hnew

/-- One repair keeps the tree that was read. -/
theorem Grafted.edit {rule : Rule} {f : Finding} (h : d₀.Grafted w.document)
    (he : rule.Edit f d w w') : d₀.Grafted w'.document := by
  have hs := he.before.sound
  have hs' := he.step.sound
  refine ⟨Nat.le_trans h.fresh he.step.follows.fresh, fun m' hm' hlt => ?_, fun m' hm' hnew => ?_⟩
  · obtain ⟨m, hm, hid, -⟩ := he.step.follows.node m' hm' (Nat.lt_of_lt_of_le hlt h.fresh)
    obtain ⟨m₀, hm₀, hid₀, hplace, hsub⟩ := h.read m hm (hid ▸ hlt)
    refine ⟨m₀, hm₀, hid₀.trans hid, (he.effect.place_eq hs hs' hm hm' hid.symm).trans hplace, ?_⟩
    have hkept := (he.effect.children_sublist hs hs' hm hm' hid.symm h.fresh).filter
      fun j => decide (j < d₀.fresh)
    rw [List.filter_filter] at hkept
    simp only [Bool.and_self] at hkept
    exact hkept.trans hsub
  · by_cases hold : m'.id < w.document.fresh
    · obtain ⟨m, hm, hid, -⟩ := he.step.follows.node m' hm' hold
      exact he.effect.keeps_graft hs hs' h.fresh hm hm' hid.symm (h.grafts m hm (hid ▸ hnew))
    · exact (he.effect.graft hs hs' hm' hold).mono h.fresh

/-- All rounds keep the tree that was read. -/
theorem Repaired.grafted (h : d₀.Repaired d) (hd : d₀.Regular) : d₀.Grafted d := by
  induction h with
  | start => exact .refl hd.formed
  | round h hw ih =>
    obtain ⟨new, changes, hnew, hr⟩ := hw
    let J : Workspace → List Change → Prop := fun v _ => d₀.Grafted v.document
    have hstart : J (.ofDocument _) [] := ih
    exact hr.edits (h.regular hd) (List.Subset.refl _) hnew
      (fun _ _ _ _ _ _ _ he _ _ hv => hv.edit he) hstart

section Grafted

variable (h : d₀.Grafted d) (hd : d.root.Formed d.fresh)

include h

/-- The spans of the children that are left are in their order. -/
theorem Grafted.spans_sublist (hd₀ : d₀.root.Formed d₀.fresh) (hm : m ∈ d.root.walk)
    (hlt : m.id < d₀.fresh) : ∃ m₀ ∈ d₀.root.walk, m.place = m₀.place ∧
      m.spans.Sublist m₀.spans := by
  obtain ⟨m₀, hm₀, -, hplace, hsub⟩ := h.read m hm hlt
  refine ⟨m₀, hm₀, hplace, ?_⟩
  -- the span that a name stood for when the tree was read
  let spanOf : NodeId → Option Span := fun j => (d₀.root.site? j).bind (·.place.span)
  have hread : ∀ c ∈ d₀.root.walk, spanOf c.id = c.place.span := by
    intro c hc
    show (d₀.root.site? c.id).bind _ = _
    rw [site?_of_mem hd₀.nodup hc]
    rfl
  have hleft : ∀ c ∈ m.children, c.place.span =
      (Option.guard (fun j => decide (j < d₀.fresh)) c.id).bind spanOf := by
    intro c hc
    have hcw := mem_walk_trans (child_mem_walk hc) hm
    by_cases hclt : c.id < d₀.fresh
    · obtain ⟨c₀, hc₀, hid, hcplace, -⟩ := h.read c hcw hclt
      rw [Option.guard, if_pos (decide_eq_true hclt), Option.bind_some, ← hid, hread c₀ hc₀, hcplace]
    · rw [Option.guard, if_neg (by simpa using hclt), (h.grafts c hcw hclt).span]
      rfl
  have hspans : m.spans =
      ((m.children.map (·.id)).filter fun j => decide (j < d₀.fresh)).filterMap spanOf := by
    rw [← List.filterMap_eq_filter, List.filterMap_filterMap, List.filterMap_map]
    exact List.filterMap_congr hleft
  have hspans₀ : m₀.spans = (m₀.children.map (·.id)).filterMap spanOf := by
    rw [List.filterMap_map]
    exact List.filterMap_congr fun c hc => (hread c (mem_walk_trans (child_mem_walk hc) hm₀)).symm
  rw [hspans, hspans₀]
  exact hsub.filterMap spanOf

include hd

/-- On the way up from a node that was put in there are nodes that were put in with it, and then the
parameters or the opening tag that they were put into. -/
theorem Grafted.exists_around (hp : d.root.Path above m) (hnew : ¬m.id < d₀.fresh) :
    ∃ between t rest, above = between ++ t :: rest ∧ t.id < d₀.fresh ∧
      (t.label.form = "Parameters" ∨ t.label.form = "JSXOpeningElement") ∧
      ∀ k ∈ m :: between, ¬k.id < d₀.fresh ∧ k.place.position = t.place.position := by
  induction hp with
  | root =>
    obtain ⟨t, -, hparent, -⟩ := (h.grafts _ d.root.self_mem_walk hnew).parent
    rw [hd.top] at hparent
    cases hparent
  | @child above t c hp hc ih =>
    have hcw := mem_walk_trans (child_mem_walk hc) hp.mem_walk
    obtain ⟨k, hk, hparent, hposition, hform⟩ := (h.grafts c hcw hnew).parent
    rw [hd.linked t hp.mem_walk c hc, Option.some.injEq] at hparent
    obtain rfl := eq_of_id_eq hd.nodup hk hp.mem_walk hparent.symm
    by_cases hlt : k.id < d₀.fresh
    · refine ⟨[], k, above, rfl, hlt, hform hlt, fun b hb => ?_⟩
      cases List.mem_singleton.1 hb
      exact ⟨hnew, hposition.symm⟩
    · obtain ⟨between, t, rest, rfl, htlt, htform, hall⟩ := ih hlt
      refine ⟨k :: between, t, rest, rfl, htlt, htform, fun b hb => ?_⟩
      rcases List.mem_cons.1 hb with rfl | hb
      · exact ⟨hnew, hposition.symm.trans (hall k List.mem_cons_self).2⟩
      · exact hall b hb

end Grafted

/-! ### Links, spans and places -/

/-- The links, the spans and the places of the tree of a document that repairs made of another one,
`d₀`. -/
structure WellLinked (d₀ d : Document) : Prop where
  /-- Every node that can be reached from the root is reached once. -/
  once : ∀ above m, d.root.Path above m → (d.root.walk.map (·.id)).count m.id = 1
  top : d.root.parent = none
  /-- Every other node is the child of the node that it has for its parent, and of no other one. -/
  parent : ∀ m ∈ d.root.walk, m ≠ d.root → ∃ n ∈ d.root.walk, m.parent = some n.id ∧
    ∀ k ∈ d.root.walk, m ∈ k.children ↔ k = n
  /-- The nodes with spans are those that were read. -/
  read : ∀ m ∈ d.root.walk, ¬m.isMade ↔ m.id < d₀.fresh
  /-- The children with spans lie one behind the other within the span of their parent. -/
  row : ∀ m ∈ d.root.walk, ∀ span, m.place.span = some span → Row span.start span.stop m.spans
  /-- A node without a span has no children with spans. -/
  bare : ∀ m ∈ d.root.walk, m.isMade → m.spans = []
  /-- What was put in hangs on parameters or an opening tag, at their line and column. -/
  grafts : ∀ above m, d.root.Path above m → m.isMade → ∃ between t rest,
    above = between ++ t :: rest ∧ ¬t.isMade ∧
      (t.label.form = "Parameters" ∨ t.label.form = "JSXOpeningElement") ∧
      ∀ k ∈ m :: between, k.isMade ∧ k.place.position = t.place.position
  /-- All that was read, taken out or not, has its line, its column and its span. -/
  stays : ∀ m ∈ d.nodes, m.id < d₀.fresh → ∃ m₀ ∈ d₀.root.walk, m₀.id = m.id ∧ m.place = m₀.place

end Document

namespace Reading

variable {grammar : Grammar} {path text : String} {d : Document} {m : Node}

/-- The children of a node that was read lie one behind the other within its span. -/
theorem exists_row (hc : (grammar (.ofPath path) text).Readable text)
    (h : Document.read grammar path text = .ok d) (hm : m ∈ d.root.walk) :
    ∃ span, m.place.span = some span ∧ Row span.start span.stop m.spans := by
  obtain ⟨-, hr⟩ := read_readAs h
  have hpart : ∀ k ∈ d.root.walk, ∃ q : Part, q.Sound text ∧ ReadAs d.source q k := fun k hk =>
    hr.exists_part (fun p hp q hq => Part.Sound.fits hp |>.sound q hq) hc hk
  have hspan : ∀ k ∈ d.root.walk, k.place.span = some k.span := by
    intro k hk
    obtain ⟨q, hq, hqk⟩ := hpart k hk
    rw [span_of_readAs hqk hq, hqk.place_eq, hq.place]
  obtain ⟨q, hq, hqm⟩ := hpart m hm
  have hspans : m.spans = m.children.map Node.span := by
    rw [Node.spans, ← List.filterMap_eq_map]
    exact List.filterMap_congr fun c hc => hspan c (mem_walk_trans (child_mem_walk hc) hm)
  refine ⟨m.span, hspan m hm, ?_⟩
  rw [hspans, span_of_readAs hqm hq]
  exact (children_row hqm hq).mono q.inside_le.1.le q.inside_le.2

end Reading

namespace Document

variable {grammar : Grammar} {path text : String} {d₀ d : Document}

/-- What repairs keep of a tree whose nodes stand in the order of the source makes a tree with links,
spans and places. -/
theorem Grafted.wellLinked (h : d₀.Grafted d) (hstands : d₀.Stands d) (hd₀ : d₀.root.Formed d₀.fresh)
    (hd : d.root.Formed d.fresh) (htaken : d₀.detached = [])
    (hrow : ∀ m ∈ d₀.root.walk, ∃ span, m.place.span = some span ∧
      Row span.start span.stop m.spans) : d₀.WellLinked d := by
  have hread : ∀ m ∈ d.root.walk, ¬m.isMade ↔ m.id < d₀.fresh := by
    intro m hm
    rw [Bool.not_eq_true]
    refine ⟨fun hmade => ?_, fun hlt => ?_⟩
    · by_contra hnew
      rw [isMade, (h.grafts m hm hnew).span] at hmade
      cases hmade
    · obtain ⟨m₀, hm₀, -, hplace, -⟩ := h.read m hm hlt
      obtain ⟨span, hspan, -⟩ := hrow m₀ hm₀
      exact isMade_eq_false.2 ⟨span, hplace ▸ hspan⟩
  refine ⟨fun above m hp => ?_, hd.top, fun m hm hne => ?_, hread, fun m hm span hspan => ?_,
    fun m hm hmade => ?_, fun above m hp hmade => ?_, fun m hm hlt => ?_⟩
  · exact List.count_eq_one_of_mem hd.nodup (id_mem_ids hp.mem_walk)
  · obtain ⟨above, hp⟩ := exists_path hm
    cases hp with
    | root => exact absurd rfl hne
    | @child _ n _ hp hmn =>
      exact ⟨n, hp.mem_walk, hd.linked n hp.mem_walk m hmn, fun k hk =>
        ⟨fun hmk => hd.eq_of_child hk hp.mem_walk hmk hmn, fun he => he ▸ hmn⟩⟩
  · have hlt := (hread m hm).1 (by rw [Bool.not_eq_true]; exact isMade_eq_false.2 ⟨span, hspan⟩)
    obtain ⟨m₀, hm₀, hplace, hsub⟩ := h.spans_sublist hd₀ hm hlt
    obtain ⟨span₀, hspan₀, hrow₀⟩ := hrow m₀ hm₀
    obtain rfl : span₀ = span := Option.some.inj (hspan₀.symm.trans (hplace ▸ hspan))
    exact hrow₀.sublist hsub
  · have hnew : ¬m.id < d₀.fresh := fun hlt => (hread m hm).2 hlt hmade
    refine List.filterMap_eq_nil_iff.2 fun c hc => ?_
    exact (h.grafts c (mem_walk_trans (child_mem_walk hc) hm)
      ((h.grafts m hm hnew).children c hc)).span
  · have hnew : ¬m.id < d₀.fresh := fun hlt => (hread m hp.mem_walk).2 hlt hmade
    obtain ⟨between, t, rest, rfl, hlt, hform, hall⟩ := h.exists_around hd hp hnew
    have hmem : ∀ k ∈ m :: between, k ∈ d.root.walk := by
      intro k hk
      rcases List.mem_cons.1 hk with rfl | hk
      · exact hp.mem_walk
      · exact hp.above_mem_walk (List.mem_append_left _ hk)
    have ht := hp.above_mem_walk (List.mem_append_right between List.mem_cons_self)
    refine ⟨between, t, rest, rfl, (hread t ht).2 hlt, hform, fun k hk => ?_⟩
    refine ⟨?_, (hall k hk).2⟩
    by_contra hmade
    exact (hall k hk).1 ((hread k (hmem k hk)).1 hmade)
  · obtain ⟨m₀, hm₀, hid, hplace⟩ := hstands.places m hm hlt
    rcases mem_nodes.1 hm₀ with hm₀ | ⟨t, ht, -⟩
    · exact ⟨m₀, hm₀, hid, hplace.symm⟩
    · rw [htaken] at ht
      cases ht

/-- All rounds of an analysis are rounds of repairs. -/
theorem repaired_rounds {e : Engine} {p : Progress} (hrules : e.rules ⊆ Rule.all) (fix : Bool)
    (n : Nat) (h : d₀.Repaired p.document) : d₀.Repaired (e.rounds fix n p).1.document :=
  Engine.rounds_invariant (I := d₀.Repaired) (fun _ h new changes _ hnew hr =>
    h.round ⟨new, changes, fun x hx => ⟨hrules (hnew x hx).1, (hnew x hx).2⟩, hr⟩) fix n h

/-- The tree of a document that was read stays one, whatever repairs are made in however many
rounds, in particular in the rounds of an analysis. -/
theorem wellLinked_of_repaired (hc : (grammar (.ofPath path) text).Readable text)
    (hplain : (grammar (.ofPath path) text).TagsPlain)
    (hnamed : (grammar (.ofPath path) text).TagsNamed)
    (hread : Document.read grammar path text = .ok d) :
    (∀ d', d.Repaired d' → d.WellLinked d') ∧
      ∀ (e : Engine) fix n calls, e.rules ⊆ Rule.all →
        d.Repaired (e.rounds fix n (.start d calls)).1.document := by
  have hd : d.Regular := .of_read hplain hnamed hread
  have htaken : d.detached = [] := by
    obtain ⟨-, root, -, -, rfl⟩ := Reading.read_eq_ok hread
    rfl
  refine ⟨fun d' h => ?_, fun e fix n calls hrules => repaired_rounds hrules fix n .start⟩
  exact (h.grafted hd).wellLinked h.stands hd.formed.root (h.regular hd).formed.root htaken
    fun m hm => Reading.exists_row hc hread hm

/-- A tree that lost two pairs of braces and a closing tag and got a parameter and a key. -/
theorem hollow_wellLinked : ∃ d d',
    Document.read Engine.hollow.grammar "A.jsx" Engine.hollowText = .ok d ∧
    (Engine.hollow.rounds true 3 (.start d .none)).1.document = d' ∧ d.Repaired d' ∧
    d.WellLinked d' ∧ (d'.root.walk.filter (·.isMade)).map (·.label.form) =
      ["Identifier", "JSXAttribute", "JSXName", "JSXExpressionContainer", "Identifier"] ∧
    d'.detached.map (·.label.form) =
      ["JSXClosingElement", "JSXExpressionContainer", "JSXExpressionContainer"] := by
  have hforms : (Document.read Engine.hollow.grammar "A.jsx" Engine.hollowText).map (fun d =>
      let d' := (Engine.hollow.rounds true 3 (.start d .none)).1.document
      ((d'.root.walk.filter (·.isMade)).map (·.label.form), d'.detached.map (·.label.form))) =
        .ok (["Identifier", "JSXAttribute", "JSXName", "JSXExpressionContainer", "Identifier"],
          ["JSXClosingElement", "JSXExpressionContainer", "JSXExpressionContainer"]) := by
    decide +kernel
  obtain ⟨d, hd, hforms⟩ := Reading.map_eq_ok.1 hforms
  simp only [Prod.mk.injEq] at hforms
  obtain ⟨hlinked, hrounds⟩ := wellLinked_of_repaired (by decide +kernel) (by decide +kernel)
    (by decide +kernel) hd
  have hrepaired := hrounds Engine.hollow true 3 .none (List.Subset.refl _)
  exact ⟨d, _, hd, rfl, hrepaired, hlinked _ hrepaired, hforms.1, hforms.2⟩

end Document
end JsxLint
