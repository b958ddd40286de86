import JsxLint.Proofs.Reading.WellFormed
import JsxLint.Proofs.Source.Position
import JsxLint.Proofs.Workspace.Sound

/-!
# Where markup starts

Two elements of a document that was read never start at the same place, and neither do two
attributes, two spread attributes, two pairs of braces or two names. So the place of a finding tells
its node.

* `Concrete.Opens`, `Concrete.Leads`: what a grammar promises of where nodes start;
* `Label.mark?`: what findings are about;
* `Reading.eq_of_start`: nodes of one mark that start together are the same;
* `Reading.eq_of_position`, `Reading.read_apart`: places tell the nodes of a document that was read;
* `Reading.span_lt_of_text`: names that are not empty have spans that are not.
-/

namespace JsxLint

namespace Concrete

/-- The kinds of markup. -/
def markupKinds : List String :=
  ["jsx_element", "jsx_self_closing_element", "jsx_expression", "jsx_attribute"]

/-- What a grammar promises of where markup starts: with a token of its own, before the markup in
it. -/
structure Opens (c : Concrete) : Prop where
  filled : c.kind ∈ markupKinds → c.span.start < c.span.stop
  first : c.kind ∈ markupKinds → ∀ b ∈ c.children, ∀ a ∈ b.walk, a.kind ∈ markupKinds →
    c.span.start < a.span.start

instance (c : Concrete) : Decidable c.Opens :=
  decidable_of_iff ((c.kind ∈ markupKinds → c.span.start < c.span.stop) ∧
    (c.kind ∈ markupKinds → ∀ b ∈ c.children, ∀ a ∈ b.walk, a.kind ∈ markupKinds →
      c.span.start < a.span.start)) ⟨fun ⟨h1, h2⟩ => ⟨h1, h2⟩, fun ⟨h1, h2⟩ => ⟨h1, h2⟩⟩

/-- What a grammar promises of where nodes start: nothing below a node is empty, and markup starts
with a token or a name of its own, before the markup in it. -/
structure Leads (c : Concrete) : Prop where
  filled : ∀ b ∈ c.children, b.span.start < b.span.stop
  first : c.kind ∈ markupKinds → ∀ b ∈ c.children, ∀ a ∈ b.walk, a.kind ∈ markupKinds →
    c.span.start < a.span.start

instance (c : Concrete) : Decidable c.Leads :=
  decidable_of_iff ((∀ b ∈ c.children, b.span.start < b.span.stop) ∧
    (c.kind ∈ markupKinds → ∀ b ∈ c.children, ∀ a ∈ b.walk, a.kind ∈ markupKinds →
      c.span.start < a.span.start)) ⟨fun ⟨h1, h2⟩ => ⟨h1, h2⟩, fun ⟨h1, h2⟩ => ⟨h1, h2⟩⟩

/-- Whether a node is not empty, and nothing below it is. -/
structure Filled (c : Concrete) : Prop where
  lt : c.span.start < c.span.stop
  leads : ∀ b ∈ c.walk, b.Leads

theorem Filled.of_child {b c : Concrete} (h : ∀ a ∈ c.walk, a.Leads) (hb : b ∈ c.children) :
    b.Filled :=
  ⟨(h c c.self_mem_walk).filled b hb, fun _ ha => h _ (mem_walk.2 (.inr ⟨b, hb, ha⟩))⟩

theorem Filled.of_walk {b c : Concrete} (h : c.Filled) (hb : b ∈ c.walk) : b.Filled := by
  induction c using induct with
  | step c ih =>
    rcases mem_walk.1 hb with rfl | ⟨a, ha, hb⟩
    · exact h
    · exact ih a ha (.of_child h.leads ha) hb

/-- Where nothing is empty below a node that is no markup, markup starts with a token. -/
theorem opens_of_leads {c : Concrete} (h : ∀ b ∈ c.walk, b.Leads) (hk : c.kind ∉ markupKinds) :
    ∀ b ∈ c.walk, b.Opens := by
  intro b hb
  refine ⟨fun hkind => ?_, (h b hb).first⟩
  rcases mem_walk.1 hb with rfl | ⟨a, ha, hb⟩
  · exact absurd hkind hk
  · exact ((Filled.of_child h ha).of_walk hb).lt

end Concrete

/-- What a finding is about. -/
inductive Mark
  | name
  | element
  | attribute
  | spread
  | braces
  deriving DecidableEq

/-- What a finding is about when it is found at a node; fragments are found with elements. -/
def Label.mark? : Label → Option Mark
  | .identifier .. | .markupName _ => some .name
  | .element .. | .fragment _ => some .element
  | .markupAttribute => some .attribute
  | .spreadAttribute => some .spread
  | .container _ => some .braces
  | _ => none

namespace Reading

open Concrete

variable {s : Source} {text : String} {c : Concrete} {p q : Part} {n m m' : Node} {mark : Mark}

theorem downward_filled : Downward Filled where
  named _ hc _ hb := .of_child hc.leads ((namedChildren_sublist _).subset hb)
  field _ hc _ _ hb := .of_child hc.leads (mem_of_field? hb)

/-- Whether all markup at and below a node starts with a token. -/
def Opened (c : Concrete) : Prop :=
  ∀ b ∈ c.walk, b.Opens

theorem Opened.of_child {b : Concrete} (h : Opened c) (hb : b ∈ c.children) : Opened b :=
  fun _ ha => h _ (mem_walk.2 (.inr ⟨b, hb, ha⟩))

theorem downward_opened : Downward Opened where
  named _ hc _ hb := hc.of_child ((namedChildren_sublist _).subset hb)
  field _ hc _ _ hb := hc.of_child (mem_of_field? hb)

/-! ### Markup -/

/-- The forms of markup. -/
def markupForms : List String :=
  ["JSXElement", "JSXFragment", "JSXExpressionContainer", "JSXAttribute", "JSXSpreadAttribute"]

/-- Whether a node stands below another one. -/
def Inside (c b : Concrete) : Prop :=
  ∃ a ∈ c.children, b ∈ a.walk

theorem inside_child {b : Concrete} (hb : b ∈ c.children) : Inside c b :=
  ⟨b, hb, b.self_mem_walk⟩

theorem downward_inside (c : Concrete) : Downward (Inside c) where
  named _ hb _ ha :=
    let ⟨k, hk, hbk⟩ := hb
    ⟨k, hk, (downward_walk k).named _ hbk _ ha⟩
  field _ hb _ _ ha :=
    let ⟨k, hk, hbk⟩ := hb
    ⟨k, hk, (downward_walk k).field _ hbk _ _ ha⟩

/-- The parts of a node are read from nodes inside, but for the tag of an element that is nothing
else. -/
theorem nodeOutline_inside : ∀ q ∈ (nodeOutline s c).2, q.Among (Inside c) ∨ q = .opening true c :=
  nodeOutline_below (downward_inside c)
    (fun _ hb => inside_child ((namedChildren_sublist c).subset hb))
    fun _ _ hb => inside_child (mem_of_field? hb)

theorem opening_inside {selfClosing : Bool} :
    ∀ q ∈ ((Part.opening selfClosing c).outline s).2, q.Among (Inside c) := by
  refine List.forall_mem_append.2 ⟨fun q hq => ?_, fun q hq => ?_⟩
  · obtain ⟨b, hb, rfl⟩ := List.mem_map.1 hq
    exact among_tagPart (inside_child (mem_of_field? (Option.mem_toList.1 hb)))
  · obtain ⟨b, hb, hbq⟩ := List.mem_filterMap.1 hq
    exact (downward_inside c).attributePart
      (inside_child ((namedChildren_sublist c).subset hb)) hbq

theorem spread_inside {inner : Concrete} (hi : inner ∈ c.namedChildren) :
    ∀ q ∈ ((Part.spread c inner).outline s).2, q.Among (Inside c) := by
  have hinner : Inside c inner := inside_child ((namedChildren_sublist c).subset hi)
  intro q hq
  cases List.mem_singleton.1 hq
  split
  · next argument ha =>
    exact among_node ((downward_inside c).significant hinner _ (List.mem_of_mem_head? ha))
  · exact among_node hinner

/-- Only markup is read as markup, and what is below it stands inside. -/
theorem markup_of_form (hs : p.Sound text) (h : (p.outline s).1.form ∈ markupForms) :
    ∃ c ∈ p.nodes, p.concrete? = some c ∧ c.kind ∈ markupKinds ∧
      ∀ q ∈ (p.outline s).2, q.Among (Inside c) ∨ q = .opening true c := by
  have hnode : ∀ c, (nodeOutline s c).1.form ∈ markupForms → c.kind ∈ markupKinds := fun c hc =>
    kind_of_form hc (by decide) (by decide)
  cases p with
  | node c => exact ⟨c, List.mem_cons_self, rfl, hnode c h, nodeOutline_inside⟩
  | className named c =>
    rw [Part.outline] at h
    split_ifs at h with hn
    · have hk := hnode c h
      simp only [markupKinds, List.mem_cons, List.not_mem_nil, or_false] at hk
      rcases hk with hk | hk | hk | hk <;> (rw [isNamed, hk] at hn; cases hn)
    · simp [Label.form, markupForms] at h
  | parameters c =>
    rw [Part.outline] at h
    split_ifs at h <;> simp [Label.form, markupForms] at h
  | spread c inner =>
    obtain ⟨-, hi, hk⟩ := hs
    exact ⟨c, List.mem_cons_self, rfl, by rw [hk]; decide, fun q hq => .inl (spread_inside hi q hq)⟩
  | _ => simp [Part.outline, Label.form, markupForms] at h

theorem span_of_concrete? (h : p.concrete? = some c) : p.span = c.span := by
  rw [Part.span, h]
  rfl

/-- Markup starts before the markup in it. -/
theorem start_lt_of_markup (h : ReadAs s p n) (hc : p.Among Opened) (hs : p.Sound text)
    (hform : n.label.form ∈ markupForms) (hm : m ∈ n.children.flatMap Node.walk)
    (hform' : m.label.form ∈ markupForms) : n.span.start < m.span.start := by
  rw [h.label_eq] at hform
  obtain ⟨c, hcp, hplace, hk, hbelow⟩ := markup_of_form hs hform
  obtain ⟨k, hkn, hmk⟩ := List.mem_flatMap.1 hm
  have hstep : ∀ q : Part, q.Sound text ∧ (q.Among (Inside c) ∨ q = .opening true c) →
      ∀ r ∈ (q.outline s).2, r.Sound text ∧ (r.Among (Inside c) ∨ r = .opening true c) := by
    rintro q ⟨hq, hin⟩ r hr
    refine ⟨hq.fits.sound r hr, ?_⟩
    rcases hin with hin | rfl
    · exact .inl (outline_among (downward_inside c) hin r hr)
    · exact .inl (opening_inside r hr)
  have hspan := span_of_readAs h hs
  cases h with
  | fill _ hks =>
    obtain ⟨q, hq, hqk⟩ := exists_of_forall₂ hks hkn
    obtain ⟨q', ⟨hs', hin⟩, hqm⟩ := hqk.exists_part hstep
      ⟨hs.fits.sound q hq, hbelow q hq⟩ hmk
    rw [hqm.label_eq] at hform'
    obtain ⟨b, hbq, hplace', hkb, -⟩ := markup_of_form hs' hform'
    have hne : q' ≠ .opening true c := by
      rintro rfl
      simp [Part.outline, Label.form, markupForms] at hform'
    obtain ⟨a, ha, hb⟩ := hin.resolve_right hne b hbq
    have hstart := ((hc c hcp) c c.self_mem_walk).first hk a ha b hb hkb
    rw [span_of_readAs hqm hs', span_of_concrete? hplace', hspan, span_of_concrete? hplace]
    exact hstart

/-! ### Spans -/

theorem Part.span_lt (hp : p.Among Filled) (hs : p.Sound text) : p.span.start < p.span.stop := by
  cases p with
  | noParameters => exact hs.elim
  | className named c =>
    rw [Part.span, Part.concrete?]
    split_ifs
    · exact (hp c (List.mem_cons_of_mem _ List.mem_cons_self)).lt
    · exact (hp named List.mem_cons_self).lt
  | spread c _ => exact (hp c List.mem_cons_self).lt
  | opening _ c => exact (hp c List.mem_cons_self).lt
  | _ c => exact (hp c List.mem_cons_self).lt

theorem Part.inside_le (p : Part) : p.span.start = p.inside.start ∧ p.inside.stop ≤ p.span.stop := by
  cases p with
  | opening selfClosing c => cases selfClosing <;> simp [Part.inside, Part.span, Part.concrete?]
  | _ => exact ⟨rfl, le_rfl⟩

theorem children_row (h : ReadAs s p n) (hs : p.Sound text) :
    Row p.inside.start p.inside.stop (n.children.map Node.span) := by
  cases h with
  | fill _ hks =>
    rw [spans_of_readAs hks hs.fits.sound]
    exact hs.fits.row

/-- The nodes below a node lie in its span. -/
theorem within_of_readAs (h : ReadAs s p n) (hs : p.Sound text) (hm : m ∈ n.walk) :
    p.span.start ≤ m.span.start ∧ m.span.stop ≤ p.span.stop := by
  induction n using Node.induct generalizing p with
  | step n ih =>
    rcases Node.mem_walk.1 hm with rfl | ⟨k, hk, hmk⟩
    · rw [span_of_readAs h hs]
      exact ⟨le_rfl, le_rfl⟩
    · cases h with
      | fill _ hks =>
        obtain ⟨q, hq, hqk⟩ := exists_of_forall₂ hks hk
        have hsound := hs.fits.sound q hq
        have hrow := hs.fits.row.mem (List.mem_map_of_mem hq)
        have hwithin := ih k hk hqk hsound hmk
        have hinside := p.inside_le
        omega

/-- What nodes inside a text are read from. -/
def ReadInside (s : Source) (text : String) (n : Node) : Prop :=
  ∃ p : Part, (p.Among Opened ∧ p.Sound text) ∧ ReadAs s p n

theorem ReadInside.of_walk (h : ReadInside s text n) (hm : m ∈ n.walk) : ReadInside s text m := by
  obtain ⟨p, hp, hn⟩ := h
  exact hn.exists_part (fun q hq r hr => ⟨outline_among downward_opened hq.1 r hr,
    hq.2.fits.sound r hr⟩) hp hm

theorem ReadInside.span_lt (h : ReadInside s text n) (hform : n.label.form ∈ markupForms) :
    n.span.start < n.span.stop := by
  obtain ⟨p, hp, hn⟩ := h
  rw [hn.label_eq] at hform
  obtain ⟨c, hc, hplace, hk, -⟩ := markup_of_form hp.2 hform
  rw [span_of_readAs hn hp.2, span_of_concrete? hplace]
  exact ((hp.1 c hc) c c.self_mem_walk).filled hk

theorem ReadInside.within (h : ReadInside s text n) (hm : m ∈ n.walk) :
    n.span.start ≤ m.span.start ∧ m.span.stop ≤ n.span.stop := by
  obtain ⟨p, hp, hn⟩ := h
  rw [span_of_readAs hn hp.2]
  exact within_of_readAs hn hp.2 hm

/-- Nodes with text in them that start together stand below the same one of several nodes in a
row. -/
theorem eq_of_row {k k' : Node} {kids : List Node} {start stop : Nat}
    (hrow : Row start stop (kids.map Node.span)) (hread : ∀ k ∈ kids, ReadInside s text k)
    (hk : k ∈ kids) (hk' : k' ∈ kids) (hm : m ∈ k.walk) (hm' : m' ∈ k'.walk)
    (hlt : m.span.start < m.span.stop) (hlt' : m'.span.start < m'.span.stop)
    (hstart : m.span.start = m'.span.start) : k = k' := by
  have hin := (hread k hk).within hm
  have hin' := (hread k' hk').within hm'
  rcases hrow.eq_or_apart hk hk' with he | hapart | hapart
  · exact he
  · omega
  · omega

/-! ### Marked nodes -/

theorem leaf_or_markup {l : Label} (h : l.mark? = some mark) :
    mark = .name ∧ l.name?.isSome ∨ mark ≠ .name ∧ l.form ∈ markupForms := by
  cases l <;> cases h <;> simp [Label.name?, Label.form, markupForms]

/-- A marked node starts before those of its mark that stand below it. -/
theorem start_ne_of_marked (h : ReadInside s text n) (hleaf : n.label.name?.isSome → n.children = [])
    (hmark : n.label.mark? = some mark) (hm : m ∈ n.children.flatMap Node.walk)
    (hmark' : m.label.mark? = some mark) : n.span.start ≠ m.span.start := by
  obtain ⟨p, hp, hn⟩ := h
  rcases leaf_or_markup hmark with ⟨-, hname⟩ | ⟨hne, hform⟩
  · rw [hleaf hname] at hm
    cases hm
  · rcases leaf_or_markup hmark' with ⟨he, -⟩ | ⟨-, hform'⟩
    · exact absurd he hne
    · exact (start_lt_of_markup hn hp.1 hp.2 hform hm hform').ne

/-- Nodes of one mark that start together are the same. -/
theorem eq_of_start (h : ReadInside s text n)
    (hleaf : ∀ m ∈ n.walk, m.label.name?.isSome → m.children = []) (hm : m ∈ n.walk)
    (hm' : m' ∈ n.walk) (hmark : m.label.mark? = some mark) (hmark' : m'.label.mark? = some mark)
    (hlt : m.span.start < m.span.stop) (hlt' : m'.span.start < m'.span.stop)
    (hstart : m.span.start = m'.span.start) : m = m' := by
  induction n using Node.induct with
  | step n ih =>
    rcases Node.mem_walk.1 hm with rfl | ⟨k, hk, hmk⟩ <;>
      rcases Node.mem_walk.1 hm' with rfl | ⟨k', hk', hmk'⟩
    · rfl
    · exact absurd hstart (start_ne_of_marked h (hleaf m hm) hmark
        (List.mem_flatMap.2 ⟨k', hk', hmk'⟩) hmark')
    · exact absurd hstart.symm (start_ne_of_marked h (hleaf m' hm') hmark'
        (List.mem_flatMap.2 ⟨k, hk, hmk⟩) hmark)
    · have hkids : ∀ k ∈ n.children, ReadInside s text k := fun k hk =>
        h.of_walk (Node.child_mem_walk hk)
      obtain ⟨p, hp, hn⟩ := h
      obtain rfl := eq_of_row (children_row hn hp.2) hkids hk hk' hmk hmk' hlt hlt' hstart
      exact ih k hk (hkids k hk) (fun a ha => hleaf a (Node.mem_walk_of_child hk ha)) hmk hmk'

/-! ### Documents -/

section Documents

variable {grammar : Grammar} {path : String} {d : Document}

/-- The place of an element, an attribute, a pair of braces or a name that is not empty tells which
one it is. -/
theorem eq_of_position (hc : (grammar (.ofPath path) text).Readable text)
    (hplain : (grammar (.ofPath path) text).TagsPlain)
    (hopens : ∀ c ∈ (grammar (.ofPath path) text).walk, c.Opens)
    (h : Document.read grammar path text = .ok d) (hm : m ∈ d.root.walk) (hm' : m' ∈ d.root.walk)
    (hmark : m.label.mark? = some mark) (hmark' : m'.label.mark? = some mark)
    (hname : mark = .name → m.span.start < m.span.stop ∧ m'.span.start < m'.span.stop)
    (hplace : m.place.position = m'.place.position) : m = m' := by
  obtain ⟨hsource, hr⟩ := read_readAs h
  have hformed := (read_wellFormed hplain h).root
  have hleaf : ∀ m ∈ d.root.walk, m.label.name?.isSome → m.children = [] := fun m hm =>
    (hformed.shaped m hm).leaf
  rw [hsource] at hr
  generalize grammar (.ofPath path) text = c at hc hr hopens
  have hread : ReadInside (.ofString path text) text d.root :=
    ⟨.node c, ⟨among_node hopens, hc⟩, hr⟩
  have hfull : ∀ k ∈ d.root.walk, k.label.mark? = some mark →
      (mark = .name → k.span.start < k.span.stop) → k.span.start < k.span.stop := by
    intro k hk hmark hname
    rcases leaf_or_markup hmark with ⟨rfl, -⟩ | ⟨-, hform⟩
    · exact hname rfl
    · exact (hread.of_walk hk).span_lt hform
  -- the places come from offsets between characters
  have hposition : ∀ k ∈ d.root.walk, k.span.start ∈ boundariesFrom 0 text.toList ∧
      k.place.position = (Source.ofString path text).position k.span.start := by
    intro k hk
    obtain ⟨q, hq, hqk⟩ := hread.of_walk hk
    rw [span_of_readAs hqk hq.2, hqk.place_eq]
    refine ⟨hq.2.whole.1, ?_⟩
    cases q with
    | noParameters => exact hq.2.elim
    | _ => rfl
  obtain ⟨hb, hp⟩ := hposition m hm
  obtain ⟨hb', hp'⟩ := hposition m' hm'
  exact eq_of_start hread hleaf hm hm' hmark hmark' (hfull m hm hmark fun he => (hname he).1)
    (hfull m' hm' hmark' fun he => (hname he).2)
    (position_injective hb hb' (hp.symm.trans (hplace.trans hp')))

/-- The place of an element, an attribute, a pair of braces or a name tells which one it is. -/
theorem read_apart (hc : (grammar (.ofPath path) text).Readable text)
    (hplain : (grammar (.ofPath path) text).TagsPlain)
    (hleads : ∀ c ∈ (grammar (.ofPath path) text).walk, c.Leads)
    (h : Document.read grammar path text = .ok d) (hm : m ∈ d.root.walk) (hm' : m' ∈ d.root.walk)
    (hmark : m.label.mark? = some mark) (hmark' : m'.label.mark? = some mark)
    (hplace : m.place.position = m'.place.position) : m = m' := by
  obtain ⟨-, hr⟩ := read_readAs h
  have hlabel := (read_wellFormed hplain h).root.program
  have hprogram := kind_of_program (hr.label_eq.symm.trans hlabel)
  have hopens := opens_of_leads hleads (by rw [hprogram]; decide)
  have hfull : ∀ m ∈ d.root.walk, m.label.mark? = some mark → m.span.start < m.span.stop := by
    intro m hm hmark
    have hne : m ≠ d.root := by
      rintro rfl
      rw [hlabel] at hmark
      cases hmark
    obtain ⟨k, hk, hmk⟩ := (Node.mem_walk.1 hm).resolve_left hne
    have hparts : ((Part.node (grammar (.ofPath path) text)).outline d.source).2 =
        (grammar (.ofPath path) text).namedChildren.map .node := by
      rw [Part.outline, nodeOutline.eq_def, hprogram]
      rfl
    generalize d.root = root at hr hk
    cases hr with
    | fill _ hks =>
      obtain ⟨q, hq, hqk⟩ := exists_of_forall₂ hks hk
      have hsound := Part.Sound.fits (p := .node (grammar (.ofPath path) text)) hc |>.sound q hq
      rw [hparts] at hq
      obtain ⟨b, hb, rfl⟩ := List.mem_map.1 hq
      obtain ⟨r, ⟨hfilled, hr⟩, hrm⟩ := hqk.exists_part
        (I := fun p => p.Among Filled ∧ p.Sound text)
        (fun q hq r hr => ⟨outline_among downward_filled hq.1 r hr, hq.2.fits.sound r hr⟩)
        ⟨among_node (.of_child hleads ((namedChildren_sublist _).subset hb)), hsound⟩ hmk
      rw [span_of_readAs hrm hr]
      exact Part.span_lt hfilled hr
  exact eq_of_position hc hplain hopens h hm hm' hmark hmark'
    (fun _ => ⟨hfull m hm hmark, hfull m' hm' hmark'⟩) hplace

/-- The text of no characters is empty. -/
theorem text_eq_empty (s : Source) {span : Span} (h : span.stop ≤ span.start) :
    s.text span = "" := by
  rw [Source.text, Source.characters, slice, Nat.sub_eq_zero_of_le h]
  rfl

/-- The name of a part is the text of a node in its span. -/
theorem exists_of_name? {x : String} (hs : p.Sound text) (hx : (p.outline s).1.name? = some x) :
    ∃ c, x = textOf s c ∧ p.span.start ≤ c.span.start ∧ c.span.stop ≤ p.span.stop := by
  have hnode : ∀ c : Concrete, c.Readable text → (nodeOutline s c).1.name? = some x →
      ∃ b, x = textOf s b ∧ c.span.start ≤ b.span.start ∧ b.span.stop ≤ c.span.stop := by
    intro c hc hx
    have hform := (Label.name?_isSome_iff _).1 (Option.isSome_iff_exists.2 ⟨x, hx⟩)
    have hk : c.kind ∈ ["identifier", "shorthand_property_identifier",
        "shorthand_property_identifier_pattern", "export_specifier"] :=
      @kind_of_form s c ["Identifier", "JSXName"] _ (by simpa using hform) (by decide) (by decide)
    simp only [List.mem_cons, List.not_mem_nil, or_false] at hk
    rcases hk with hk | hk | hk | hk <;> rw [nodeOutline.eq_def, hk] at hx
    · exact ⟨c, (Option.some.inj hx).symm, le_rfl, le_rfl⟩
    · exact ⟨c, (Option.some.inj hx).symm, le_rfl, le_rfl⟩
    · exact ⟨c, (Option.some.inj hx).symm, le_rfl, le_rfl⟩
    · have hx : (specifierOutline s c).1.name? = some x := hx
      rw [specifierOutline.eq_def] at hx
      split at hx
      · cases hx
      · next name hname =>
        split_ifs at hx
        · have hmem := mem_of_field? (Option.filter_eq_some_iff.1 hname).1
          have hin := hc.shape.nested.mem (List.mem_map_of_mem hmem)
          exact ⟨name, (Option.some.inj hx).symm, hin.1, hin.2.2⟩
        · cases hx
  cases p with
  | node c => exact hnode c hs hx
  | name c => exact ⟨c, (Option.some.inj hx).symm, le_rfl, le_rfl⟩
  | markupName c => exact ⟨c, (Option.some.inj hx).symm, le_rfl, le_rfl⟩
  | className named c =>
    rw [Part.span, Part.concrete?]
    rw [Part.outline] at hx
    split_ifs at hx ⊢
    · exact hnode c hs.2.1 hx
    · exact ⟨named, (Option.some.inj hx).symm, le_rfl, le_rfl⟩
  | parameters c =>
    rw [Part.outline] at hx
    split_ifs at hx <;> cases hx
  | _ => cases hx

/-- A name that is not empty has a span that is not. -/
theorem span_lt_of_text (hc : (grammar (.ofPath path) text).Readable text)
    (h : Document.read grammar path text = .ok d) (hm : m ∈ d.root.walk) (hx : m.text ≠ "") :
    m.span.start < m.span.stop := by
  obtain ⟨-, hr⟩ := read_readAs h
  obtain ⟨q, hq, hqm⟩ := hr.exists_part (I := (·.Sound text))
    (fun p hp q hq => hp.fits.sound q hq) hc hm
  rw [Node.text, hqm.label_eq] at hx
  cases hname : (q.outline d.source).1.name? with
  | none =>
    rw [hname] at hx
    exact absurd rfl hx
  | some x =>
    obtain ⟨c, rfl, hstart, hstop⟩ := exists_of_name? hq hname
    rw [span_of_readAs hqm hq]
    by_contra hlt
    refine hx ?_
    rw [hname, Option.getD_some, textOf, text_eq_empty]
    omega

end Documents

end Reading
end JsxLint
