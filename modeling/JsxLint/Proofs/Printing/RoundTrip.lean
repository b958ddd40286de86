import JsxLint.Proofs.Reading.Shape

/-!
# Printing what was read

A tree that was read and left alone is printed as the text that it was read from, just when the
names in its export lists are all that is written in their places: a name that doubles as an
exported one stands for its whole specifier, but is printed as the name alone.

* `Copies`: bytes that are no longer than a range of the source, and as long only as a copy of it;
* `Node.Exact`: whether the exported names of a tree stand alone;
* `prints_of_readAs`: what is read prints as a copy of its span, when it is exact;
* `printText_eq_iff`: the same of documents.
-/

namespace JsxLint

/-- Whether a label is that of a name that doubles as an exported one. -/
def Label.isExported : Label → Bool
  | .identifier _ _ (some .exported) => true
  | _ => false

/-- Whether every exported name at or below a node is all that stands in its place. -/
def Node.Exact (s : Source) (n : Node) : Prop :=
  ∀ m ∈ n.walk, m.label.isExported → (m.place.span.map s.text).getD "" = m.text

theorem Node.exact_iff {s : Source} {n : Node} (h : n.label.isExported = false) :
    n.Exact s ↔ ∀ c ∈ n.children, c.Exact s := by
  refine ⟨fun hn c hc m hm => hn m (mem_walk_of_child hc hm), fun hc m hm he => ?_⟩
  rcases mem_walk.1 hm with rfl | ⟨c, hcn, hm⟩
  · rw [h] at he
    cases he
  · exact hc c hcn m hm he

/-! ### Copies of the source -/

/-- Bytes no longer than a range of the source, and as long only as a copy of the range; `exact` is
what makes them one. -/
structure Copies (source : Bytes) (start stop : Nat) (exact : Prop) (bs : Bytes) : Prop where
  short : bs.length ≤ stop - start
  full : bs.length = stop - start → exact
  copy : exact → bs = slice source start stop

/-- A printing that copies a range of the source. -/
def Prints (source : Bytes) (start stop : Nat) (exact : Prop) (r : Except PrintError Bytes) :
    Prop :=
  ∃ bs, r = .ok bs ∧ Copies source start stop exact bs

section Copies

variable {source : Bytes} {a b c : Nat} {p q : Prop} {bs cs : Bytes}

theorem Copies.slice (h : b ≤ source.length) : Copies source a b True (slice source a b) :=
  ⟨(length_slice h).le, fun _ => trivial, fun _ => rfl⟩

theorem Copies.append (h : Copies source a b p bs) (h' : Copies source b c q cs) (hab : a ≤ b)
    (hbc : b ≤ c) : Copies source a c (p ∧ q) (bs ++ cs) := by
  have h1 := h.short
  have h2 := h'.short
  refine ⟨?_, fun hl => ?_, fun hpq => ?_⟩
  · rw [List.length_append]
    omega
  · rw [List.length_append] at hl
    exact ⟨h.full (by omega), h'.full (by omega)⟩
  · rw [h.copy hpq.1, h'.copy hpq.2, slice_append hab hbc]

theorem Copies.congr (h : Copies source a b p bs) (hpq : p ↔ q) : Copies source a b q bs :=
  ⟨h.short, fun hl => hpq.1 (h.full hl), fun hq => h.copy (hpq.2 hq)⟩

theorem Prints.congr {r : Except PrintError Bytes} (h : Prints source a b p r) (hpq : p ↔ q) :
    Prints source a b q r := by
  obtain ⟨bs, hr, hc⟩ := h
  exact ⟨bs, hr, hc.congr hpq⟩

end Copies

/-! ### Nodes with their children -/

section Nodes

variable {text : String} {s : Source} {source : Bytes} {start stop : Nat}

/-- Nodes with their spans, each of which prints as a copy of its span when it is exact. -/
def PrintsKids (s : Source) (source : Bytes) (spans : List Span) (kids : List Node) : Prop :=
  List.Forall₂ (fun span n => n.place.span = some span ∧
    Prints source span.start span.stop (n.Exact s) (n.print source)) spans kids

theorem gap_nil (source : Bytes) (start stop : Nat) :
    Printer.gap source [] start stop = slice source start stop := by
  rw [Printer.gap, List.mergeSort_nil]
  rfl

/-- The source around children that copy their spans is copied as a whole. -/
theorem spliceFrom_prints {owner : Label} {spans : List Span} {kids : List Node}
    (ho : owner.removed = []) (hk : PrintsKids s source spans kids) (hr : Row start stop spans)
    (hs : stop ≤ source.length) : Prints source start stop (∀ n ∈ kids, n.Exact s)
      (Printer.spliceFrom source owner start stop (kids.map fun n => (n, n.print source))) := by
  induction hk generalizing start with
  | nil =>
    refine ⟨slice source start stop, ?_, (Copies.slice hs).congr ?_⟩
    · rw [List.map_nil, Printer.spliceFrom, ho, gap_nil]
    · exact ⟨fun _ n hn => (by cases hn), fun _ => trivial⟩
  | @cons span n spans kids hn _ ih =>
    obtain ⟨hsp, bs, hp, hc⟩ := hn
    obtain ⟨h1, h2, h3⟩ := hr
    obtain ⟨tail, ht, hct⟩ := ih h3
    have hle := h3.le
    refine ⟨slice source start span.start ++ bs ++ tail, ?_, ?_⟩
    · rw [List.map_cons, Printer.spliceFrom, hsp]
      dsimp only
      rw [hp, ht, ho, gap_nil]
      rfl
    · have hg : Copies source start span.start True (slice source start span.start) :=
        .slice (h2.trans (hle.trans hs))
      refine (((hg.append hc h1 h2).append hct (h1.trans h2) hle)).congr ?_
      rw [true_and, List.forall_mem_cons]

theorem madeAttributes_eq_nil {spans : List Span} {kids : List Node}
    (hk : PrintsKids s source spans kids) :
    Printer.madeAttributes (kids.map fun n => (n, n.print source)) = .ok [] := by
  induction hk with
  | nil => rfl
  | cons hn _ ih =>
    rw [List.map_cons, Printer.madeAttributes, Node.isMade, hn.1]
    exact ih

/-- The attributes of a tag are copied up to the last of them. -/
theorem readAttributes_prints {spans : List Span} {kids : List Node}
    (hk : PrintsKids s source spans kids) (hr : Row start stop spans) (hs : stop ≤ source.length) :
    ∃ bs last, Printer.readAttributes source start (kids.map fun n => (n, n.print source)) =
      .ok (bs, last) ∧ start ≤ last ∧ last ≤ stop ∧
        Copies source start last (∀ n ∈ kids, n.Exact s) bs := by
  induction hk generalizing start with
  | nil =>
    refine ⟨[], start, rfl, le_rfl, hr, ?_, fun _ n hn => (by cases hn), fun _ => ?_⟩
    · exact Nat.zero_le _
    · rw [slice, Nat.sub_self, List.take_zero]
  | @cons span n spans kids hn _ ih =>
    obtain ⟨hsp, bs, hp, hc⟩ := hn
    obtain ⟨h1, h2, h3⟩ := hr
    obtain ⟨tail, last, ht, hl1, hl2, hct⟩ := ih h3
    refine ⟨slice source start span.start ++ bs ++ tail, last, ?_, (h1.trans h2).trans hl1, hl2, ?_⟩
    · rw [List.map_cons, Printer.readAttributes, hsp]
      dsimp only
      rw [hp, ht]
      rfl
    · have hg : Copies source start span.start True (slice source start span.start) :=
        .slice (h2.trans (hl1.trans (hl2.trans hs)))
      refine (((hg.append hc h1 h2).append hct (h1.trans h2) hl1)).congr ?_
      rw [true_and, List.forall_mem_cons]

/-- Whether nodes with a label are printed by splicing their children into the source. -/
def Label.isSpliced : Label → Bool
  | .identifier .. | .stringLiteral .. | .markupName _ | .markupText _ | .openingTag _
  | .element .. | .bare => false
  | _ => true

theorem PrintsKids.isMade_eq_false {spans : List Span} {kids : List Node}
    (hk : PrintsKids s source spans kids) : ∀ n ∈ kids, n.isMade = false := by
  induction hk with
  | nil => exact fun n hn => (by cases hn)
  | cons hn _ ih => exact List.forall_mem_cons.2 ⟨by rw [Node.isMade, hn.1]; rfl, ih⟩

theorem assemble_eq_splice {n : Node} (hl : n.label.isSpliced) (hm : n.isMade = false)
    (hk : ∀ c ∈ n.children, c.isMade = false) :
    Printer.assemble source n (n.children.map fun c => (c, c.print source)) =
      Printer.splice source n (n.children.map fun c => (c, c.print source)) := by
  have ha : (n.children.map fun c => (c, c.print source)).all (!·.1.isMade) = true := by
    rw [List.all_map, List.all_eq_true]
    intro c hc
    rw [Function.comp_apply, hk c hc]
    rfl
  rw [Printer.assemble]
  split <;> simp_all [Label.isSpliced, Printer.parameters, Printer.container,
    Printer.markupAttribute]

/-- A node is copied by splicing when its children are copied in their places. -/
theorem splice_prints {n : Node} {spans : List Span} {span : Span} (hl : n.label.removed = [])
    (he : n.label.isExported = false) (hn : n.place.span = some span)
    (hk : PrintsKids s source spans n.children) (hr : Row span.start span.stop spans)
    (hs : span.stop ≤ source.length) : Prints source span.start span.stop (n.Exact s)
      (Printer.splice source n (n.children.map fun c => (c, c.print source))) := by
  rw [Printer.splice, hn]
  exact (spliceFrom_prints hl hk hr hs).congr (Node.exact_iff he).symm

theorem stripEnd_of_suffix {bs : Bytes} (h : [0x2F, 0x3E] <:+ bs) : Bytes.stripEnd bs = bs := by
  obtain ⟨bs, rfl⟩ := h
  rw [Bytes.stripEnd, Text.dropEndWhile, List.reverse_append]
  show ((0x3E :: 0x2F :: bs.reverse).dropWhile Bytes.isBlank).reverse = _
  rw [List.dropWhile_cons_of_neg (by decide)]
  simp

/-- A tag that is written as its label says keeps its end. -/
theorem closeTag_eq_append {selfClosing : Bool} {body tail : Bytes}
    (h : selfClosing → [0x2F, 0x3E] <:+ tail) :
    Printer.closeTag selfClosing body tail = body ++ tail := by
  rw [Printer.closeTag]
  cases selfClosing with
  | false => rfl
  | true =>
    rw [stripEnd_of_suffix (h rfl), Printer.endsSelfClosed, List.isSuffixOf_iff_suffix.2 (h rfl)]
    rfl

/-- An opening tag is copied when its name and its attributes are; one that closes itself must be
written so, behind its attributes. -/
theorem openingTag_prints {n : Node} {selfClosing : Bool} {spans : List Span} {span : Span}
    (hl : n.label = .openingTag selfClosing) (hc : n.children ≠ [])
    (hn : n.place.span = some span) (hk : PrintsKids s source spans n.children)
    (hr : Row span.start stop spans) (hs : stop ≤ span.stop) (hb : span.stop ≤ source.length)
    (hz : selfClosing → [0x2F, 0x3E] <:+ slice source stop span.stop) :
    Prints source span.start span.stop (n.Exact s)
      (Printer.openingTag source n selfClosing (n.children.map fun c => (c, c.print source))) := by
  have he : n.Exact s ↔ ∀ c ∈ n.children, c.Exact s := Node.exact_iff (by rw [hl]; rfl)
  obtain ⟨name, attributes, hna⟩ := List.exists_cons_of_ne_nil hc
  rw [hna] at hk he ⊢
  cases hk with
  | @cons nameSpan _ _ _ hname hattrs =>
    obtain ⟨hnsp, nameBytes, hnp, hnc⟩ := hname
    obtain ⟨h1, h2, h3⟩ := hr
    obtain ⟨read, last, hread, hl1, hl2, hrc⟩ := readAttributes_prints hattrs h3 (hs.trans hb)
    have hhead : Copies source span.start nameSpan.start True
        (slice source span.start nameSpan.start) :=
      .slice (h2.trans (h3.le.trans (hs.trans hb)))
    have htail : Copies source last span.stop True (slice source last span.stop) := .slice hb
    have hclose : selfClosing → [0x2F, 0x3E] <:+ slice source last span.stop := fun hsc => by
      rw [← slice_append hl2 hs]
      exact (hz hsc).trans (List.suffix_append _ _)
    refine ⟨slice source span.start nameSpan.start ++ nameBytes ++ read ++
      slice source last span.stop, ?_, ?_⟩
    · rw [List.map_cons, Printer.openingTag, hnp, madeAttributes_eq_nil hattrs]
      simp only [Printer.startOf, Printer.openingTag.startOf', Printer.openingTag.nameEnd,
        Printer.stopOf, hn, hnsp, Option.map_some, Option.getD_some, hread]
      simp only [Bind.bind, Except.bind, closeTag_eq_append hclose, List.append_nil]
      rfl
    · refine ((((hhead.append hnc h1 h2).append hrc (h1.trans h2) hl1).append htail
        ((h1.trans h2).trans hl1) (hl2.trans hs))).congr ?_
      rw [he, true_and, and_true, List.forall_mem_cons]

end Nodes

/-! ### What was read -/

namespace Reading

section

variable {s : Source} {path text : String} {c : Concrete}

/-- The outlines of nodes by the way that they are printed. -/
inductive OutlineForm (s : Source) (c : Concrete) : Label × List Part → Prop
  | spliced {label : Label} {parts : List Part} (h : label.isSpliced) (hr : label.removed = []) :
    OutlineForm s c (label, parts)
  | name {shorthand : Option Shorthand} (h : shorthand ≠ some .exported) :
    OutlineForm s c (.identifier (textOf s c) (textOf s c) shorthand, [])
  | exported {b : Concrete} (hb : c.field? "name" = some b) :
    OutlineForm s c (.identifier (textOf s b) (textOf s b) (some .exported), [])
  | string (value quote : String) : OutlineForm s c (.stringLiteral value quote, [])
  | text (text : String) : OutlineForm s c (.markupText text, [])
  | element (isClosed : Bool) (tag : Concrete) (parts : List Part) :
    OutlineForm s c (.element isClosed [], .opening false tag :: parts)
  | selfClosing (hk : c.kind = "jsx_self_closing_element") :
    OutlineForm s c (.element false [], [.opening true c])

theorem nodeOutline_form (s : Source) (c : Concrete) : OutlineForm s c (nodeOutline s c) := by
  rw [nodeOutline]
  split
  case h_17 =>
    rw [binaryOutline]
    split <;> exact .spliced rfl rfl
  case h_18 =>
    rw [parenthesizedOutline]
    split <;> exact .spliced rfl rfl
  case h_19 => exact .name (by decide)
  case h_20 | h_21 => exact .name (by decide)
  case h_22 => exact .string _ _
  case h_24 =>
    rw [exportOutline]
    split <;> exact .spliced rfl rfl
  case h_25 =>
    rw [specifierOutline.eq_def]
    split
    · exact .spliced rfl rfl
    · next name hn =>
      split_ifs
      · exact .exported (Option.filter_eq_some_iff.1 hn).1
      · exact .spliced rfl rfl
  case h_29 =>
    rw [elementOutline]
    split
    · exact .spliced rfl rfl
    · exact .element _ _ _
  case h_30 hk => exact .selfClosing hk
  case h_33 | h_34 => exact .text _
  all_goals exact .spliced rfl rfl

/-! ### Parts -/

variable {n : Node} {span : Span}

theorem leaf_exact (he : n.label.isExported = false) (hc : n.children = []) : n.Exact s :=
  (Node.exact_iff he).2 fun c h => by rw [hc] at h; cases h

/-- A name that is all that stands in its place is printed as it was read. -/
theorem spelled_prints (hw : span.Whole text) (he : n.Exact (.ofString path text))
    (hp : n.print (Utf8.encode text) = .ok (Utf8.encode ((Source.ofString path text).text span))) :
    Prints (Utf8.encode text) span.start span.stop (n.Exact (.ofString path text))
      (n.print (Utf8.encode text)) := by
  refine ⟨_, hp, ?_⟩
  rw [hw.encode_text path]
  exact (Copies.slice hw.stop_le).congr (iff_of_true trivial he)

theorem bytesRead_prints (hw : span.Whole text) (he : n.Exact s)
    (hp : n.print (Utf8.encode text) = .ok (slice (Utf8.encode text) span.start span.stop)) :
    Prints (Utf8.encode text) span.start span.stop (n.Exact s) (n.print (Utf8.encode text)) :=
  ⟨_, hp, (Copies.slice hw.stop_le).congr (iff_of_true trivial he)⟩

theorem identifierText_self (isMade : Bool) (name : String) (shorthand : Option Shorthand) :
    Printer.identifierText isMade name name shorthand = name := by
  rcases shorthand with - | - | - <;> simp [Printer.identifierText]

theorem print_identifier {source : Bytes} {name : String} {shorthand : Option Shorthand}
    (hl : n.label = .identifier name name shorthand) :
    n.print source = .ok (Utf8.encode name) := by
  rw [Node.print_eq, Printer.assemble, hl]
  dsimp only
  rw [identifierText_self]

/-- A name in an export list is printed as it was read just when it is its whole specifier. -/
theorem exported_prints {name : Span} (hw : span.Whole text) (hnw : name.Whole text)
    (h1 : span.start ≤ name.start) (h2 : name.stop ≤ span.stop) (hsp : n.place.span = some span)
    (hc : n.children = []) (hl : n.label = .identifier ((Source.ofString path text).text name)
      ((Source.ofString path text).text name) (some .exported)) :
    Prints (Utf8.encode text) span.start span.stop (n.Exact (.ofString path text))
      (n.print (Utf8.encode text)) := by
  have he : n.Exact (.ofString path text) ↔
      (Source.ofString path text).text span = (Source.ofString path text).text name := by
    have ht : n.text = (Source.ofString path text).text name := by rw [Node.text, hl]; rfl
    refine ⟨fun h => ?_, fun h m hm _ => ?_⟩
    · have hn := h n n.self_mem_walk (by rw [hl]; rfl)
      rwa [hsp, ht] at hn
    · rcases Node.mem_walk.1 hm with rfl | ⟨c, hcn, -⟩
      · rw [hsp, ht]
        exact h
      · rw [hc] at hcn
        cases hcn
  have hlen := length_slice (a := name.start) hnw.stop_le
  have hle := hnw.2.2
  refine ⟨_, print_identifier hl, ?_, fun h => he.2 ?_, fun h => ?_⟩
  · rw [hnw.encode_text path, hlen]
    omega
  · rw [hnw.encode_text path, hlen] at h
    have hs : span = name := by
      obtain ⟨a, b⟩ := span
      obtain ⟨c, d⟩ := name
      have h3 : a = c ∧ b = d := ⟨by simp only at *; omega, by simp only at *; omega⟩
      rw [h3.1, h3.2]
    rw [hs]
  · rw [← hw.encode_text path, he.1 h]

/-- A node that splices its children is copied when they are. -/
theorem spliced_prints {spans : List Span} (hw : span.Whole text) (hl : n.label.isSpliced)
    (hr : n.label.removed = []) (hsp : n.place.span = some span)
    (hk : PrintsKids s (Utf8.encode text) spans n.children) (hrow : Row span.start span.stop spans) :
    Prints (Utf8.encode text) span.start span.stop (n.Exact s) (n.print (Utf8.encode text)) := by
  have he : n.label.isExported = false := by
    cases hn : n.label <;> simp_all [Label.isSpliced, Label.isExported]
  have hm : n.isMade = false := by rw [Node.isMade, hsp]; rfl
  rw [Node.print_eq, assemble_eq_splice hl hm hk.isMade_eq_false]
  exact splice_prints hr he hsp hk hrow hw.stop_le

theorem isSelfClosing_element {isClosed selfClosing : Bool} {removed : List Span} {opening : Node}
    {rest : List Node} (hl : n.label = .element isClosed removed) (hc : n.children = opening :: rest)
    (ho : opening.label = .openingTag selfClosing) : n.isSelfClosing = selfClosing := by
  have he : n.element?.map (·.opening) = some opening := by
    rw [Node.element?, hl, hc]
    cases isClosed <;> rfl
  obtain ⟨parts, hp, hpo⟩ := Option.map_eq_some_iff.1 he
  rw [Node.isSelfClosing, hl, hp]
  dsimp only
  rw [hpo, ho]
  cases selfClosing <;> rfl

/-- The step of the induction for nodes that are read by their kind. -/
theorem node_prints (hc : c.Readable text) (hsp : n.place.span = some c.span)
    (hl : n.label = (nodeOutline (.ofString path text) c).1)
    (hr : List.Forall₂ (ReadAs (.ofString path text)) (nodeOutline (.ofString path text) c).2
      n.children)
    (hk : PrintsKids (.ofString path text) (Utf8.encode text)
      ((nodeOutline (.ofString path text) c).2.map Part.span) n.children) :
    Prints (Utf8.encode text) c.span.start c.span.stop (n.Exact (.ofString path text))
      (n.print (Utf8.encode text)) := by
  have hw := hc.shape.whole
  have hrow := (nodeOutline_fits (s := .ofString path text) hc).row
  have hform := nodeOutline_form (.ofString path text) c
  have hm : n.isMade = false := by rw [Node.isMade, hsp]; rfl
  generalize nodeOutline (.ofString path text) c = o at hl hr hk hrow hform
  cases hform with
  | spliced h hrm => exact spliced_prints hw (hl ▸ h) (hl ▸ hrm) hsp hk hrow
  | @name shorthand h =>
    have he : n.label.isExported = false := by
      rw [hl]
      rcases shorthand with - | - | - <;> first | rfl | exact (h rfl).elim
    exact spelled_prints hw (leaf_exact he (List.forall₂_nil_left_iff.1 hr)) (print_identifier hl)
  | exported hb =>
    have h := hc.shape.nested.mem (List.mem_map_of_mem (Concrete.mem_of_field? hb))
    exact exported_prints hw (hc.field hb).shape.whole h.1 h.2.2 hsp
      (List.forall₂_nil_left_iff.1 hr) hl
  | string value quote =>
    refine bytesRead_prints hw (leaf_exact (hl ▸ rfl) (List.forall₂_nil_left_iff.1 hr)) ?_
    rw [Node.print_eq, Printer.assemble, hl]
    simp [Printer.leaf, Printer.bytesRead, hm, hsp]
  | text t =>
    refine bytesRead_prints hw (leaf_exact (hl ▸ rfl) (List.forall₂_nil_left_iff.1 hr)) ?_
    rw [Node.print_eq, Printer.assemble, hl]
    simp [Printer.leaf, Printer.bytesRead, hm, hsp]
  | element isClosed tag parts =>
    obtain ⟨opening, rest, ho, -, hcs⟩ := List.forall₂_cons_left_iff.1 hr
    have hsc : n.isSelfClosing = false := by
      cases ho with
      | fill _ _ => exact isSelfClosing_element hl hcs rfl
    rw [Node.print_eq, Printer.assemble, hl]
    dsimp only
    rw [Printer.element, hsc]
    exact splice_prints (hl ▸ rfl) (hl ▸ rfl) hsp hk hrow hw.stop_le
  | selfClosing _ =>
    obtain ⟨opening, rest, ho, hrest, hcs⟩ := List.forall₂_cons_left_iff.1 hr
    cases hrest
    have hsc : n.isSelfClosing = true := by
      cases ho with
      | fill _ _ => exact isSelfClosing_element hl hcs rfl
    have he : n.Exact (.ofString path text) ↔ opening.Exact (.ofString path text) := by
      rw [Node.exact_iff (hl ▸ rfl), hcs, List.forall_mem_singleton]
    rw [hcs] at hk
    rw [Node.print_eq, Printer.assemble, hl, hcs]
    dsimp only
    rw [Printer.element, hsc]
    exact (List.forall₂_cons.1 hk).1.2.congr he.symm

/-- What is read is printed as a copy of its span, when it is exact. -/
theorem prints_of_readAs {p : Part} (h : ReadAs (.ofString path text) p n) (hp : p.Sound text) :
    Prints (Utf8.encode text) p.span.start p.span.stop (n.Exact (.ofString path text))
      (n.print (Utf8.encode text)) := by
  refine h.induct (P := fun p n => p.Sound text → Prints (Utf8.encode text) p.span.start
    p.span.stop (n.Exact (.ofString path text)) (n.print (Utf8.encode text))) ?_ hp
  intro p id parent kids _ hk hp
  have hf : Fits text p.inside (p.outline (.ofString path text)).2 := hp.fits
  have hkids : PrintsKids (.ofString path text) (Utf8.encode text)
      ((p.outline (.ofString path text)).2.map Part.span) kids := by
    refine List.forall₂_map_left_iff.2 (((List.forall₂_and_left _ _).2 ⟨hf.sound, hk⟩).imp ?_)
    rintro q m ⟨hq, hm, hp⟩
    exact ⟨hm.place_eq ▸ hq.place _, hp hq⟩
  have hread := hk.imp fun q m h => h.1
  have hsp := hp.place (.ofString path text)
  cases p with
  | node c => exact node_prints hp hsp rfl hread hkids
  | name c =>
    have hw := hp.shape.whole
    exact spelled_prints hw (leaf_exact rfl (List.forall₂_nil_left_iff.1 hread)) (print_identifier rfl)
  | markupName c =>
    have hw := hp.shape.whole
    exact spelled_prints hw (leaf_exact rfl (List.forall₂_nil_left_iff.1 hread)) rfl
  | className named c =>
    obtain ⟨hn, hc, -⟩ := hp
    rw [Part.span, Part.concrete?] at hsp ⊢
    rw [Part.outline] at hread hkids ⊢
    split_ifs at hsp hread hkids ⊢
    · exact node_prints hc hsp rfl hread hkids
    · exact spelled_prints hn.shape.whole (leaf_exact rfl (List.forall₂_nil_left_iff.1 hread))
        (print_identifier rfl)
  | parameters c =>
    rw [Part.outline] at hread hkids hf ⊢
    split_ifs at hread hkids hf ⊢
    · exact spliced_prints hp.shape.whole rfl rfl hsp hkids hf.row
    · exact spliced_prints hp.shape.whole rfl rfl hsp hkids hf.row
  | noParameters => exact hp.elim
  | opening selfClosing c =>
    obtain ⟨hc, hn, hkind⟩ := hp
    rw [Node.print_eq]
    have hne : kids ≠ [] := by
      rintro rfl
      have hnil := List.forall₂_nil_right_iff.1 hread
      rw [Part.outline, List.append_eq_nil_iff, List.map_eq_nil_iff, Option.toList_eq_nil_iff] at hnil
      rw [hnil.1] at hn
      cases hn
    cases selfClosing with
    | false =>
      exact openingTag_prints rfl hne hsp hkids hf.row le_rfl hc.shape.whole.stop_le
        (fun h => by cases h)
    | true =>
      refine openingTag_prints rfl hne hsp hkids hf.row (Nat.sub_le _ 2) hc.shape.whole.stop_le
        fun _ => ?_
      exact (hc.shape.selfClosing hkind).2.2 ▸ List.suffix_rfl
  | closing c => exact spliced_prints hp.shape.whole rfl rfl hsp hkids hf.row
  | spread c inner => exact spliced_prints hp.1.shape.whole rfl rfl hsp hkids hf.row
  | nothing c => exact spliced_prints hp.shape.whole rfl rfl hsp hkids hf.row

end

end Reading

/-! ### Documents -/

section Documents

variable {grammar : Grammar} {path text : String} {d : Document}

theorem textOf_eq (d : Document) (n : Node) :
    d.textOf n = (n.place.span.map d.source.text).getD "" := by
  rw [Document.textOf]
  cases n.place.span <;> rfl

theorem printText_eq_ok_iff {bs : Bytes} (h : d.print = .ok bs) :
    d.printText = .ok text ↔ bs = Utf8.encode text := by
  rw [← Utf8.decode?_eq_ok, Document.printText, h]
  show (Utf8.decode? bs).mapError PrintError.notText = .ok text ↔ _
  cases Utf8.decode? bs with
  | error e => exact ⟨fun h => (by cases h), fun h => (by cases h)⟩
  | ok t => exact ⟨fun h => (by cases h; rfl), fun h => (by cases h; rfl)⟩

/-- A document whose tree has a place is printed as the tree, between what stands around it. -/
theorem print_eq_ok {bs : Bytes} {span : Span} (hsrc : d.source.bytes = Utf8.encode text)
    (hsp : d.root.place.span = some span) (hz : span.stop = 0 → text = "")
    (hp : d.root.print (Utf8.encode text) = .ok bs) :
    d.print = .ok (slice (Utf8.encode text) 0 span.start ++ bs ++
      slice (Utf8.encode text) span.stop (Utf8.encode text).length) := by
  have hdrop : (Utf8.encode text).drop (if span.stop = 0 then (Utf8.encode text).length
      else span.stop) = slice (Utf8.encode text) span.stop (Utf8.encode text).length := by
    rw [slice_length]
    split_ifs with h0
    · rw [hz h0, h0]
      rfl
    · rfl
  rw [Document.print, hsrc]
  simp only [Printer.stopOf, Printer.startOf, hsp, Option.map_some, Option.getD_some, hp]
  rw [slice_zero, ← hdrop]
  rfl

/-- The printed document is a copy of the source when its tree is exact, and shorter otherwise. -/
theorem print_prints (hs : (grammar (.ofPath path) text).Readable text)
    (hz : (grammar (.ofPath path) text).span.stop = 0 → text = "")
    (h : Document.read grammar path text = .ok d) :
    Prints (Utf8.encode text) 0 (Utf8.encode text).length (d.root.Exact d.source) d.print := by
  obtain ⟨hsrc, hr⟩ := Reading.read_readAs h
  generalize grammar (.ofPath path) text = c at hs hz hr
  have hw := hs.shape.whole
  have hsp : d.root.place.span = some c.span := by rw [hr.place_eq]; rfl
  rw [hsrc] at hr ⊢
  obtain ⟨bs, hp, hc⟩ := Reading.prints_of_readAs hr hs
  refine ⟨_, print_eq_ok (by rw [hsrc, Reading.bytes_ofString]) hsp hz hp, ?_⟩
  have hhead := Copies.slice (a := 0) (hw.2.2.trans hw.stop_le)
  have htail := Copies.slice (a := c.span.stop) (le_refl (Utf8.encode text).length)
  refine ((hhead.append hc (Nat.zero_le _) hw.2.2).append htail (Nat.zero_le _) hw.stop_le).congr ?_
  rw [true_and, and_true]

/-- A document that was read and left alone is printed as its text, just when every name that
doubles as an exported one is all that is written in its place. -/
theorem printText_eq_iff (hs : (grammar (.ofPath path) text).Readable text)
    (hz : (grammar (.ofPath path) text).span.stop = 0 → text = "")
    (h : Document.read grammar path text = .ok d) :
    d.printText = .ok text ↔ ∀ n ∈ d.root.walk, n.label.isExported → d.textOf n = n.text := by
  obtain ⟨bs, hp, hc⟩ := print_prints hs hz h
  rw [printText_eq_ok_iff hp]
  have he : d.root.Exact d.source ↔
      ∀ n ∈ d.root.walk, n.label.isExported → d.textOf n = n.text := by
    simp only [textOf_eq]
    rfl
  rw [← he]
  refine ⟨fun hb => hc.full ?_, fun hx => ?_⟩
  · rw [hb]
    rfl
  · rw [hc.copy hx, slice_length]
    rfl

end Documents

/-- The tree of `export { type card };`, where the keyword belongs to the specifier. -/
def typedExport : Concrete :=
  ⟨"program", ⟨0, 22⟩, none, true, false, false,
    [⟨"export_statement", ⟨0, 21⟩, none, true, false, false,
      [⟨"export", ⟨0, 6⟩, none, false, false, false, []⟩,
        ⟨"export_clause", ⟨7, 20⟩, none, true, false, false,
          [⟨"\x7b", ⟨7, 8⟩, none, false, false, false, []⟩,
            ⟨"export_specifier", ⟨9, 18⟩, none, true, false, false,
              [⟨"type", ⟨9, 13⟩, none, false, false, false, []⟩,
                ⟨"identifier", ⟨14, 18⟩, some "name", true, false, false, []⟩]⟩,
            ⟨"\x7d", ⟨19, 20⟩, none, false, false, false, []⟩]⟩,
        ⟨";", ⟨20, 21⟩, none, false, false, false, []⟩]⟩]⟩

/-- A name that is exported as a type loses the keyword before it. -/
theorem printText_typedExport : ∃ d,
    Document.read (fun _ _ => typedExport) "A.tsx" "export \x7b type card \x7d;\n" = .ok d ∧
      d.printText ≠ .ok "export \x7b type card \x7d;\n" := by
  have hf : (Document.read (fun _ _ => typedExport) "A.tsx" "export \x7b type card \x7d;\n").map
      (fun d => d.root.walk.all fun n => !n.label.isExported || d.textOf n == n.text) =
        .ok false := by decide +kernel
  obtain ⟨d, hd, hx⟩ := Reading.map_eq_ok.1 hf
  have hiff := @printText_eq_iff (fun _ _ => typedExport) "A.tsx" _ d (by decide +kernel)
    (fun h => absurd h (by decide)) hd
  refine ⟨d, hd, fun hp => Bool.eq_false_iff.1 hx (List.all_eq_true.2 fun n hn => ?_)⟩
  have h := hiff.1 hp n hn
  cases he : n.label.isExported with
  | false => rfl
  | true => exact beq_iff_eq.2 (h he)

end JsxLint
