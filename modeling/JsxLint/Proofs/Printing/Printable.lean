import JsxLint.Proofs.Printing.RoundTrip
import JsxLint.Proofs.Reading.WellFormed
import JsxLint.Proofs.Text.Trivia

/-!
# Printable trees

A tree that was edited is printed as a text when every node of it has what printing needs: nodes
that were read hold whole characters, and nodes that an edit made stand where there is a place for
them. No more than that is asked of the spans: they need not even be in order.

* `Bytes.IsText`: the bytes of a text, and what can be cut from them;
* `Node.Printable`: what printing needs of one node;
* `print_isText`, `Document.Printable.printText`: trees of such nodes are printed;
* `Reading.read_printable`: what was read is printable.
-/

namespace JsxLint

/-! ### Bytes of texts -/

namespace Bytes

/-- Whether bytes are those of a text. -/
def IsText (bs : Bytes) : Prop :=
  ∃ t, bs = Utf8.encode t

variable {bs cs : Bytes} {b : UInt8}

theorem isText_nil : IsText [] :=
  ⟨"", rfl⟩

theorem IsText.append (hb : bs.IsText) (hc : cs.IsText) : IsText (bs ++ cs) := by
  obtain ⟨t, rfl⟩ := hb
  obtain ⟨u, rfl⟩ := hc
  exact ⟨t ++ u, (Utf8.encode_append t u).symm⟩

/-- A text whose last byte is an ASCII byte is a text without it. -/
theorem IsText.of_concat (h : IsText (bs ++ [b])) (hb : b.toNat < 0x80) : bs.IsText := by
  obtain ⟨t, ht⟩ := h
  rw [Utf8.encode] at ht
  rcases List.eq_nil_or_concat t.toList with hnil | ⟨cs, c, hcs⟩
  · simp [hnil] at ht
  · rw [hcs, List.concat_eq_append, List.flatMap_append, List.flatMap_singleton] at ht
    rcases utf8EncodeChar_last c with ⟨-, hc⟩ | ⟨-, l, b', hc, hle⟩
    · rw [hc] at ht
      refine ⟨.ofList cs, ?_⟩
      rw [Utf8.encode_ofList]
      exact (List.append_inj' ht rfl).1
    · rw [hc, ← List.append_assoc] at ht
      have hlast : [b] = [b'] := (List.append_inj' ht rfl).2
      simp only [List.cons.injEq, and_true] at hlast
      subst hlast
      omega

theorem IsText.stripEnd (h : bs.IsText) : (stripEnd bs).IsText := by
  obtain ⟨t, rfl⟩ := h
  exact ⟨stripBlank t, stripEnd_encode t⟩

theorem IsText.withoutAngle (h : bs.IsText) : (Printer.withoutAngle bs).IsText := by
  rw [Printer.withoutAngle]
  split_ifs with hs
  · obtain ⟨l, rfl⟩ := List.isSuffixOf_iff_suffix.1 hs
    rw [List.dropLast_concat]
    exact h.of_concat (by decide)
  · exact h

theorem IsText.closeTag (hb : bs.IsText) (hc : cs.IsText) (selfClosing : Bool) :
    (Printer.closeTag selfClosing bs cs).IsText := by
  rw [Printer.closeTag]
  split_ifs
  · have hend : IsText [0x20, 0x2F, 0x3E] := ⟨" />", by decide⟩
    exact (hb.stripEnd.append hc.stripEnd.withoutAngle.stripEnd).append hend
  · exact hb.append hc

end Bytes

/-! ### Boundaries -/

section Boundaries

open Bytes

variable {text : String} {a b : Nat}

theorem zero_boundary (text : String) : 0 ∈ boundariesFrom 0 text.toList := by
  cases text.toList <;> simp [boundariesFrom]

theorem length_mem_boundariesFrom (cs : List Char) (n : Nat) :
    n + (cs.flatMap String.utf8EncodeChar).length ∈ boundariesFrom n cs := by
  induction cs generalizing n with
  | nil => simp [boundariesFrom]
  | cons c cs ih =>
    rw [List.flatMap_cons, List.length_append, ← Nat.add_assoc, boundariesFrom]
    exact List.mem_cons_of_mem _ (ih _)

theorem length_boundary (text : String) :
    (Utf8.encode text).length ∈ boundariesFrom 0 text.toList := by
  simpa [Utf8.encode] using length_mem_boundariesFrom text.toList 0

/-- Between two boundaries, in whatever order, stands a text. -/
theorem slice_isText (ha : a ∈ boundariesFrom 0 text.toList)
    (hb : b ∈ boundariesFrom 0 text.toList) : (slice (Utf8.encode text) a b).IsText := by
  by_cases hle : a ≤ b
  · have hw : Span.Whole text ⟨a, b⟩ := ⟨ha, hb, hle⟩
    exact ⟨_, (hw.encode_text "").symm⟩
  · have hnil : slice (Utf8.encode text) a b = [] := by
      rw [slice, show b - a = 0 by omega, List.take_zero]
    rw [hnil]
    exact isText_nil

theorem gapFrom_isText {spans : List Span} (hs : ∀ span ∈ spans, span.Whole text)
    (ha : a ∈ boundariesFrom 0 text.toList) (hb : b ∈ boundariesFrom 0 text.toList) :
    (Printer.gapFrom (Utf8.encode text) a b spans).IsText := by
  induction spans generalizing a with
  | nil => exact slice_isText ha hb
  | cons span spans ih =>
    have hspan := hs span List.mem_cons_self
    have hspans : ∀ span ∈ spans, span.Whole text := fun s h => hs s (List.mem_cons_of_mem _ h)
    rw [Printer.gapFrom]
    split_ifs
    · exact ih hspans ha
    · exact (slice_isText ha hspan.1).append (ih hspans hspan.2.1)

theorem gap_isText {spans : List Span} (hs : ∀ span ∈ spans, span.Whole text)
    (ha : a ∈ boundariesFrom 0 text.toList) (hb : b ∈ boundariesFrom 0 text.toList) :
    (Printer.gap (Utf8.encode text) spans a b).IsText :=
  gapFrom_isText (fun span h => hs span (List.mem_mergeSort.1 h)) ha hb

end Boundaries

/-! ### Nodes -/

/-- Labels of made nodes that can be printed: names, braces and attributes. -/
def Label.isMakable : Label → Bool
  | .identifier .. | .markupName _ | .container _ | .markupAttribute => true
  | _ => false

namespace Node

/-- What printing needs of a node in a tree of a text. -/
structure Printable (text : String) (n : Node) : Prop where
  syntactic : n.label ≠ .bare
  /-- What was read holds whole characters. -/
  whole : ∀ span, n.place.span = some span → span.Whole text
  removed : ∀ span ∈ n.label.removed, span.Whole text
  /-- Only names, braces and attributes are made. -/
  makable : n.isMade → n.label.isMakable
  /-- A made child stands among parameters, behind the name of a tag, or below a made node. -/
  placed : ∀ i c, n.children[i]? = some c → c.isMade →
    n.isMade ∨ n.label.form = "Parameters" ∨ n.label.form = "JSXOpeningElement" ∧ 0 < i
  /-- A tag has a name. -/
  tagged : n.label.form = "JSXOpeningElement" → n.children ≠ []

theorem isMade_eq_false {n : Node} : n.isMade = false ↔ ∃ span, n.place.span = some span := by
  rw [isMade, Option.isNone_eq_false_iff, Option.isSome_iff_exists]

variable {text : String} {n c : Node}

/-- Where no made child has a place, all children were read. -/
theorem Printable.read_of_child (h : n.Printable text) (hn : n.isMade = false)
    (hp : n.label.form ≠ "Parameters") (ho : n.label.form ≠ "JSXOpeningElement")
    (hc : c ∈ n.children) : c.isMade = false := by
  obtain ⟨i, hi⟩ := List.mem_iff_getElem?.1 hc
  by_contra hm
  rw [Bool.not_eq_false] at hm
  rcases h.placed i c hi hm with hn' | hp' | ho'
  · rw [hn] at hn'
    cases hn'
  · exact hp hp'
  · exact ho ho'.1

end Node

/-! ### Printing -/

section Printing

open Node Bytes

variable {text : String} {n : Node} {kids : List Node} {source : Bytes}

/-- Whether printing gives a text. -/
def PrintsText (r : Except PrintError Bytes) : Prop :=
  ∃ bs, r = .ok bs ∧ bs.IsText

theorem printsText_ok {bs : Bytes} (h : bs.IsText) : PrintsText (.ok bs) :=
  ⟨bs, rfl, h⟩

theorem PrintsText.bind {r : Except PrintError Bytes} {f : Bytes → Except PrintError Bytes}
    (h : PrintsText r) (hf : ∀ bs, bs.IsText → PrintsText (f bs)) : PrintsText (r >>= f) := by
  obtain ⟨bs, rfl, hbs⟩ := h
  exact hf bs hbs

/-- Nodes that print texts, each with its printed form. -/
def PrintsTexts (source : Bytes) (kids : List Node) : Prop :=
  ∀ c ∈ kids, PrintsText (c.print source)

theorem spliceFrom_printsText {owner : Label} {cursor stop : Nat}
    (ho : ∀ span ∈ owner.removed, span.Whole text) (hk : PrintsTexts (Utf8.encode text) kids)
    (hw : ∀ c ∈ kids, ∃ span, c.place.span = some span ∧ span.Whole text)
    (hc : cursor ∈ boundariesFrom 0 text.toList) (hs : stop ∈ boundariesFrom 0 text.toList) :
    PrintsText (Printer.spliceFrom (Utf8.encode text) owner cursor stop
      (kids.map fun c => (c, c.print (Utf8.encode text)))) := by
  induction kids generalizing cursor with
  | nil => exact printsText_ok (gap_isText ho hc hs)
  | cons c kids ih =>
    obtain ⟨span, hspan, hwhole⟩ := hw c List.mem_cons_self
    have htail := ih (fun b hb => hk b (List.mem_cons_of_mem _ hb))
      (fun b hb => hw b (List.mem_cons_of_mem _ hb)) hwhole.2.1
    rw [List.map_cons, Printer.spliceFrom, hspan]
    refine (hk c List.mem_cons_self).bind fun body hbody => htail.bind fun tail htail => ?_
    exact printsText_ok (((gap_isText ho hc hwhole.1).append hbody).append htail)

/-- A node that was read, with children that were read, is spliced. -/
theorem splice_printsText (h : n.Printable text) (hn : n.isMade = false)
    (hchildren : ∀ c ∈ n.children, c.isMade = false ∧ c.Printable text)
    (hk : PrintsTexts (Utf8.encode text) n.children) :
    PrintsText (Printer.splice (Utf8.encode text) n
      (n.children.map fun c => (c, c.print (Utf8.encode text)))) := by
  obtain ⟨span, hspan⟩ := isMade_eq_false.1 hn
  have hwhole := h.whole span hspan
  rw [Printer.splice, hspan]
  refine spliceFrom_printsText h.removed hk (fun c hc => ?_) hwhole.1 hwhole.2.1
  obtain ⟨hread, hprintable⟩ := hchildren c hc
  obtain ⟨span, hspan⟩ := isMade_eq_false.1 hread
  exact ⟨span, hspan, hprintable.whole span hspan⟩

theorem text_encode (t : String) : Printer.text (Utf8.encode t) = .ok t := by
  simp [Printer.text, Except.mapError]

theorem text_eq_ok {bs : Bytes} (h : bs.IsText) : ∃ t, Printer.text bs = .ok t := by
  obtain ⟨t, rfl⟩ := h
  exact ⟨t, text_encode t⟩

/-- Nodes with the texts that they print. -/
def PrintedAs (source : Bytes) : List Node → List String → Prop :=
  List.Forall₂ fun c t => c.print source = .ok (Utf8.encode t)

theorem PrintsTexts.exists_printedAs (hk : PrintsTexts source kids) :
    ∃ ts, PrintedAs source kids ts := by
  induction kids with
  | nil => exact ⟨[], .nil⟩
  | cons c kids ih =>
    obtain ⟨bs, hbs, t, rfl⟩ := hk c List.mem_cons_self
    obtain ⟨ts, hts⟩ := ih fun b hb => hk b (List.mem_cons_of_mem _ hb)
    exact ⟨t :: ts, .cons hbs hts⟩

theorem PrintedAs.mapM_text {ts : List String} (h : PrintedAs source kids ts) :
    ((kids.map fun c => (c, c.print source)).mapM fun p => p.2 >>= Printer.text) = .ok ts := by
  induction h with
  | nil => rfl
  | cons hc _ ih =>
    rw [List.map_cons, List.mapM_cons, ih, hc]
    simp [bind, Except.bind, text_encode, pure, Except.pure]

theorem parameters_printsText (h : n.Printable text)
    (hchildren : ∀ c ∈ n.children, c.Printable text)
    (hk : PrintsTexts (Utf8.encode text) n.children) :
    PrintsText (Printer.parameters (Utf8.encode text) n
      (n.children.map fun c => (c, c.print (Utf8.encode text)))) := by
  rw [Printer.parameters]
  split_ifs with hread
  · simp only [Bool.and_eq_true, Bool.not_eq_true', List.all_map, List.all_eq_true,
      Function.comp_apply] at hread
    exact splice_printsText h hread.1 (fun c hc => ⟨hread.2 c hc, hchildren c hc⟩) hk
  · obtain ⟨ts, hts⟩ := hk.exists_printedAs
    exact ⟨_, by rw [hts.mapM_text]; rfl, _, rfl⟩

theorem container_printsText (h : n.Printable text) (hform : n.label.form = "JSXExpressionContainer")
    (hchildren : ∀ c ∈ n.children, c.Printable text)
    (hk : PrintsTexts (Utf8.encode text) n.children) :
    PrintsText (Printer.container (Utf8.encode text) n
      (n.children.map fun c => (c, c.print (Utf8.encode text)))) := by
  have hopen : IsText [0x7B] := ⟨"\x7b", by decide⟩
  have hclose : IsText [0x7D] := ⟨"\x7d", by decide⟩
  rw [Printer.container]
  split_ifs with hm
  · cases hc : n.children with
    | nil => exact printsText_ok (hopen.append hclose)
    | cons c rest =>
      rw [hc] at hk
      refine (hk c List.mem_cons_self).bind fun bs hbs => ?_
      exact printsText_ok ((hopen.append hbs).append hclose)
  · rw [Bool.not_eq_true] at hm
    refine splice_printsText h hm (fun c hc => ⟨?_, hchildren c hc⟩) hk
    exact h.read_of_child hm (by rw [hform]; decide) (by rw [hform]; decide) hc

theorem markupAttribute_printsText (h : n.Printable text) (hform : n.label.form = "JSXAttribute")
    (hchildren : ∀ c ∈ n.children, c.Printable text)
    (hk : PrintsTexts (Utf8.encode text) n.children) :
    PrintsText (Printer.markupAttribute (Utf8.encode text) n
      (n.children.map fun c => (c, c.print (Utf8.encode text)))) := by
  have hequals : IsText [0x3D] := ⟨"=", by decide⟩
  unfold Printer.markupAttribute
  split_ifs with hm
  · rcases hc : n.children with - | ⟨name, - | ⟨value, rest⟩⟩
    · exact printsText_ok isText_nil
    · rw [hc] at hk
      exact (hk name List.mem_cons_self).bind fun bs hbs => printsText_ok hbs
    · rw [hc] at hk
      refine (hk name List.mem_cons_self).bind fun bs hbs => ?_
      refine (hk value (List.mem_cons_of_mem _ List.mem_cons_self)).bind fun vs hvs => ?_
      exact printsText_ok ((hbs.append hequals).append hvs)
  · rw [Bool.not_eq_true] at hm
    refine splice_printsText h hm (fun c hc => ⟨?_, hchildren c hc⟩) hk
    exact h.read_of_child hm (by rw [hform]; decide) (by rw [hform]; decide) hc

/-! ### Tags -/

theorem madeAttributes_printsText (hk : PrintsTexts source kids) :
    PrintsText (Printer.madeAttributes (kids.map fun c => (c, c.print source))) := by
  have hspace : IsText [0x20] := ⟨" ", by decide⟩
  induction kids with
  | nil => exact printsText_ok isText_nil
  | cons c kids ih =>
    have htail := ih fun b hb => hk b (List.mem_cons_of_mem _ hb)
    rw [List.map_cons, Printer.madeAttributes]
    split_ifs
    · refine (hk c List.mem_cons_self).bind fun body hbody => htail.bind fun tail htail => ?_
      exact printsText_ok ((hspace.append hbody).append htail)
    · exact htail

/-- Where the last of some nodes that were read ends, if that is behind `cursor`. -/
def lastStop (cursor : Nat) (kids : List Node) : Nat :=
  kids.foldl (fun cursor c => (c.place.span.map (·.stop)).getD cursor) cursor

theorem readAttributes_isText {cursor : Nat} (hk : PrintsTexts (Utf8.encode text) kids)
    (hw : ∀ c ∈ kids, c.Printable text) (hc : cursor ∈ boundariesFrom 0 text.toList) :
    ∃ bs, Printer.readAttributes (Utf8.encode text) cursor
      (kids.map fun c => (c, c.print (Utf8.encode text))) = .ok (bs, lastStop cursor kids) ∧
        bs.IsText ∧ lastStop cursor kids ∈ boundariesFrom 0 text.toList := by
  induction kids generalizing cursor with
  | nil => exact ⟨[], rfl, isText_nil, hc⟩
  | cons c kids ih =>
    have htail := fun {k : Nat} => @ih k (fun b hb => hk b (List.mem_cons_of_mem _ hb))
      fun b hb => hw b (List.mem_cons_of_mem _ hb)
    rw [List.map_cons, Printer.readAttributes, lastStop, List.foldl_cons, ← lastStop]
    cases hspan : c.place.span with
    | none => exact htail hc
    | some span =>
      have hwhole := (hw c List.mem_cons_self).whole span hspan
      obtain ⟨body, hb, hbody⟩ := hk c List.mem_cons_self
      obtain ⟨tail, ht, htext, hlast⟩ := htail hwhole.2.1
      refine ⟨_, ?_, ((slice_isText hc hwhole.1).append hbody).append htext, hlast⟩
      dsimp only
      rw [hb, ht]
      rfl

theorem spanStart_boundary (h : n.Printable text) {k : Nat}
    (hk : k ∈ boundariesFrom 0 text.toList) :
    (n.place.span.map (·.start)).getD k ∈ boundariesFrom 0 text.toList := by
  cases hs : n.place.span with
  | none => exact hk
  | some span => exact (h.whole span hs).1

theorem spanStop_boundary (h : n.Printable text) {k : Nat}
    (hk : k ∈ boundariesFrom 0 text.toList) :
    (n.place.span.map (·.stop)).getD k ∈ boundariesFrom 0 text.toList := by
  cases hs : n.place.span with
  | none => exact hk
  | some span => exact (h.whole span hs).2.1

/-- What the source has of a tag behind its last part. -/
def tagTail (source : Bytes) (n : Node) : Bytes :=
  slice source (lastStop 0 n.children) (Printer.stopOf source n)

/-- A tag is printed up to its last part, with all attributes, and then ended by what the source has
behind that. -/
theorem openingTag_eq (h : n.Printable text) (hform : n.label.form = "JSXOpeningElement")
    (hchildren : ∀ c ∈ n.children, c.Printable text)
    (hk : PrintsTexts (Utf8.encode text) n.children) :
    (tagTail (Utf8.encode text) n).IsText ∧ ∃ body : Bytes, body.IsText ∧ ∀ selfClosing,
      Printer.openingTag (Utf8.encode text) n selfClosing
        (n.children.map fun c => (c, c.print (Utf8.encode text))) =
          .ok (Printer.closeTag selfClosing body (tagTail (Utf8.encode text) n)) := by
  obtain ⟨name, attributes, hc⟩ := List.exists_cons_of_ne_nil (h.tagged hform)
  rw [hc] at hchildren hk
  rw [tagTail, hc, lastStop, List.foldl_cons, ← lastStop]
  have hname := hchildren name List.mem_cons_self
  have hattributes : ∀ c ∈ attributes, c.Printable text := fun c hc =>
    hchildren c (List.mem_cons_of_mem _ hc)
  have hkids : PrintsTexts (Utf8.encode text) attributes := fun c hc =>
    hk c (List.mem_cons_of_mem _ hc)
  have h0 := zero_boundary text
  have hlen := length_boundary text
  obtain ⟨read, hread, hreadText, hlast⟩ :=
    readAttributes_isText hkids hattributes (spanStop_boundary hname h0)
  have hhead := slice_isText (spanStart_boundary h h0) (spanStart_boundary hname hlen)
  have htail := slice_isText hlast (spanStop_boundary h hlen)
  obtain ⟨nameBytes, hnameBytes, hnameText⟩ := hk name List.mem_cons_self
  obtain ⟨made, hmadeBytes, hmade⟩ := madeAttributes_printsText hkids
  refine ⟨htail, _, ((hhead.append hnameText).append hmade).append hreadText, fun selfClosing => ?_⟩
  rw [List.map_cons, Printer.openingTag, hnameBytes, hmadeBytes]
  simp only [Printer.openingTag.nameEnd, hread]
  rfl

theorem openingTag_printsText (h : n.Printable text) (hform : n.label.form = "JSXOpeningElement")
    (hchildren : ∀ c ∈ n.children, c.Printable text)
    (hk : PrintsTexts (Utf8.encode text) n.children) (selfClosing : Bool) :
    PrintsText (Printer.openingTag (Utf8.encode text) n selfClosing
      (n.children.map fun c => (c, c.print (Utf8.encode text)))) := by
  obtain ⟨htail, body, hbody, heq⟩ := openingTag_eq h hform hchildren hk
  exact ⟨_, heq selfClosing, hbody.closeTag htail selfClosing⟩

/-! ### Trees -/

theorem leaf_isText (h : n.Printable text) (t : String) :
    (Printer.leaf (Utf8.encode text) n t).IsText := by
  rw [Printer.leaf]
  split_ifs with hm
  · exact ⟨t, rfl⟩
  · rw [Bool.not_eq_true] at hm
    obtain ⟨span, hspan⟩ := isMade_eq_false.1 hm
    have hwhole := h.whole span hspan
    rw [Printer.bytesRead, hspan]
    exact slice_isText hwhole.1 hwhole.2.1

/-- A tree of printable nodes prints a text. -/
theorem print_isText (h : ∀ m ∈ n.walk, m.Printable text) :
    PrintsText (n.print (Utf8.encode text)) := by
  induction n using Node.induct with
  | step n ih =>
    have hself := h n n.self_mem_walk
    have hchildren : ∀ c ∈ n.children, c.Printable text := fun c hc => h c (child_mem_walk hc)
    have hk : PrintsTexts (Utf8.encode text) n.children := fun c hc =>
      ih c hc fun m hm => h m (mem_walk_of_child hc hm)
    -- nodes that are spliced were read, and so were their children
    have hspliced : n.label.isMakable = false → n.label.form ≠ "Parameters" →
        n.label.form ≠ "JSXOpeningElement" → PrintsText (Printer.splice (Utf8.encode text) n
          (n.children.map fun c => (c, c.print (Utf8.encode text)))) := by
      intro hl hp ho
      have hn : n.isMade = false := by
        by_contra hm
        rw [Bool.not_eq_false] at hm
        rw [hself.makable hm] at hl
        cases hl
      exact splice_printsText hself hn
        (fun c hc => ⟨hself.read_of_child hn hp ho hc, hchildren c hc⟩) hk
    rw [Node.print_eq, Printer.assemble]
    cases hl : n.label with
    | identifier name written shorthand => exact printsText_ok ⟨_, rfl⟩
    | markupName name => exact printsText_ok ⟨_, rfl⟩
    | stringLiteral value quote => exact printsText_ok (leaf_isText hself _)
    | markupText t => exact printsText_ok (leaf_isText hself t)
    | parameters parenthesized => exact parameters_printsText hself hchildren hk
    | container hasComment =>
      exact container_printsText hself (by rw [hl]; rfl) hchildren hk
    | markupAttribute => exact markupAttribute_printsText hself (by rw [hl]; rfl) hchildren hk
    | openingTag selfClosing =>
      exact openingTag_printsText hself (by rw [hl]; rfl) hchildren hk selfClosing
    | element isClosed removed =>
      dsimp only
      rw [Printer.element]
      split_ifs with hclosed
      · cases hc : n.children with
        | nil =>
          -- without an opening tag the element does not close itself
          rw [isSelfClosing, hl, element?, hl, hc] at hclosed
          cases isClosed <;> simp at hclosed
        | cons opening rest => exact hk opening (hc ▸ List.mem_cons_self)
      · exact hspliced (by rw [hl]; rfl) (by rw [hl]; simp [Label.form])
          (by rw [hl]; simp [Label.form])
    | bare => exact absurd hl hself.syntactic
    | _ => exact hspliced (by rw [hl]; rfl) (by rw [hl]; simp [Label.form]) (by rw [hl]; simp [Label.form])

end Printing

/-! ### Documents -/

/-- The nodes of a document, those in its tree and those that edits took out. -/
def Document.nodes (d : Document) : List Node :=
  (d.root :: d.detached).flatMap Node.walk

/-- What printing needs of a node of a document, and what edits rely on: `forms` gives the kind of
node that a name stands for. -/
structure Node.Ready (text : String) (forms : NodeId → String) (fresh : NodeId) (n : Node) :
    Prop where
  printable : n.Printable text
  form : n.label.form = forms n.id
  fresh : n.id < fresh
  parameters : ∀ parts, n.function? = some parts → parts.parameters.label.form = "Parameters"
  opening : ∀ parts, n.element? = some parts → parts.opening.label.form = "JSXOpeningElement"

namespace Document

open Bytes

/-- What holds of every document of a text, read or edited, that can be printed. -/
structure Printable (text : String) (forms : NodeId → String) (d : Document) : Prop where
  bytes : d.source.bytes = Utf8.encode text
  read : d.root.isMade = false
  ready : ∀ n ∈ d.nodes, n.Ready text forms d.fresh

variable {d : Document} {text : String} {forms : NodeId → String} {m : Node} {id : NodeId}

theorem mem_nodes : m ∈ d.nodes ↔ m ∈ d.root.walk ∨ ∃ t ∈ d.detached, m ∈ t.walk := by
  simp [nodes]

theorem mem_nodes_of_node? (h : d.node? id = some m) : m ∈ d.nodes ∧ m.id = id := by
  obtain ⟨t, ht, hf⟩ := List.exists_of_findSome?_eq_some h
  rw [Node.find?] at hf
  have hid := List.find?_some hf
  exact ⟨List.mem_flatMap.2 ⟨t, ht, List.mem_of_find?_eq_some hf⟩, beq_iff_eq.1 hid⟩

/-- A document of printable nodes is printed. -/
theorem Printable.printText (h : d.Printable text forms) : ∃ t, d.printText = .ok t := by
  have hroot : ∀ m ∈ d.root.walk, m.Printable text := fun m hm =>
    (h.ready m (mem_nodes.2 (.inl hm))).printable
  obtain ⟨bs, hbs, htext⟩ := print_isText hroot
  obtain ⟨span, hspan⟩ := Node.isMade_eq_false.1 h.read
  have hwhole := (hroot d.root (Node.self_mem_walk _)).whole span hspan
  have h0 := zero_boundary text
  have hlen := length_boundary text
  have hhead := slice_isText h0 hwhole.1
  have htail : IsText ((Utf8.encode text).drop
      (if span.stop = 0 then (Utf8.encode text).length else span.stop)) := by
    rw [← slice_length]
    split_ifs
    · exact slice_isText hlen hlen
    · exact slice_isText hwhole.2.1 hlen
  obtain ⟨t, ht⟩ := text_eq_ok ((hhead.append htext).append htail)
  refine ⟨t, ?_⟩
  rw [Document.printText, Document.print]
  simp only [h.bytes, Printer.stopOf, Printer.startOf, hspan, Option.map_some, Option.getD_some, hbs]
  exact ht

end Document

/-! ### What was read -/

/-- What printing needs of a node of a concrete tree: it holds whole characters, and a function has
parameters. The keyword of a function has the name of a rule, but it fills no field. -/
structure Concrete.Printable (text : String) (c : Concrete) : Prop where
  whole : c.span.Whole text
  parameters : functionKinds.contains c.kind → c.named ∨ c.field.isSome →
    (c.field? "parameters").isSome
  parameter : c.kind = "arrow_function" → ((c.field? "parameters").or (c.field? "parameter")).isSome

instance (text : String) (c : Concrete) : Decidable (c.Printable text) :=
  decidable_of_iff (c.span.Whole text ∧
      (Concrete.functionKinds.contains c.kind → c.named ∨ c.field.isSome →
        (c.field? "parameters").isSome) ∧
      (c.kind = "arrow_function" → ((c.field? "parameters").or (c.field? "parameter")).isSome))
    ⟨fun h => ⟨h.1, h.2.1, h.2.2⟩, fun h => ⟨h.whole, h.parameters, h.parameter⟩⟩

namespace Reading

open Concrete

variable {s : Source} {text : String} {c : Concrete} {p : Part} {n : Node}

/-- The concrete nodes that reading comes to. -/
structure Reached (text : String) (root c : Concrete) : Prop where
  mem : c ∈ root.walk
  parameters : functionKinds.contains c.kind → (c.field? "parameters").isSome

theorem downward_reached (h : ∀ b ∈ c.walk, b.Printable text) : Downward (Reached text c) where
  named a ha b hb := by
    have hmem := (downward_walk c).named a ha.mem b hb
    exact ⟨hmem, fun hk => (h b hmem).parameters hk (.inl (List.mem_filter.1 hb).2)⟩
  field a ha name b hb := by
    have hmem := (downward_walk c).field a ha.mem name b hb
    refine ⟨hmem, fun hk => (h b hmem).parameters hk (.inr ?_)⟩
    rw [field_of_field? hb]
    rfl

/-- Only functions without parameters are given some. -/
theorem noParameters_of_nodeOutline (h : Part.noParameters ∈ (nodeOutline s c).2) :
    functionKinds.contains c.kind ∧ c.field? "parameters" = none ∨
      c.kind = "arrow_function" ∧ (c.field? "parameters").or (c.field? "parameter") = none := by
  rcases mem_nodeOutline h with ⟨-, name, h, -⟩ | ⟨-, hp⟩
  · cases h
  · cases hp with
    | noParameters h => exact h

/-- Functions that reading comes to have parameters of their own. -/
theorem outline_parameters (hc : ∀ b ∈ c.walk, b.Printable text) (hp : p.Among (Reached text c))
    (hne : p ≠ .noParameters) : ∀ q ∈ (p.outline s).2, q ≠ .noParameters := by
  have hnode : ∀ b, Reached text c b → ∀ q ∈ (nodeOutline s b).2, q ≠ .noParameters := by
    rintro b hb q hq rfl
    rcases noParameters_of_nodeOutline hq with ⟨hk, hnone⟩ | ⟨hk, hnone⟩
    · have hsome := hb.parameters hk
      rw [hnone] at hsome
      cases hsome
    · have hsome := (hc b hb.mem).parameter hk
      rw [hnone] at hsome
      cases hsome
  intro q hq
  cases p with
  | node b => exact hnode b (hp b List.mem_cons_self) q hq
  | className m b =>
    rw [Part.outline] at hq
    split_ifs at hq
    · exact hnode b (hp b (List.mem_cons_of_mem _ List.mem_cons_self)) q hq
    · cases hq
  | noParameters => exact absurd rfl hne
  | parameters b =>
    rw [Part.outline] at hq
    split_ifs at hq
    · obtain ⟨a, -, rfl⟩ := List.mem_map.1 hq
      simp
    · cases List.mem_singleton.1 hq
      simp
  | opening selfClosing b =>
    rcases List.mem_append.1 hq with hq | hq
    · obtain ⟨a, -, rfl⟩ := List.mem_map.1 hq
      rw [tagPart]
      split_ifs <;> simp
    · obtain ⟨a, -, ha⟩ := List.mem_filterMap.1 hq
      rw [attributePart] at ha
      split_ifs at ha
      · cases ha
        simp
      · cases ha
        split <;> simp
  | closing b =>
    obtain ⟨a, -, rfl⟩ := List.mem_map.1 hq
    rw [tagPart]
    split_ifs <;> simp
  | spread b inner =>
    cases List.mem_singleton.1 hq
    split <;> simp
  | _ => cases hq

/-- What is read is no node without syntax, and nothing was removed from it. -/
theorem outline_label (p : Part) : (p.outline s).1 ≠ .bare ∧ (p.outline s).1.removed = [] := by
  have hnode : ∀ c, (nodeOutline s c).1 ≠ .bare ∧ (nodeOutline s c).1.removed = [] := by
    intro c
    have hform := nodeOutline_form s c
    generalize nodeOutline s c = o at hform
    cases hform with
    | spliced hl hr =>
      refine ⟨fun hb => ?_, hr⟩
      dsimp only at hb
      rw [hb] at hl
      cases hl
    | _ => exact ⟨by simp, rfl⟩
  cases p with
  | node c => exact hnode c
  | className m c =>
    rw [Part.outline]
    split_ifs
    · exact hnode c
    · exact ⟨by simp, rfl⟩
  | parameters c =>
    rw [Part.outline]
    split_ifs <;> exact ⟨by simp, rfl⟩
  | _ => exact ⟨by simp [Part.outline], rfl⟩

/-- A node that is read holds the span of a node that its part speaks of. -/
theorem exists_span (hne : p ≠ .noParameters) : ∃ b ∈ p.nodes, (p.place s).span = some b.span := by
  cases p with
  | noParameters => exact absurd rfl hne
  | className m b =>
    rw [Part.place, Part.concrete?]
    split_ifs
    · exact ⟨b, by simp [Part.nodes], rfl⟩
    · exact ⟨m, by simp [Part.nodes], rfl⟩
  | spread b inner => exact ⟨b, by simp [Part.nodes], rfl⟩
  | opening selfClosing b => exact ⟨b, by simp [Part.nodes], rfl⟩
  | _ b => exact ⟨b, by simp [Part.nodes], rfl⟩

theorem printable_of_readAs (hc : ∀ b ∈ c.walk, b.Printable text)
    (hp : p.Among (Reached text c)) (hne : p ≠ .noParameters) (h : ReadAs s p n) :
    n.Printable text := by
  obtain ⟨b, hb, hspan⟩ := exists_span (s := s) hne
  rw [← h.place_eq] at hspan
  have hread : n.isMade = false := Node.isMade_eq_false.2 ⟨_, hspan⟩
  obtain ⟨hbare, hremoved⟩ := outline_label (s := s) p
  rw [← h.label_eq] at hbare hremoved
  refine ⟨hbare, fun span hs => ?_, fun span hs => ?_, fun hm => ?_, fun i k hk hm => ?_,
    fun hform => ?_⟩
  · rw [hspan] at hs
    cases hs
    exact (hc b (hp b hb).mem).whole
  · rw [hremoved] at hs
    cases hs
  · rw [hread] at hm
    cases hm
  · -- what is below was read from parts that are no missing parameters
    cases h with
    | fill _ hks =>
      obtain ⟨q, hq, hqk⟩ := exists_of_forall₂ hks (List.mem_of_getElem? hk)
      obtain ⟨a, -, ha⟩ := exists_span (s := s) (outline_parameters hc hp hne q hq)
      rw [← hqk.place_eq] at ha
      rw [Node.isMade, ha] at hm
      cases hm
  · exact h.opening_children hform

/-- Functions that are read have parameters, and elements an opening tag. -/
theorem parts_of_readAs (h : ReadAs s p n) :
    (∀ parts, n.function? = some parts → parts.parameters.label.form = "Parameters") ∧
      ∀ parts, n.element? = some parts → parts.opening.label.form = "JSXOpeningElement" := by
  by_cases hk : ∃ c, p = .node c ∧ c.kind = "jsx_element"
  · obtain ⟨c, rfl, hk⟩ := hk
    have ho : nodeOutline s c = elementOutline c := by
      rw [nodeOutline.eq_def, hk]
      rfl
    cases h with
    | @fill _ id parent kids _ hks =>
      rw [Part.outline, ho, elementOutline] at hks
      rw [Part.outline, ho, elementOutline]
      split at hks
      · constructor
        · intro parts hf
          cases hf
        · intro parts he
          cases he
      · next tag ht =>
        cases hks with
        | cons hopening _ =>
          constructor
          · intro parts hf
            cases hf
          · intro parts he
            have hform := congrArg Label.form hopening.label_eq
            dsimp only at he
            cases hcl : (closeTag? c).isSome <;> rw [hcl] at he <;> cases he <;> exact hform
  · have hs := shaped_of_readAs h fun c hp hc => absurd ⟨c, hp, hc⟩ hk
    exact ⟨hs.parameters, hs.opening⟩

/-- A document that was read is printable. -/
theorem read_printable {grammar : Grammar} {path : String} {d : Document}
    (hc : ∀ b ∈ (grammar (.ofPath path) text).walk, b.Printable text)
    (h : Document.read grammar path text = .ok d) : ∃ forms, d.Printable text forms := by
  obtain ⟨hsource, hr⟩ := read_readAs h
  obtain ⟨hnodup, hlt⟩ := read_ids h
  obtain ⟨hprogram, hdetached⟩ := read_program h
  have hroot : Reached text (grammar (.ofPath path) text) (grammar (.ofPath path) text) := by
    refine ⟨Concrete.self_mem_walk _, fun hk => ?_⟩
    rw [hr.label_eq] at hprogram
    simp only [functionKinds, List.contains_iff_mem, List.mem_cons, List.not_mem_nil, or_false] at hk
    rcases hk with hk | hk | hk | hk | hk | hk <;>
      (rw [Part.outline, nodeOutline.eq_def, hk] at hprogram; cases hprogram)
  -- every node is read from a part that reading comes to
  have hpart : ∀ m ∈ d.root.walk, ∃ q, (q.Among (Reached text (grammar (.ofPath path) text)) ∧
      q ≠ .noParameters) ∧ ReadAs d.source q m := fun m hm =>
    hr.exists_part (fun p hp q hq => ⟨outline_among (downward_reached hc) hp.1 q hq,
      outline_parameters hc hp.1 hp.2 q hq⟩) ⟨among_node hroot, by simp⟩ hm
  refine ⟨fun i => ((d.root.find? i).map (·.label.form)).getD "", by rw [hsource]; rfl, ?_,
    fun m hm => ?_⟩
  · obtain ⟨q, ⟨hq, hne⟩, hqr⟩ := hpart d.root (Node.self_mem_walk _)
    obtain ⟨b, -, hspan⟩ := exists_span (s := d.source) hne
    exact Node.isMade_eq_false.2 ⟨_, hqr.place_eq ▸ hspan⟩
  · have hm : m ∈ d.root.walk := by
      rcases Document.mem_nodes.1 hm with hm | ⟨t, ht, -⟩
      · exact hm
      · rw [hdetached] at ht
        cases ht
    obtain ⟨q, ⟨hq, hne⟩, hqr⟩ := hpart m hm
    obtain ⟨hparameters, hopening⟩ := parts_of_readAs hqr
    refine ⟨printable_of_readAs hc hq hne hqr, ?_, hlt _ (Node.id_mem_ids hm), hparameters, hopening⟩
    rw [(Node.find?_eq_some_iff hnodup).2 ⟨hm, rfl⟩]
    rfl

end Reading

end JsxLint
