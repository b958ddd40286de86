import JsxLint.Proofs.Printing.Printable
import JsxLint.Proofs.Syntax.Upkeep
import JsxLint.Rule.ListKey

/-!
# Printing attributes that were put in

Attributes that edits put into a tag are printed right behind its name, each behind a space, and
before all else that stands there: the attributes that were read, but also type arguments and
comments, which are not in the tree.

* `Node.Alike`: trees that print alike, whatever their nodes are called and wherever they stand;
* `Document.insertAttributes`: attributes put into a tag one after the other;
* `Node.Extends`: what becomes of the tag;
* `Concrete.NamedBy`: the tag in the text, its name and what stands around that;
* `insertAttributes_print`: what is printed for it.
-/

namespace JsxLint

open Node Reading

/-! ### Trees that print alike -/

/-- Whether two trees differ in the names, parents and positions of their nodes only. -/
inductive Node.Alike : Node → Node → Prop
  | mk {n n' : Node} (hl : n'.label = n.label) (hs : n'.place.span = n.place.span)
    (hk : List.Forall₂ Node.Alike n.children n'.children) : Node.Alike n n'

namespace Printer

/-- Whether a printed child is as good as another one for the node around it. -/
def Same (x y : Printed) : Prop :=
  y.1.label = x.1.label ∧ y.1.place.span = x.1.place.span ∧ y.2 = x.2

variable {source : Bytes} {kids kids' : List Printed} {n n' : Node}

theorem Same.isMade {x y : Printed} (h : Same x y) : y.1.isMade = x.1.isMade := by
  rw [Node.isMade, h.2.1]
  rfl

theorem spliceFrom_same (h : List.Forall₂ Same kids kids') (owner : Label) (cursor stop : Nat) :
    spliceFrom source owner cursor stop kids' = spliceFrom source owner cursor stop kids := by
  induction h generalizing cursor with
  | nil => rfl
  | @cons x y _ _ hxy _ ih =>
    obtain ⟨child, printed⟩ := x
    obtain ⟨child', printed'⟩ := y
    obtain ⟨hl, hs, hp⟩ := hxy
    dsimp only at hl hs hp
    rw [spliceFrom, spliceFrom, hl, hs, hp]
    cases child.place.span with
    | none => rfl
    | some span => simp only [ih]

theorem madeAttributes_same (h : List.Forall₂ Same kids kids') :
    madeAttributes kids' = madeAttributes kids := by
  induction h with
  | nil => rfl
  | @cons x y _ _ hxy _ ih =>
    have hmade := hxy.isMade
    obtain ⟨child, printed⟩ := x
    obtain ⟨child', printed'⟩ := y
    obtain ⟨-, -, hp⟩ := hxy
    dsimp only at hmade hp
    rw [madeAttributes, madeAttributes, hmade, hp, ih]

theorem readAttributes_same (h : List.Forall₂ Same kids kids') (cursor : Nat) :
    readAttributes source cursor kids' = readAttributes source cursor kids := by
  induction h generalizing cursor with
  | nil => rfl
  | @cons x y _ _ hxy _ ih =>
    obtain ⟨child, printed⟩ := x
    obtain ⟨child', printed'⟩ := y
    obtain ⟨-, hs, hp⟩ := hxy
    dsimp only at hs hp
    rw [readAttributes, readAttributes, hs, hp]
    cases child.place.span with
    | none => exact ih cursor
    | some span => simp only [ih]

theorem splice_same (hl : n'.label = n.label) (hs : n'.place.span = n.place.span)
    (h : List.Forall₂ Same kids kids') : splice source n' kids' = splice source n kids := by
  rw [splice, splice, hl, hs]
  cases n.place.span with
  | none => rfl
  | some span => exact spliceFrom_same h ..

theorem parameters_same (hl : n'.label = n.label) (hs : n'.place.span = n.place.span)
    (h : List.Forall₂ Same kids kids') :
    parameters source n' kids' = parameters source n kids := by
  have hmade : n'.isMade = n.isMade := by rw [Node.isMade, hs]; rfl
  have hall : kids'.all (!·.1.isMade) = kids.all (!·.1.isMade) := by
    clear hl hs hmade
    induction h with
    | nil => rfl
    | cons hxy _ ih => rw [List.all_cons, List.all_cons, hxy.isMade, ih]
  have htexts : (kids'.mapM fun (x : Printed) => x.2 >>= text) =
      kids.mapM fun (x : Printed) => x.2 >>= text := by
    clear hl hs hmade hall
    induction h with
    | nil => rfl
    | cons hxy _ ih => rw [List.mapM_cons, List.mapM_cons, hxy.2.2, ih]
  show (if _ then _ else (kids'.mapM fun (x : Printed) => x.2 >>= text) >>= _) =
    if _ then _ else (kids.mapM fun (x : Printed) => x.2 >>= text) >>= _
  rw [hmade, hall, htexts, splice_same hl hs h]

theorem openingTag_same (hl : n'.label = n.label) (hs : n'.place.span = n.place.span)
    (h : List.Forall₂ Same kids kids') (selfClosing : Bool) :
    openingTag source n' selfClosing kids' = openingTag source n selfClosing kids := by
  cases h with
  | nil => rw [openingTag, openingTag, hl]
  | @cons x y _ _ hxy hrest =>
    obtain ⟨name, printed⟩ := x
    obtain ⟨name', printed'⟩ := y
    obtain ⟨-, hspan, hp⟩ := hxy
    dsimp only at hspan hp
    rw [openingTag, openingTag, madeAttributes_same hrest, openingTag.startOf', openingTag.startOf',
      openingTag.nameEnd, openingTag.nameEnd, startOf, startOf, stopOf, stopOf, hs, hspan, hp]
    simp only [readAttributes_same hrest]

/-- Nodes that differ in names, parents and positions are put together alike. -/
theorem assemble_same (hl : n'.label = n.label) (hs : n'.place.span = n.place.span)
    (hc : n'.isSelfClosing = n.isSelfClosing) (h : List.Forall₂ Same kids kids') :
    assemble source n' kids' = assemble source n kids := by
  have hmade : n'.isMade = n.isMade := by rw [Node.isMade, hs]; rfl
  have hsplice : splice source n' kids' = splice source n kids := splice_same hl hs h
  have hleaf : ∀ text, leaf source n' text = leaf source n text := fun text => by
    rw [leaf, leaf, hmade, bytesRead, bytesRead, hs]
  rw [assemble, assemble, hl]
  cases n.label with
  | identifier => rw [hmade]
  | parameters => exact parameters_same hl hs h
  | stringLiteral | markupText => exact congrArg Except.ok (hleaf _)
  | container =>
    show container source n' kids' = container source n kids
    rw [container, container, hmade, hsplice]
    cases h with
    | nil => rfl
    | @cons x y _ _ hxy _ =>
      obtain ⟨child, printed⟩ := x
      obtain ⟨child', printed'⟩ := y
      obtain rfl : printed' = printed := hxy.2.2
      rfl
  | markupAttribute =>
    show markupAttribute source n' kids' = markupAttribute source n kids
    rw [markupAttribute.eq_def, markupAttribute.eq_def source n, hmade, hsplice]
    cases h with
    | nil => rfl
    | @cons x y _ _ hxy hrest =>
      obtain ⟨child, printed⟩ := x
      obtain ⟨child', printed'⟩ := y
      obtain rfl : printed' = printed := hxy.2.2
      cases hrest with
      | nil => rfl
      | @cons v w _ _ hvalue _ =>
        obtain ⟨value, body⟩ := v
        obtain ⟨value', body'⟩ := w
        obtain rfl : body' = body := hvalue.2.2
        rfl
  | openingTag => exact openingTag_same hl hs h _
  | element =>
    show element source n' kids' = element source n kids
    rw [element, element, hc, hsplice, hl]
    cases h with
    | nil => rfl
    | @cons x y _ _ hxy _ =>
      obtain ⟨child, printed⟩ := x
      obtain ⟨child', printed'⟩ := y
      obtain rfl : printed' = printed := hxy.2.2
      rfl
  | _ => first | rfl | exact hsplice

end Printer

namespace Node

variable {source : Bytes} {n n' : Node}

theorem Alike.label (h : Alike n n') : n'.label = n.label := by
  cases h with
  | mk hl _ _ => exact hl

theorem Alike.span (h : Alike n n') : n'.place.span = n.place.span := by
  cases h with
  | mk _ hs _ => exact hs

theorem Alike.children (h : Alike n n') : List.Forall₂ Alike n.children n'.children := by
  cases h with
  | mk _ _ hk => exact hk

theorem Alike.refl (n : Node) : Alike n n := by
  induction n using induct with
  | step n ih => exact .mk rfl rfl (List.forall₂_same.2 ih)

theorem Alike.isSelfClosing (h : Alike n n') : n'.isSelfClosing = n.isSelfClosing := by
  have hk := h.children
  rw [Node.isSelfClosing, Node.isSelfClosing, element?, element?, h.label]
  generalize n.children = kids, n'.children = kids' at hk
  cases n.label with
  | element isClosed removed =>
    cases hk with
    | nil => rfl
    | cons hc _ =>
      cases isClosed <;>
      · dsimp only
        rw [hc.label]
  | _ => rfl

/-- Trees that differ in the names, parents and positions of their nodes only print alike. -/
theorem Alike.print (h : Alike n n') : n'.print source = n.print source := by
  induction n using induct generalizing n' with
  | step n ih =>
    have hk : List.Forall₂ (fun c c' => Alike c c' ∧ c'.print source = c.print source) n.children
        n'.children :=
      (((List.forall₂_and_left _ _).2 ⟨ih, h.children⟩).imp fun c c' hc => ⟨hc.2, hc.1 hc.2⟩)
    rw [print_eq, print_eq]
    refine Printer.assemble_same h.label h.span h.isSelfClosing ?_
    rw [List.forall₂_map_left_iff, List.forall₂_map_right_iff]
    exact hk.imp fun c c' hc => ⟨hc.1.label, hc.1.span, hc.2⟩

theorem alike_number (n : Node) (next : NodeId) : Alike n (n.number next).1 := by
  induction n using induct generalizing next with
  | step n ih =>
    rw [number_fst]
    exact .mk rfl rfl (numberAll_fst_forall₂ (List.forall₂_same.2 ih) _)

theorem alike_settle (n : Node) (position : Position) (parent : Option NodeId) :
    Alike n (n.settle position parent) := by
  induction n using induct generalizing parent with
  | step n ih =>
    obtain ⟨id, above, place, label, children⟩ := n
    rw [settle]
    refine .mk rfl rfl ?_
    show List.Forall₂ Alike children (settleAll position id children)
    clear parent
    induction children with
    | nil => exact .nil
    | cons c cs ihcs =>
      obtain ⟨hc, hcs⟩ := List.forall_mem_cons.1 ih
      rw [settleAll]
      refine .cons ?_ (ihcs hcs)
      split_ifs
      · exact hc _
      · exact .refl c

end Node

/-- A tree that is attached prints as it did. -/
theorem Document.print_attach (d : Document) (n : Node) (position : Position)
    (parent : Option NodeId) (source : Bytes) :
    (d.attach n position parent).1.print source = n.print source :=
  (alike_settle _ position parent).print.trans (alike_number n d.fresh).print

theorem Document.isMade_attach (d : Document) (n : Node) (position : Position)
    (parent : Option NodeId) : (d.attach n position parent).1.isMade = n.isMade := by
  rw [isMade, isMade]
  show (settle position parent (n.number d.fresh).1).place.span.isNone = _
  rw [(alike_settle _ position parent).span, (alike_number n d.fresh).span]

@[simp] theorem Node.isMade_made (label : Label) (kids : List Node) :
    (made label kids).isMade = true :=
  rfl

/-- A made attribute with braces around its value is printed as such. -/
theorem Node.print_braced {source : Bytes} {value : Node} {t : String} (name : String)
    (hasComment : Bool) (h : value.print source = .ok (Utf8.encode t)) :
    (made .markupAttribute [made (.markupName name) [], made (.container hasComment) [value]]).print
      source = .ok (Utf8.encode (name ++ "=\x7b" ++ t ++ "\x7d")) := by
  have hvalue : (made (.container hasComment) [value]).print source =
      .ok ([0x7B] ++ Utf8.encode t ++ [0x7D]) := by
    rw [print_eq]
    show Printer.container source (made _ _) [(value, value.print source)] = _
    rw [Printer.container, if_pos (isMade_made ..), List.head?_cons, h]
    rfl
  rw [print_eq]
  show Printer.markupAttribute source (made _ _) [(_, .ok (Utf8.encode name)), (_, _)] = _
  rw [Printer.markupAttribute.eq_def, if_pos (isMade_made ..), hvalue, Utf8.encode_append,
    Utf8.encode_append, Utf8.encode_append]
  show Except.ok (Utf8.encode name ++ [0x3D] ++ ([0x7B] ++ Utf8.encode t ++ [0x7D])) =
    Except.ok (Utf8.encode name ++ [0x3D, 0x7B] ++ Utf8.encode t ++ [0x7D])
  simp only [List.append_assoc, List.cons_append, List.nil_append]

/-! ### A tag with more attributes -/

section Tag

variable {source : Bytes} {n tag : Node} {kids attributes : List Node} {pieces : List String}

theorem madeAttributes_eq_ok (h : PrintedAs source (kids.filter (·.isMade)) pieces) :
    Printer.madeAttributes (kids.map fun c => (c, c.print source)) =
      .ok (pieces.flatMap fun t => Utf8.encode (" " ++ t)) := by
  induction kids generalizing pieces with
  | nil =>
    cases h
    rfl
  | cons c kids ih =>
    rw [List.map_cons, Printer.madeAttributes]
    cases hc : c.isMade with
    | false =>
      rw [List.filter_cons_of_neg (by rw [hc]; decide)] at h
      exact ih h
    | true =>
      rw [List.filter_cons_of_pos hc] at h
      cases h with
      | cons ht hrest =>
        rw [if_pos rfl, ht, ih hrest, List.flatMap_cons, Utf8.encode_append]
        rfl

theorem readAttributes_filter (source : Bytes) (cursor : Nat) (kids : List Node) :
    Printer.readAttributes source cursor
        ((kids.filter (!·.isMade)).map fun c => (c, c.print source)) =
      Printer.readAttributes source cursor (kids.map fun c => (c, c.print source)) := by
  induction kids generalizing cursor with
  | nil => rfl
  | cons c kids ih =>
    cases hspan : c.place.span with
    | none =>
      rw [List.filter_cons_of_neg (by rw [isMade, hspan]; decide), ih, List.map_cons,
        Printer.readAttributes, hspan]
    | some span =>
      rw [List.filter_cons_of_pos (by rw [isMade, hspan]; rfl), List.map_cons, List.map_cons,
        Printer.readAttributes, Printer.readAttributes, hspan]
      simp only [ih]

/-- What becomes of a tag that gets more attributes: they are put anywhere among those that were
read, which stay in their order. -/
structure Node.Extends (source : Bytes) (n : Node) (pieces : List String) (tag : Node) : Prop where
  id : tag.id = n.id
  label : tag.label = n.label
  place : tag.place = n.place
  children : ∃ name attributes, tag.children = name :: attributes ∧
    n.children = name :: attributes.filter (!·.isMade) ∧
      ∃ made, PrintedAs source made pieces ∧ (attributes.filter (·.isMade)).Perm made

theorem Node.extends_self {name : Node} (hc : n.children = name :: attributes)
    (hr : ∀ a ∈ attributes, a.isMade = false) : n.Extends source [] n := by
  refine ⟨rfl, rfl, rfl, name, attributes, hc, ?_, [], .nil, ?_⟩
  · rw [List.filter_eq_self.2 fun a ha => by rw [hr a ha]; rfl]
    exact hc
  · rw [List.filter_eq_nil_iff.2 fun a ha => by rw [hr a ha]; decide]

/-- A tag with one more attribute at an index. -/
def Node.withAttribute (index : Int) (a tag : Node) : Node :=
  match tag.children with
  | name :: attributes => { tag with children := name :: Document.insertAt attributes index a }
  | [] => tag

theorem insertAt_eq (kids : List Node) (index : Int) (a : Node) : ∃ before after,
    kids = before ++ after ∧ Document.insertAt kids index a = before ++ a :: after :=
  ⟨_, _, (List.take_append_drop _ kids).symm, rfl⟩

theorem Node.Extends.insert {a : Node} {t : String} (h : n.Extends source pieces tag)
    (ha : a.isMade) (hp : a.print source = .ok (Utf8.encode t)) (index : Int) :
    n.Extends source (t :: pieces) (withAttribute index a tag) := by
  obtain ⟨name, attributes, hc, hn, made, hm, hperm⟩ := h.children
  rw [withAttribute, hc]
  obtain ⟨before, after, rfl, hinsert⟩ := insertAt_eq attributes index a
  refine ⟨h.id, h.label, h.place, name, before ++ a :: after, ?_, ?_, a :: made, .cons hp hm, ?_⟩
  · rw [← hinsert]
  · rw [hn, List.filter_append, List.filter_append,
      List.filter_cons_of_neg (by rw [ha]; decide)]
  · rw [List.filter_append, List.filter_cons_of_pos ha]
    rw [List.filter_append] at hperm
    exact List.perm_middle.trans (hperm.cons a)

/-- A tag with more attributes is printed as it was read, with the attributes behind its name: one
that closes itself must be written so, behind its attributes. -/
theorem Node.Extends.print {s : Source} {selfClosing : Bool} {nameSpan span : Span}
    {spans : List Span} {stop : Nat} (h : n.Extends source pieces tag)
    (hl : n.label = .openingTag selfClosing) (hn : n.place.span = some span)
    (hk : PrintsKids s source (nameSpan :: spans) n.children) (hx : ∀ c ∈ n.children, c.Exact s)
    (hr : Row span.start stop (nameSpan :: spans)) (hs : stop ≤ span.stop)
    (hb : span.stop ≤ source.length)
    (hz : selfClosing → [0x2F, 0x3E] <:+ slice source stop span.stop) :
    ∃ order : List String, order.Perm pieces ∧ tag.print source =
      .ok (slice source span.start nameSpan.stop ++
        order.flatMap (fun t => Utf8.encode (" " ++ t)) ++
        slice source nameSpan.stop span.stop) := by
  obtain ⟨name, attributes, hc, hnc, made, hm, hperm⟩ := h.children
  obtain ⟨order, hprinted, horder⟩ := List.perm_comp_forall₂ hperm hm
  rw [hnc] at hk hx
  obtain ⟨hxname, hxattrs⟩ := List.forall_mem_cons.1 hx
  obtain ⟨⟨hnsp, nameBytes, hnp, hnb⟩, hattrs⟩ := List.forall₂_cons.1 hk
  obtain ⟨h1, h2, h3⟩ := hr
  obtain ⟨read, last, hread, hl1, hl2, hrc⟩ := readAttributes_prints hattrs h3 (hs.trans hb)
  have hclose : selfClosing → [0x2F, 0x3E] <:+ slice source last span.stop := fun hsc => by
    rw [← slice_append hl2 hs]
    exact (hz hsc).trans (List.suffix_append _ _)
  refine ⟨order, horder, ?_⟩
  rw [print_eq, Printer.assemble, h.label, hl, hc]
  dsimp only
  rw [List.map_cons, Printer.openingTag, hnp, madeAttributes_eq_ok hprinted]
  rw [readAttributes_filter] at hread
  simp only [Printer.startOf, Printer.openingTag.startOf', Printer.openingTag.nameEnd,
    Printer.stopOf, h.place, hn, hnsp, Option.map_some, Option.getD_some, hread]
  have hhead : slice source span.start nameSpan.stop =
      slice source span.start nameSpan.start ++ nameBytes := by
    rw [hnb.copy hxname, slice_append h1 h2]
  have htail : slice source nameSpan.stop span.stop = read ++ slice source last span.stop := by
    rw [hrc.copy hxattrs, slice_append hl1 (hl2.trans hs)]
  simp only [Bind.bind, Except.bind, closeTag_eq_append hclose, hhead, htail, List.append_assoc]
  rfl

end Tag

/-! ### Attributes put into a tree -/

namespace Document

variable {source : Bytes} {d : Document} {n tag : Node} {above : List Node}

/-- An attribute that is put in is made and printed as it was given. -/
theorem root_insertAttribute (d : Document) (opening : Node) (index : Int) (a : Node)
    (source : Bytes) : ∃ a', a'.isMade = a.isMade ∧ a'.print source = a.print source ∧
      (d.insertAttribute opening index a).2.root =
        d.root.modify opening.id (withAttribute index a') :=
  ⟨_, d.isMade_attach a .., d.print_attach a .., rfl⟩

/-- Put attributes into a tag, one after the other, each at an index. -/
def insertAttributes (d : Document) (opening : Node) (added : List (Int × Node)) : Document :=
  added.foldl (fun d a => (d.insertAttribute opening a.1 a.2).2) d

/-- The tag stays where it is, and gets all that is put in. -/
theorem exists_extends {added : List (Int × Node)} {pieces more : List String}
    (hadded : ∀ a ∈ added, a.2.isMade) (hmore : PrintedAs source (added.map (·.2)) more)
    (hp : d.root.Path above tag) (ha : ∀ m ∈ above, m.id ≠ n.id)
    (he : n.Extends source pieces tag) :
    ∃ tag' ∈ (d.insertAttributes n added).root.walk,
      n.Extends source (more.reverse ++ pieces) tag' := by
  induction added generalizing d above tag pieces more with
  | nil =>
    cases hmore
    exact ⟨tag, hp.mem_walk, he⟩
  | cons a added ih =>
    obtain ⟨hmade, hadded⟩ := List.forall_mem_cons.1 hadded
    cases hmore with
    | @cons _ t _ more ht hmore =>
      obtain ⟨a', hmade', hprint, hroot⟩ := d.root_insertAttribute n a.1 a.2 source
      -- the nodes above the tag keep their names, so the next attribute finds the same tag
      have hpath : (d.insertAttribute n a.1 a.2).2.root.Path
          (above.map (Node.modify n.id (withAttribute a.1 a'))) (withAttribute a.1 a' tag) := by
        have htag : tag.modify n.id (withAttribute a.1 a') = withAttribute a.1 a' tag := by
          rw [← he.id, modify_self]
        rw [hroot, ← htag]
        exact hp.modify ha
      have habove : ∀ m ∈ above.map (Node.modify n.id (withAttribute a.1 a')), m.id ≠ n.id := by
        intro m hm
        obtain ⟨l, hl, rfl⟩ := List.mem_map.1 hm
        rw [modify_of_ne (ha l hl)]
        exact ha l hl
      have hnext := he.insert (hmade'.trans hmade) (hprint.trans ht) a.1
      obtain ⟨tag', htag, hext⟩ := ih hadded hmore hpath habove hnext
      rw [List.reverse_cons, List.append_assoc, List.singleton_append]
      exact ⟨tag', htag, hext⟩

end Document

/-! ### Tags that were read -/

namespace Concrete

/-- Whether a child of a tag is an attribute or ends the tag. -/
def endsHead (b : Concrete) : Bool :=
  b.isAttribute || b.kind == ">" || b.kind == "/>"

/-- The name of a tag and what stands before and behind it. -/
structure NamedBy (c x : Concrete) (before after : List Concrete) : Prop where
  children : c.children = before ++ x :: after
  field : c.field? "name" = some x
  inFront : InRow ⟨c.span.start, x.span.stop⟩ (before ++ [x])
  behind : InRow ⟨x.span.stop, c.span.stop⟩ after

variable {c x : Concrete} {before after : List Concrete}

theorem exists_namedBy {text : String} (hc : Shape text c) (hx : c.field? "name" = some x) :
    ∃ before after, c.NamedBy x before after := by
  obtain ⟨before, after, hb⟩ := List.append_of_mem (mem_of_field? hx)
  have hrow := hc.nested
  rw [hb, InRow, List.map_append, List.map_cons] at hrow
  obtain ⟨h1, h2⟩ := Row.append_cons_iff.1 hrow
  refine ⟨before, after, hb, hx, ?_, h2⟩
  rw [InRow, List.map_append]
  exact h1

/-- The end of the name is behind all that stands before the first attribute just when nothing that
has bytes stands between them. -/
theorem NamedBy.behind_head_iff (h : c.NamedBy x before after) :
    (∀ b ∈ before ++ x :: after.takeWhile (!·.endsHead), b.span.stop ≤ x.span.stop) ↔
      ∀ b ∈ after.takeWhile (!·.endsHead), b.span = ⟨x.span.stop, x.span.stop⟩ := by
  constructor
  · intro hb b hm
    have hle := hb b (List.mem_append_right _ (List.mem_cons_of_mem _ hm))
    have hmem := Row.mem h.behind (List.mem_map_of_mem ((List.takeWhile_sublist _).subset hm))
    have hstop := hle.antisymm (hmem.1.trans hmem.2.1)
    have hstart := (hmem.2.1.trans hle).antisymm hmem.1
    show Span.mk b.span.start b.span.stop = _
    rw [hstart, hstop]
  · intro hb b hm
    rw [← List.singleton_append, ← List.append_assoc] at hm
    rcases List.mem_append.1 hm with hm | hm
    · exact (Row.mem h.inFront (List.mem_map_of_mem hm)).2.2
    · rw [hb b hm]

end Concrete

namespace Reading

variable {path text : String} {p : Part} {n tag : Node} {selfClosing : Bool} {c x : Concrete}

/-- The nodes below one that was read print as copies of their spans, when they are exact. -/
theorem ReadAs.printsKids (h : ReadAs (.ofString path text) p n) (hp : p.Sound text) :
    PrintsKids (.ofString path text) (Utf8.encode text)
      ((p.outline (.ofString path text)).2.map Part.span) n.children := by
  cases h with
  | fill _ hk =>
    refine List.forall₂_map_left_iff.2 (((List.forall₂_and_left _ _).2 ⟨hp.fits.sound, hk⟩).imp ?_)
    rintro q m ⟨hq, hm⟩
    exact ⟨hm.place_eq ▸ hq.place _, prints_of_readAs hm hq⟩

/-- An opening tag of a document is read from one of its text. -/
theorem read_opening {grammar : Grammar} {d : Document}
    (hs : (grammar (.ofPath path) text).Readable text)
    (h : Document.read grammar path text = .ok d) (hn : n ∈ d.root.walk)
    (hl : n.label = .openingTag selfClosing) : ∃ c ∈ (grammar (.ofPath path) text).walk,
      (Part.opening selfClosing c).Sound text ∧ ReadAs d.source (.opening selfClosing c) n := by
  obtain ⟨-, hr⟩ := read_readAs h
  have hwalk := downward_walk (grammar (.ofPath path) text)
  obtain ⟨q, ⟨hq, hin⟩, hqn⟩ := hr.exists_part
    (I := fun q => q.Sound text ∧ q.Among (· ∈ (grammar (.ofPath path) text).walk))
    (fun q hq r hr => ⟨(hq.1.fits (s := d.source)).sound r hr, outline_among hwalk hq.2 r hr⟩)
    ⟨hs, among_node (Concrete.self_mem_walk _)⟩ hn
  obtain ⟨selfClosing', c, rfl⟩ := opening_of_form (s := d.source) (p := q)
    (by rw [← hqn.label_eq, hl]; rfl)
  have hlabel := hqn.label_eq
  rw [hl] at hlabel
  cases hlabel
  exact ⟨c, hin c List.mem_cons_self, hq, hqn⟩

/-- What is printed for a tag of the text with more attributes. -/
theorem ReadAs.print_extends {pieces : List String}
    (hr : ReadAs (.ofString path text) (.opening selfClosing c) n)
    (hc : (Part.opening selfClosing c).Sound text) (hxc : c.field? "name" = some x)
    (hx : ∀ m ∈ n.children, m.Exact (.ofString path text))
    (h : n.Extends (Utf8.encode text) pieces tag) :
    ∃ order : List String, order.Perm pieces ∧ tag.print (Utf8.encode text) =
      .ok (slice (Utf8.encode text) c.span.start x.span.stop ++
        order.flatMap (fun t => Utf8.encode (" " ++ t)) ++
        slice (Utf8.encode text) x.span.stop c.span.stop) := by
  have hkids := hr.printsKids hc
  have hrow := (hc.fits (s := .ofString path text)).row
  have hspan := hr.place_eq ▸ hc.place (.ofString path text)
  have hlabel := hr.label_eq
  obtain ⟨hread, -, hkind⟩ := hc
  have hb := hread.shape.whole.stop_le
  rw [Part.outline, hxc, Option.toList_some, List.map_singleton, List.singleton_append,
    List.map_cons, (stands_tagPart (hread.field hxc)).2] at hkids hrow
  cases selfClosing with
  | false => exact h.print hlabel hspan hkids hx hrow le_rfl hb fun hsc => by cases hsc
  | true =>
    refine h.print hlabel hspan hkids hx hrow (Nat.sub_le _ 2) hb fun _ => ?_
    exact (hread.shape.selfClosing hkind).2.2 ▸ List.suffix_rfl

end Reading

section

variable {grammar : Grammar} {path text : String} {d : Document} {n : Node} {selfClosing : Bool}

/-- Attributes that are put into a tag are printed right behind its name, each behind a space, and
before all else that is in the tag. So the place is behind all that precedes the attributes that
were read only if nothing, such as type arguments or a comment, stands between the name and those. -/
theorem insertAttributes_print (hs : (grammar (.ofPath path) text).Readable text)
    (h : Document.read grammar path text = .ok d) (hn : n ∈ d.root.walk)
    (hl : n.label = .openingTag selfClosing)
    (hx : ∀ m ∈ n.walk, m.label.isExported → d.textOf m = m.text)
    {added : List (Int × Node)} {pieces : List String} (hadded : ∀ a ∈ added, a.2.isMade)
    (hp : PrintedAs (Utf8.encode text) (added.map (·.2)) pieces) :
    ∃ tag ∈ (d.insertAttributes n added).root.walk, tag.id = n.id ∧
      ∃ c ∈ (grammar (.ofPath path) text).walk, ReadAs d.source (.opening selfClosing c) n ∧
        ∃ x before after, c.NamedBy x before after ∧
          ((∀ b ∈ before ++ x :: after.takeWhile (!·.endsHead), b.span.stop ≤ x.span.stop) ↔
            ∀ b ∈ after.takeWhile (!·.endsHead), b.span = ⟨x.span.stop, x.span.stop⟩) ∧
          ∃ order : List String, order.Perm pieces ∧ tag.print (Utf8.encode text) =
            .ok (slice (Utf8.encode text) c.span.start x.span.stop ++
              order.flatMap (fun t => Utf8.encode (" " ++ t)) ++
              slice (Utf8.encode text) x.span.stop c.span.stop) := by
  obtain ⟨c, hmem, hc, hr⟩ := read_opening hs h hn hl
  obtain ⟨x, hxc⟩ := Option.isSome_iff_exists.1 hc.2.1
  obtain ⟨before, after, hnamed⟩ := Concrete.exists_namedBy hc.1.shape hxc
  have hr' := (read_readAs h).1 ▸ hr
  -- all attributes of the tag were read, and no node above it has its name
  obtain ⟨name, attributes, hkids⟩ := List.exists_cons_of_ne_nil
    (hr.opening_children (by rw [hl]; rfl))
  have hmade := (hr'.printsKids hc).isMade_eq_false
  rw [hkids] at hmade
  obtain ⟨above, hpath⟩ := Node.exists_path hn
  obtain ⟨tag, htag, hext⟩ := Document.exists_extends hadded hp hpath
    (fun m hm => hpath.id_ne (read_ids h).1 hm)
    (Node.extends_self hkids (List.forall_mem_cons.1 hmade).2)
  have hexact : ∀ m ∈ n.children, m.Exact (.ofString path text) := fun m hm l hlm he => by
    rw [← (read_readAs h).1, ← textOf_eq]
    exact hx l (Node.mem_walk_of_child hm hlm) he
  obtain ⟨order, horder, hprint⟩ := hr'.print_extends hc hxc hexact hext
  rw [List.append_nil] at horder
  exact ⟨tag, htag, hext.id, c, hmem, hr, x, before, after, hnamed, hnamed.behind_head_iff, order,
    horder.trans pieces.reverse_perm, hprint⟩

end

/-! ### A tag with type arguments -/

namespace Concrete

/-- The tree of `<Row<T>/>;`. -/
def typedRow : Concrete :=
  rule "program" 0 11 none
    [rule "expression_statement" 0 10 none
      [rule "jsx_self_closing_element" 0 9 none
          [token "<" 0 1, rule "identifier" 1 4 (some "name") [],
            rule "type_arguments" 4 7 (some "type_arguments")
              [token "<" 4 5, rule "type_identifier" 5 6 none [], token ">" 6 7],
            token "/>" 7 9],
        token ";" 9 10]]

end Concrete

/-- A key comes to stand between the name of a tag and its type arguments. -/
theorem typedRow_insertAttributes_print : ∃ d n, ∃ tag,
    Document.read (fun _ _ => Concrete.typedRow) "A.tsx" "<Row<T>/>;\n" = .ok d ∧
      n ∈ d.root.walk ∧ n.label = .openingTag true ∧
      tag ∈ (d.insertAttributes n [(0, Rule.ListKey.keyAttribute "i")]).root.walk ∧ tag.id = n.id ∧
      tag.print (Utf8.encode "<Row<T>/>;\n") = .ok (Utf8.encode "<Row key=\x7bi\x7d<T>/>") := by
  have hread : (Document.read (fun _ _ => Concrete.typedRow) "A.tsx" "<Row<T>/>;\n").map
      (fun d => (d.root.walk.any (·.label = .openingTag true),
        d.root.walk.all fun n => !n.label.isExported)) = .ok (true, true) := by decide +kernel
  obtain ⟨d, hd, hx⟩ := Reading.map_eq_ok.1 hread
  obtain ⟨htag, hexact⟩ := Prod.mk.inj hx
  obtain ⟨n, hn, hl⟩ := List.any_eq_true.1 htag
  have hkey : (Rule.ListKey.keyAttribute "i").print (Utf8.encode "<Row<T>/>;\n") =
      .ok (Utf8.encode ("key" ++ "=\x7b" ++ "i" ++ "\x7d")) :=
    Node.print_braced "key" false (Reading.print_identifier rfl)
  obtain ⟨tag, hmem, hid, c, hc, -, x, before, after, hnamed, -, order, horder, hprint⟩ :=
    @insertAttributes_print (fun _ _ => Concrete.typedRow) "A.tsx" "<Row<T>/>;\n" d n true
      (by decide +kernel) hd hn (of_decide_eq_true hl)
      (fun m hm he => by
        have h := List.all_eq_true.1 hexact m (Node.mem_walk_trans hm hn)
        rw [he] at h
        cases h) [(0, Rule.ListKey.keyAttribute "i")] _ (by decide) (.cons hkey .nil)
  have hspans : ∀ c ∈ Concrete.typedRow.walk, ∀ x ∈ c.field? "name",
      c.span = ⟨0, 9⟩ ∧ x.span = ⟨1, 4⟩ := by decide +kernel
  obtain ⟨hcs, hxs⟩ := hspans c hc x hnamed.field
  refine ⟨d, n, tag, hd, hn, of_decide_eq_true hl, hmem, hid, ?_⟩
  rw [hprint, List.perm_singleton.1 horder, hcs, hxs]
  decide +kernel

end JsxLint
