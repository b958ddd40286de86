import JsxLint.Proofs.Printing.Printable
import JsxLint.Proofs.Rule.Markup
import JsxLint.Proofs.Syntax.WellFormed

/-!
# Printing collapsed elements

An element that was collapsed is printed as its opening tag with another end. The end is found in the
bytes behind the last attribute, without regard to comments: behind a comment that is closed right
before the tag the `/` of the comment is taken for the end, and a comment up to the end of its line
swallows the end when the line break goes.

* `TagEnds`: how the source ends an opening tag;
* `closeTag_tail`: how the printer ends it when it closes itself;
* `collapse_print`: what is printed for a collapsed element.
-/

namespace JsxLint

open Node Trivia

/-- Whether an opening tag ends, behind its name and its attributes, with `rest`, with white space
and comments and with `>`. For most tags `rest` is empty; a tag without attributes may have type
arguments there. -/
structure TagEnds (source : Bytes) (opening : Node) (rest trivia : String) : Prop where
  tail : tagTail source opening = Utf8.encode (rest ++ trivia ++ ">")
  rest : ∀ c ∈ rest.toList.getLast?, c ≠ '/' ∧ isAsciiBlank c = false
  trivia : IsTrivia trivia

variable {text rest trivia : String} {forms : NodeId → String} {d : Document} {n : Node}
  {parts : ElementParts}

/-! ### The end of a tag -/

theorem endsSelfClosed_concat (bs : Bytes) :
    Printer.endsSelfClosed (bs ++ [0x3E]) = true ↔ bs.getLast? = some 0x2F := by
  rw [Printer.endsSelfClosed, List.isSuffixOf, List.reverse_append]
  rcases List.eq_nil_or_concat bs with rfl | ⟨bs, b, rfl⟩
  · decide
  · rw [List.concat_eq_append, List.getLast?_concat, Option.some.injEq, List.reverse_append]
    simp [eq_comm (a := b)]

/-- A tag that closes itself is ended by the bytes before its `>`. -/
theorem closeTag_tail (hr : ∀ c ∈ rest.toList.getLast?, c ≠ '/' ∧ isAsciiBlank c = false)
    (body : Bytes) : Printer.closeTag true body (Utf8.encode (rest ++ trivia ++ ">")) =
      (if trivia.toList.getLast? = some '/' then body else Bytes.stripEnd body) ++
        Utf8.encode (rest ++ tagEnd trivia) := by
  have hangle : Utf8.encode (rest ++ trivia ++ ">") = Utf8.encode (rest ++ trivia) ++ [0x3E] :=
    Utf8.encode_append _ _
  have hlast : (Utf8.encode (rest ++ trivia)).getLast? = some 0x2F ↔
      trivia.toList.getLast? = some '/' := by
    rw [getLast?_encode, String.toList_append, List.getLast?_append, Option.or_eq_some_iff]
    refine or_iff_left fun ⟨_, hl⟩ => ?_
    exact (hr '/' hl).1 rfl
  have hstrip : stripBlank (rest ++ trivia) = rest ++ stripBlank trivia := by
    rw [stripBlank, String.toList_append, dropEndWhile_append_of_last _ fun c hc => (hr c hc).2,
      String.ofList_append, String.ofList_toList, stripBlank]
  have hend : Bytes.stripEnd (Utf8.encode (rest ++ trivia) ++ [0x3E]) =
      Utf8.encode (rest ++ trivia) ++ [0x3E] := Bytes.stripEnd_concat _ _
  have hcloses : (true && !Printer.endsSelfClosed (Utf8.encode (rest ++ trivia) ++ [0x3E])) = true ↔
      ¬trivia.toList.getLast? = some '/' := by
    rw [Bool.true_and, Bool.not_eq_true', ← hlast, ← endsSelfClosed_concat, Bool.not_eq_true]
  rw [Printer.closeTag, hangle, hend, tagEnd]
  by_cases hslash : trivia.toList.getLast? = some '/'
  · rw [if_neg fun h => hcloses.1 h hslash, if_pos hslash, if_pos hslash, ← hangle,
      String.append_assoc]
  · have hwithout : Printer.withoutAngle (Utf8.encode (rest ++ trivia) ++ [0x3E]) =
        Utf8.encode (rest ++ trivia) := by
      rw [Printer.withoutAngle, if_pos (List.isSuffixOf_iff_suffix.2 (List.suffix_append _ _)),
        List.dropLast_concat]
    have hlaid : Utf8.encode (rest ++ (stripBlank trivia ++ " />")) =
        Utf8.encode (rest ++ stripBlank trivia) ++ [0x20, 0x2F, 0x3E] := by
      rw [← String.append_assoc]
      exact Utf8.encode_append _ _
    rw [if_pos (hcloses.2 hslash), if_neg hslash, if_neg hslash, hwithout, stripEnd_encode, hstrip,
      hlaid, List.append_assoc]

/-! ### Elements -/

theorem print_openingTag {opening : Node} {selfClosing : Bool}
    (hl : opening.label = .openingTag selfClosing) (source : Bytes) : opening.print source =
      Printer.openingTag source opening selfClosing
        (opening.children.map fun c => (c, c.print source)) := by
  rw [Node.print_eq, Printer.assemble, hl]

/-- A collapsed element is printed as its opening tag, which closes itself. -/
theorem print_closed {opening : Node} (source : Bytes) (hc : opening.children ≠ []) :
    (Rule.closed opening n).print source = Printer.openingTag source opening true
      (opening.children.map fun c => (c, c.print source)) := by
  have hself : (Rule.closed opening n).isSelfClosing = true := rfl
  have hl : ({ opening with label := .openingTag true } : Node).label = .openingTag true := rfl
  obtain ⟨name, attributes, hc⟩ := List.exists_cons_of_ne_nil hc
  rw [Node.print_eq, Printer.assemble]
  show Printer.element source (Rule.closed opening n) _ = _
  rw [Printer.element, hself, if_pos rfl]
  exact (print_openingTag hl source).trans (by rw [hc]; rfl)

/-- A collapsed element is printed as its opening tag with another end. What the tag had behind its
last part is still there, but for white space, and the new end is the token `/>` unless a block
comment was right before the old one, or a line comment is now. -/
theorem collapse_print (hd : d.Printable text forms) (hw : d.WellFormed) (hn : n ∈ d.root.walk)
    (hp : n.element? = some parts) (ho : parts.opening.label = .openingTag false)
    (ht : TagEnds (Utf8.encode text) parts.opening rest trivia) :
    ∃ front front', (front' = front ∨ front' = Bytes.stripEnd front) ∧
      parts.opening.print (Utf8.encode text) =
        .ok (front ++ Utf8.encode (rest ++ trivia ++ ">")) ∧
      (∃ n' ∈ (d.collapse n.id).root.walk, n'.id = n.id ∧
        n'.print (Utf8.encode text) = .ok (front' ++ Utf8.encode (rest ++ tagEnd trivia))) ∧
      (∀ cs : List Char, (∀ c ∈ cs.getLast?, isAsciiBlank c = false) →
        cs <:+: trivia.toList → cs <:+: (tagEnd trivia).toList) ∧
      (SelfCloses (tagEnd trivia) ↔
        trivia.toList.getLast? ≠ some '/' ∧ mode? (stripBlank trivia) ≠ some .line) := by
  have hopening : parts.opening ∈ n.children := by
    rw [children_eq_of_element? hp]
    exact List.mem_cons_self
  have hprintable : ∀ m ∈ parts.opening.walk, m.Printable text := fun m hm =>
    (hd.ready m (Document.mem_nodes.2 (.inl
      (mem_walk_trans hm (mem_walk_trans (child_mem_walk hopening) hn))))).printable
  have hself := hprintable _ (self_mem_walk _)
  have hform : parts.opening.label.form = "JSXOpeningElement" := by
    rw [ho]
    rfl
  obtain ⟨-, body, -, heq⟩ := openingTag_eq hself hform
    (fun c hc => hprintable c (child_mem_walk hc))
    (fun c hc => print_isText fun m hm => hprintable m (mem_walk_of_child hc hm))
  rw [ht.tail] at heq
  refine ⟨body, if trivia.toList.getLast? = some '/' then body else Bytes.stripEnd body, ?_, ?_,
    ⟨Rule.closed parts.opening n, ?_, rfl, ?_⟩, fun cs hlast => infix_tagEnd hlast,
    selfCloses_tagEnd ht.trivia⟩
  · split_ifs
    · exact .inl rfl
    · exact .inr rfl
  · rw [print_openingTag ho, heq]
    rfl
  · rw [Rule.collapse_eq (hw.node?_eq hn) hp]
    exact mem_walk_modify_of_edit hw.root.nodup hn (self_mem_walk _)
  · rw [print_closed _ (hself.tagged hform), heq, closeTag_tail ht.rest]

/-! ### A comment before the end -/

namespace Concrete

/-- The tree of `<img /* c */></img>;`. -/
def commentedTag : Concrete :=
  rule "program" 0 21 none
    [rule "expression_statement" 0 20 none
      [rule "jsx_element" 0 19 none
          [rule "jsx_opening_element" 0 13 (some "open_tag")
              [token "<" 0 1, rule "identifier" 1 4 (some "name") [], rule "comment" 5 12 none [],
                token ">" 12 13],
            rule "jsx_closing_element" 13 19 (some "close_tag")
              [token "</" 13 15, rule "identifier" 15 18 (some "name") [], token ">" 18 19]],
        token ";" 19 20]]

end Concrete

/-- The end of the comment is taken for the end of the tag, which is then not closed. -/
theorem commentedTag_print : ∃ d n parts forms,
    Document.read (fun _ _ => Concrete.commentedTag) "A.jsx" "<img /* c */></img>;\n" = .ok d ∧
    d.Printable "<img /* c */></img>;\n" forms ∧ d.WellFormed ∧ n ∈ d.root.walk ∧
    n.element? = some parts ∧ parts.opening.label = .openingTag false ∧
    TagEnds (Utf8.encode "<img /* c */></img>;\n") parts.opening "" " /* c */" ∧
    (∃ front, ∃ n' ∈ (d.collapse n.id).root.walk, n'.id = n.id ∧
      n'.print (Utf8.encode "<img /* c */></img>;\n") =
        .ok (front ++ Utf8.encode " /* c */>")) ∧
    ¬SelfCloses " /* c */>" := by
  have hfacts : (Document.read (fun _ _ => Concrete.commentedTag) "A.jsx"
      "<img /* c */></img>;\n").map (fun d => d.root.walk.any fun n => n.element?.any fun parts =>
        parts.opening.label == .openingTag false &&
          tagTail (Utf8.encode "<img /* c */></img>;\n") parts.opening ==
            Utf8.encode ("" ++ " /* c */" ++ ">")) = .ok true := by decide +kernel
  obtain ⟨d, hd, hvalues⟩ := Reading.map_eq_ok.1 hfacts
  have hwellFormed := Reading.read_wellFormed (by decide +kernel) hd
  obtain ⟨forms, hprintable⟩ := Reading.read_printable (by decide +kernel) hd
  obtain ⟨n, hn, hvalues⟩ := List.any_eq_true.1 hvalues
  obtain ⟨parts, hparts, hvalues⟩ := (Option.any_eq_true _ _).1 hvalues
  rw [Bool.and_eq_true, beq_iff_eq, beq_iff_eq] at hvalues
  obtain ⟨hlabel, htail⟩ := hvalues
  have hends : TagEnds (Utf8.encode "<img /* c */></img>;\n") parts.opening "" " /* c */" :=
    ⟨htail, fun c hc => (by cases hc), by decide⟩
  obtain ⟨-, front, -, -, hprint, -, hiff⟩ :=
    collapse_print hprintable hwellFormed hn hparts hlabel hends
  exact ⟨d, n, parts, forms, hd, hprintable, hwellFormed, hn, hparts, hlabel, hends,
    ⟨front, hprint⟩, fun h => (hiff.1 h).1 (by decide)⟩

end JsxLint
