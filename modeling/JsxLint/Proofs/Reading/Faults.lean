import JsxLint.Proofs.Reading.Shape

/-!
# The place of a syntax error

A tree that could not be read is refused for the first of its nodes that stands for a missing token
or for text that no rule takes. Only faulty nodes are entered in search of it; when nodes are marked
faulty just where there is something to be found, nothing is passed over.

* `Concrete.IsBad`, `Concrete.Marked`: what is looked for, and where the marks lead to it;
* `Concrete.search`: the search as a loop over a stack; `search_singleton`: it finds the same;
* `Concrete.Marked.firstFault?_eq`: the fault is that of the first bad node in the tree;
* `Document.read_fault_first`: what is thrown for a tree with an error.
-/

namespace JsxLint

namespace Concrete

variable {s : Source} {b c : Concrete} {cs stack : List Concrete}

/-! ### Bad nodes -/

/-- Whether a node stands for a token that is not there or for text that no rule takes. -/
def IsBad (c : Concrete) : Prop :=
  c.missing = true ∨ c.kind = "ERROR"

instance (c : Concrete) : Decidable c.IsBad :=
  inferInstanceAs (Decidable (_ ∨ _))

/-- Whether exactly those nodes are marked as faulty that are bad or have a bad node below them. -/
def Marked (c : Concrete) : Prop :=
  ∀ n ∈ c.walk, n.faulty = true ↔ ∃ b ∈ n.walk, b.IsBad

instance (c : Concrete) : Decidable c.Marked :=
  inferInstanceAs (Decidable (∀ n ∈ c.walk, n.faulty = true ↔ ∃ b ∈ n.walk, b.IsBad))

theorem Marked.child (h : c.Marked) (hb : b ∈ c.children) : b.Marked := fun n hn =>
  h n (mem_walk.2 (.inr ⟨b, hb, hn⟩))

theorem ownFault?_eq_none : ownFault? s c = none ↔ ¬ c.IsBad := by
  rw [ownFault?, IsBad]
  split_ifs <;> simp_all

theorem ownFault?_of_missing (h : c.missing = true) :
    ownFault? s c = some (.missing c.kind (s.position c.span.start)) :=
  if_pos h

theorem ownFault?_of_error (hm : c.missing = false) (hk : c.kind = "ERROR") :
    ownFault? s c =
      some (.unexpected ((s.characters c.span).take 40) (s.position c.span.start)) := by
  rw [ownFault?, hm, if_neg Bool.false_ne_true, if_pos hk]

/-! ### The first fault of a tree -/

theorem firstFault?_eq (s : Source) (c : Concrete) : c.firstFault? s =
    (ownFault? s c).or (if c.faulty then firstFaultAll? s c.children else none) := by
  cases c
  rw [firstFault?]
  cases ownFault? s _ <;> rfl

theorem findSome?_ownFault_eq_none (h : ∀ n ∈ cs, ¬ n.IsBad) : cs.findSome? (ownFault? s) = none :=
  List.findSome?_eq_none_iff.2 fun n hn => ownFault?_eq_none.2 (h n hn)

theorem firstFaultAll?_eq (h : ∀ c ∈ cs, c.firstFault? s = c.walk.findSome? (ownFault? s)) :
    firstFaultAll? s cs = (cs.flatMap walk).findSome? (ownFault? s) := by
  induction cs with
  | nil => rfl
  | cons c cs ih =>
    obtain ⟨hc, hcs⟩ := List.forall_mem_cons.1 h
    rw [firstFaultAll?, hc, ih hcs, List.flatMap_cons, List.findSome?_append]

/-- Where nodes are marked right, leaving out those without a mark leaves out no bad node. -/
theorem Marked.firstFault?_eq (h : c.Marked) :
    c.firstFault? s = c.walk.findSome? (ownFault? s) := by
  induction c using induct with
  | step c ih =>
    have hchildren := firstFaultAll?_eq fun b hb => ih b hb (h.child hb)
    rw [Concrete.firstFault?_eq, hchildren, walk_eq, List.findSome?_cons]
    cases hown : ownFault? s c with
    | some fault => rfl
    | none =>
      rw [Option.none_or]
      by_cases hf : c.faulty = true
      · rw [if_pos hf]
      · rw [if_neg hf]
        refine (findSome?_ownFault_eq_none fun n hn hbad => ?_).symm
        have hwalk : n ∈ c.walk := by
          rw [walk_eq]
          exact List.mem_cons_of_mem _ hn
        exact hf ((h c c.self_mem_walk).2 ⟨n, hwalk, hbad⟩)

/-- The fault of a tree that is marked right is that of its first bad node. -/
theorem Marked.firstFault?_of_find? (h : c.Marked) (hb : c.walk.find? (·.IsBad) = some b) :
    ∃ fault, ownFault? s b = some fault ∧ c.firstFault? s = some fault := by
  obtain ⟨hbad, earlier, later, hwalk, hearlier⟩ := List.find?_eq_some_iff_append.1 hb
  have hown : ownFault? s b ≠ none := fun hnone =>
    ownFault?_eq_none.1 hnone (of_decide_eq_true hbad)
  obtain ⟨fault, hfault⟩ := Option.ne_none_iff_exists'.1 hown
  refine ⟨fault, hfault, ?_⟩
  have hnone : earlier.findSome? (ownFault? s) = none :=
    findSome?_ownFault_eq_none fun n hn => by simpa using hearlier n hn
  rw [h.firstFault?_eq, hwalk, List.findSome?_append, hnone, Option.none_or,
    List.findSome?_cons_of_isSome (by rw [hfault]; rfl), hfault]

/-! ### The search with a stack -/

/-- The first fault that is found with a stack of trees: a faulty node gives way to its children,
the first of them on top. -/
def search (s : Source) : List Concrete → Option SyntaxFault
  | [] => none
  | c :: stack =>
    match ownFault? s c with
    | some fault => some fault
    | none => if c.faulty then search s (c.children ++ stack) else search s stack
termination_by stack => (walkAll stack).length
decreasing_by
  all_goals
    simp only [walkAll_eq, List.flatMap_append, List.flatMap_cons, List.length_append, walk_eq,
      List.length_cons]
    omega

theorem search_cons (s : Source) (c : Concrete) (stack : List Concrete) :
    search s (c :: stack) = (ownFault? s c).or
      (if c.faulty then search s (c.children ++ stack) else search s stack) := by
  rw [search]
  cases ownFault? s c <;> rfl

theorem search_append_of (h : ∀ c ∈ cs, ∀ stack, search s (c :: stack) =
    (c.firstFault? s).or (search s stack)) :
    search s (cs ++ stack) = (firstFaultAll? s cs).or (search s stack) := by
  induction cs with
  | nil => rfl
  | cons c cs ih =>
    obtain ⟨hc, hcs⟩ := List.forall_mem_cons.1 h
    rw [List.cons_append, hc, ih hcs, firstFaultAll?, Option.or_assoc]

/-- The tree on top of the stack is searched before what is below it. -/
theorem search_cons_eq (s : Source) (c : Concrete) (stack : List Concrete) :
    search s (c :: stack) = (c.firstFault? s).or (search s stack) := by
  induction c using induct generalizing stack with
  | step c ih =>
    rw [search_cons, search_append_of ih, firstFault?_eq, Option.or_assoc]
    split_ifs <;> rfl

/-- The search with a stack finds the fault that the tree is refused for. -/
theorem search_singleton (s : Source) (c : Concrete) : search s [c] = c.firstFault? s := by
  rw [search_cons_eq, search, Option.or_none]

end Concrete

/-! ### The error of a text -/

theorem read_eq_fault {grammar : Grammar} {path text : String}
    (h : (grammar (.ofPath path) text).faulty = true) :
    Document.read grammar path text =
      .error (.fault ((grammar (.ofPath path) text).syntaxFault (.ofString path text))) := by
  rw [Document.read, Document.ofConcrete, Reading.language_ofString, if_pos h]
  rfl

/-- A text whose tree has an error is refused for the first bad node of the tree, parents first. The
fault has the place at which that node starts; it names the node as missing just when it is; and it
is never the one without a place. -/
theorem Document.read_fault_first {grammar : Grammar} {path text : String}
    (hmarked : (grammar (.ofPath path) text).Marked)
    (hfaulty : (grammar (.ofPath path) text).faulty = true) :
    ∃ bad fault,
      (grammar (.ofPath path) text).walk.find? (·.IsBad) = some bad ∧
      Document.read grammar path text = .error (.fault fault) ∧
      Concrete.search (.ofString path text) [grammar (.ofPath path) text] = some fault ∧
      fault.position? = some ((Source.ofString path text).position bad.span.start) ∧
      (bad.missing = true ↔
        fault = .missing bad.kind ((Source.ofString path text).position bad.span.start)) ∧
      (bad.missing = false ↔
        fault = .unexpected (((Source.ofString path text).characters bad.span).take 40)
          ((Source.ofString path text).position bad.span.start)) ∧
      fault ≠ .unplaced := by
  generalize hs : Source.ofString path text = s
  generalize hc : grammar (.ofPath path) text = c at *
  obtain ⟨bad, hbad⟩ : ∃ bad, c.walk.find? (·.IsBad) = some bad := by
    obtain ⟨b, hb, hbad⟩ := (hmarked c c.self_mem_walk).1 hfaulty
    exact Option.isSome_iff_exists.1 (List.find?_isSome.2 ⟨b, hb, decide_eq_true hbad⟩)
  obtain ⟨fault, hown, hfirst⟩ := hmarked.firstFault?_of_find? (s := s) hbad
  have hread : Document.read grammar path text = .error (.fault fault) := by
    rw [read_eq_fault (hc ▸ hfaulty), hc, hs, Concrete.syntaxFault, hfirst]
    rfl
  refine ⟨bad, fault, hbad, hread, (Concrete.search_singleton s c).trans hfirst, ?_⟩
  cases hm : bad.missing with
  | true =>
    rw [Concrete.ownFault?_of_missing hm] at hown
    cases hown
    simp [SyntaxFault.position?]
  | false =>
    have hisbad := (List.find?_eq_some_iff_append.1 hbad).1
    have hkind : bad.kind = "ERROR" := (of_decide_eq_true hisbad).resolve_left (by simp [hm])
    rw [Concrete.ownFault?_of_error hm hkind] at hown
    cases hown
    simp [SyntaxFault.position?]

/-- A tree with text that no rule takes before a missing token. -/
def Concrete.twoFaults : Concrete :=
  ⟨"program", ⟨0, 5⟩, none, true, false, true,
    [rule "comment" 0 2 none [],
      ⟨"expression_statement", ⟨3, 5⟩, none, true, false, true,
        [⟨"ERROR", ⟨3, 4⟩, none, true, false, true, [token ")" 3 4]⟩,
          rule "identifier" 4 5 none [],
          ⟨";", ⟨5, 5⟩, none, false, true, true, []⟩]⟩]⟩

/-- Of two faults, the one that comes first in the tree is reported. -/
theorem read_fault_first_two :
    Concrete.twoFaults.Marked ∧ Concrete.twoFaults.faulty = true ∧
    Document.read (fun _ _ => Concrete.twoFaults) "a.jsx" "//\n)a" =
      .error (.fault (.unexpected [')'] ⟨2, 0⟩)) := by
  have hmarked : Concrete.twoFaults.Marked := by decide +kernel
  refine ⟨hmarked, rfl, ?_⟩
  obtain ⟨bad, fault, hfirst, hread, -, -, -, hunexpected, -⟩ := @Document.read_fault_first
    (fun _ _ => Concrete.twoFaults) "a.jsx" "//\n)a" hmarked rfl
  have hbad : Concrete.twoFaults.walk.find? (·.IsBad) =
      some ⟨"ERROR", ⟨3, 4⟩, none, true, false, true, [.token ")" 3 4]⟩ := rfl
  obtain rfl := Option.some.inj (hfirst.symm.trans hbad)
  have hplace : (Source.ofString "a.jsx" "//\n)a").position 3 = ⟨2, 0⟩ := by decide +kernel
  have htext : (Source.ofString "a.jsx" "//\n)a").characters ⟨3, 4⟩ = [')'] := by decide +kernel
  rw [hread, hunexpected.1 rfl, hplace, htext]
  rfl

end JsxLint
