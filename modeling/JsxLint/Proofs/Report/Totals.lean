import JsxLint.Proofs.Rule.Reports
import JsxLint.Report.Aggregate
import Mathlib.Data.List.Dedup
import Mathlib.Data.String.Basic
import Mathlib.Algebra.Order.BigOperators.Group.List

/-!
# Totals of reports

A report counts findings and changes in several ways, and lists the rules and the files with most
issues. All of it agrees with the outcomes that the report is on, and none of it depends on the
order in which these came.

* `Report.ofOutcomes_perm`: the same outcomes in another order;
* `Report.total_tally`, `Report.lookup_tally`: counts of the elements of a list;
* `Report.IsTop`: the greatest of a list;
* `Report.issueGroups_spec`: the issues rule by rule;
* `Report.Agrees`: what holds of the totals;
* `Report.ofOutcomes_agrees`: it holds of every report on outcomes of different files.
-/

namespace JsxLint.Report

/-! ### Order -/

section Order

variable {outcomes others : List Outcome}

theorem mergeSort_perm_outcomes (outcomes : List Outcome) :
    (outcomes.mergeSort outcomeLe).Perm outcomes :=
  List.mergeSort_perm outcomes outcomeLe

theorem pairwise_outcomeLe (outcomes : List Outcome) :
    (outcomes.mergeSort outcomeLe).Pairwise fun a b => a.path ≤ b.path := by
  have h : (outcomes.mergeSort outcomeLe).Pairwise fun a b => outcomeLe a b = true :=
    List.pairwise_mergeSort (fun a b c hab hbc => by
      simp only [outcomeLe, decide_eq_true_eq] at hab hbc ⊢
      exact le_trans hab hbc)
    (fun a b => by
      simp only [outcomeLe, Bool.or_eq_true, decide_eq_true_eq]
      exact le_total a.path b.path) outcomes
  exact h.imp fun h => of_decide_eq_true h

/-- Outcomes of different files are put into the strict order of their paths. -/
theorem pairwise_lt_path (hpaths : (outcomes.map (·.path)).Nodup) :
    (outcomes.mergeSort outcomeLe).Pairwise fun a b => a.path < b.path := by
  have hnodup : ((outcomes.mergeSort outcomeLe).map (·.path)).Nodup :=
    ((mergeSort_perm_outcomes outcomes).map _).nodup_iff.2 hpaths
  have hne := List.pairwise_map.1 hnodup
  exact ((pairwise_outcomeLe outcomes).and hne).imp fun ⟨hle, hne⟩ => lt_of_le_of_ne hle hne

/-- Outcomes of different files have one order. -/
theorem mergeSort_eq_of_perm (h : outcomes.Perm others) (hpaths : (outcomes.map (·.path)).Nodup) :
    outcomes.mergeSort outcomeLe = others.mergeSort outcomeLe := by
  have hothers : (others.map (·.path)).Nodup := (h.map _).nodup_iff.1 hpaths
  refine List.Perm.eq_of_pairwise ?_ (pairwise_lt_path hpaths) (pairwise_lt_path hothers) ?_
  · intro a b _ _ hab hba
    exact absurd hab (lt_asymm hba)
  · exact ((mergeSort_perm_outcomes outcomes).trans h).trans (mergeSort_perm_outcomes others).symm

/-- The order in which outcomes of different files come does not matter for the report on them. -/
theorem ofOutcomes_perm (h : outcomes.Perm others) (hpaths : (outcomes.map (·.path)).Nodup)
    (interrupted : Bool) : ofOutcomes outcomes interrupted = ofOutcomes others interrupted := by
  unfold ofOutcomes
  rw [mergeSort_eq_of_perm h hpaths]

end Order

/-! ### Counts -/

section Counts

theorem total_map_length {α β : Type} (g : α → List β) (l : List α) :
    total (l.map fun a => (g a).length) = (l.flatMap g).length :=
  List.length_flatMap.symm

theorem total_map_le {α : Type} {m n : α → Nat} (h : ∀ a, m a ≤ n a) (l : List α) :
    total (l.map m) ≤ total (l.map n) :=
  List.sum_le_sum fun a _ => h a

variable {α : Type} [BEq α]

theorem eraseDups_sublist : ∀ l : List α, l.eraseDups.Sublist l
  | [] => by simp
  | a :: l => by
    rw [List.eraseDups_cons]
    exact ((eraseDups_sublist (l.filter fun b => !b == a)).trans List.filter_sublist).cons_cons a
termination_by l => l.length
decreasing_by exact Nat.lt_succ_of_le (List.length_filter_le _ _)

variable [LawfulBEq α]

theorem nodup_eraseDups : ∀ l : List α, l.eraseDups.Nodup
  | [] => by simp
  | a :: l => by
    rw [List.eraseDups_cons, List.nodup_cons]
    refine ⟨?_, nodup_eraseDups (l.filter fun b => !b == a)⟩
    simp
termination_by l => l.length
decreasing_by exact Nat.lt_succ_of_le (List.length_filter_le _ _)

/-- An element more is counted once for every time that it is a key. -/
theorem total_count_cons (keys l : List α) (a : α) :
    total (keys.map fun k => (a :: l).count k) =
      total (keys.map fun k => l.count k) + keys.count a := by
  induction keys with
  | nil => rfl
  | cons k keys ih =>
    simp only [total, List.map_cons, List.foldr_cons, List.count_cons] at ih ⊢
    have hcomm : (if (a == k) = true then 1 else 0) = (if (k == a) = true then 1 else 0) := by
      rw [BEq.comm]
    omega

/-- The counts of all keys make up the length of a list of keys. -/
theorem total_count {keys l : List α} (hkeys : keys.Nodup) (h : ∀ a ∈ l, a ∈ keys) :
    total (keys.map fun k => l.count k) = l.length := by
  induction l with
  | nil => induction keys <;> simp_all [total]
  | cons a l ih =>
    have hone : keys.count a = 1 := List.count_eq_one_of_mem hkeys (h a List.mem_cons_self)
    rw [total_count_cons, ih fun b hb => h b (List.mem_cons_of_mem a hb), hone, List.length_cons]

/-- The same for the keys and the elements with some property. -/
theorem total_tallyOf {keys l : List α} (p : α → Bool) (hkeys : keys.Nodup)
    (h : ∀ a ∈ l, a ∈ keys) :
    total (((tallyOf keys l).filter fun entry => p entry.1).map (·.2)) = l.countP p := by
  have hmap : ((tallyOf keys l).filter fun entry => p entry.1).map (·.2) =
      (keys.filter p).map fun k => (l.filter p).count k := by
    unfold tallyOf
    rw [List.filter_map, List.map_map]
    refine List.map_congr_left fun k hk => ?_
    exact (List.count_filter (List.mem_filter.1 hk).2).symm
  rw [hmap, total_count (hkeys.filter p), List.countP_eq_length_filter]
  intro a ha
  obtain ⟨ha, hp⟩ := List.mem_filter.1 ha
  exact List.mem_filter.2 ⟨h a ha, hp⟩

theorem total_tally (l : List α) : total ((tally l).map (·.2)) = l.length := by
  unfold tally
  rw [List.map_map]
  exact total_count (nodup_eraseDups l) fun a ha => List.mem_eraseDups.2 ha

theorem lookup_map {β : Type} {keys : List α} {a : α} (g : α → β) (h : a ∈ keys) :
    (keys.map fun k => (k, g k)).lookup a = some (g a) := by
  induction keys with
  | nil => cases h
  | cons k keys ih =>
    rw [List.map_cons, List.lookup_cons]
    by_cases hk : a = k
    · simp [hk]
    · have hne : (a == k) = false := beq_false_of_ne hk
      simp only [hne]
      exact ih ((List.mem_cons.1 h).resolve_left hk)

/-- What is counted under an element is how often it occurs. -/
theorem lookup_tally {l : List α} {a : α} (h : a ∈ l) : (tally l).lookup a = some (l.count a) :=
  lookup_map _ (List.mem_eraseDups.2 h)

end Counts

/-! ### The greatest -/

/-- Whether `top` is made of those elements of a list that have the greatest sizes, the greatest
first: all of them if they are few. -/
structure IsTop {α : Type} (size : α → Nat) (l top : List α) : Prop where
  few : top.length ≤ topSize
  nodup : top.Nodup
  subset : ∀ a ∈ top, a ∈ l
  complete : l.length ≤ topSize → ∀ a ∈ l, a ∈ top
  descending : top.Pairwise fun a b => size b ≤ size a
  greatest : ∀ a ∈ l, a ∉ top → ∀ b ∈ top, size a ≤ size b

section Greatest

variable {α β : Type} {size : α → Nat} {l l' top : List α}

theorem topOf_isTop (size : α → Nat) (hl : l.Nodup) : IsTop size l (topOf size l) := by
  let le : α → α → Bool := fun a b => decide (size b ≤ size a)
  have hperm : (l.mergeSort le).Perm l := List.mergeSort_perm l le
  have hle : (l.mergeSort le).Pairwise fun a b => le a b = true := by
    refine List.pairwise_mergeSort (fun a b c hab hbc => ?_) (fun a b => ?_) l
    · exact decide_eq_true ((of_decide_eq_true hbc).trans (of_decide_eq_true hab))
    · simpa [le] using le_total (size b) (size a)
  have hsorted : (l.mergeSort le).Pairwise fun a b => size b ≤ size a :=
    hle.imp fun h => of_decide_eq_true h
  have htop : topOf size l = (l.mergeSort le).take topSize := rfl
  rw [htop]
  constructor
  · exact List.length_take_le _ _
  · exact (hperm.nodup_iff.2 hl).sublist (List.take_sublist _ _)
  · exact fun a ha => hperm.mem_iff.1 (List.mem_of_mem_take ha)
  · intro hfew a ha
    rw [List.take_of_length_le (hperm.length_eq ▸ hfew)]
    exact hperm.mem_iff.2 ha
  · exact hsorted.sublist (List.take_sublist _ _)
  · -- what is not taken comes behind all that is
    intro a ha hna b hb
    have hmem : a ∈ (l.mergeSort le).take topSize ++ (l.mergeSort le).drop topSize := by
      rw [List.take_append_drop]
      exact hperm.mem_iff.2 ha
    have hdrop := (List.mem_append.1 hmem).resolve_left hna
    rw [← List.take_append_drop topSize (l.mergeSort le)] at hsorted
    exact (List.pairwise_append.1 hsorted).2.2 b hb a hdrop

theorem IsTop.perm (h : IsTop size l top) (hperm : l.Perm l') : IsTop size l' top where
  few := h.few
  nodup := h.nodup
  subset a ha := hperm.mem_iff.1 (h.subset a ha)
  complete hfew a ha := h.complete (hperm.length_eq ▸ hfew) a (hperm.mem_iff.2 ha)
  descending := h.descending
  greatest a ha := h.greatest a (hperm.mem_iff.2 ha)

/-- The greatest under other names. -/
theorem IsTop.map (h : IsTop size l top) {g : α → β} {size' : β → Nat}
    (hg : ∀ a ∈ l, ∀ b ∈ l, g a = g b → a = b) (hsize : ∀ a ∈ l, size' (g a) = size a) :
    IsTop size' (l.map g) (top.map g) := by
  constructor
  · simpa using h.few
  · exact h.nodup.map_on fun a ha b hb => hg a (h.subset a ha) b (h.subset b hb)
  · intro b hb
    obtain ⟨a, ha, rfl⟩ := List.mem_map.1 hb
    exact List.mem_map_of_mem (h.subset a ha)
  · intro hfew b hb
    obtain ⟨a, ha, rfl⟩ := List.mem_map.1 hb
    exact List.mem_map_of_mem (h.complete (by simpa using hfew) a ha)
  · refine List.pairwise_map.2 (h.descending.imp_of_mem fun ha hb hle => ?_)
    rw [hsize _ (h.subset _ ha), hsize _ (h.subset _ hb)]
    exact hle
  · intro b hb hnb c hc
    obtain ⟨a, ha, rfl⟩ := List.mem_map.1 hb
    obtain ⟨c, hctop, rfl⟩ := List.mem_map.1 hc
    rw [hsize a ha, hsize c (h.subset c hctop)]
    exact h.greatest a ha (fun hmem => hnb (List.mem_map_of_mem hmem)) c hctop

end Greatest

/-! ### Issues rule by rule -/

section Groups

variable {issues : List (String × Finding)} {g : IssueGroup} {rule path : String}

theorem exists_find? (h : rule ∈ (issues.map (·.2.rule)).eraseDups) :
    ∃ entry ∈ issues, entry.2.rule = rule ∧
      issues.find? (fun (_, f) => f.rule == rule) = some entry := by
  obtain ⟨entry, hentry, rfl⟩ := List.mem_map.1 (List.mem_eraseDups.1 h)
  cases hfind : issues.find? fun (_, f) => f.rule == entry.2.rule with
  | none => exact absurd (List.find?_eq_none.1 hfind entry hentry) (by simp)
  | some first =>
    have hfirst := List.find?_some hfind
    exact ⟨first, List.mem_of_find?_eq_some hfind, eq_of_beq hfirst, rfl⟩

/-- There is one group for every rule. -/
theorem map_rule_issueGroups (issues : List (String × Finding)) :
    (issueGroups issues).map (·.rule) = (issues.map (·.2.rule)).eraseDups := by
  unfold issueGroups
  rw [List.map_filterMap]
  calc (issues.map (·.2.rule)).eraseDups.filterMap _
      = (issues.map (·.2.rule)).eraseDups.filterMap some := by
        refine List.filterMap_congr fun rule hrule => ?_
        obtain ⟨entry, -, -, hfind⟩ := exists_find? hrule
        simp [hfind, issueGroup]
    _ = _ := List.filterMap_some

/-- A group has a count and files like the issues of its rule. -/
theorem issueGroups_spec (h : g ∈ issueGroups issues) :
    (∃ entry ∈ issues, entry.2.rule = g.rule) ∧
      g.count = issues.countP (fun entry => entry.2.rule == g.rule) ∧
      g.files = ((issues.filter fun entry => entry.2.rule == g.rule).map (·.1)).eraseDups := by
  obtain ⟨rule, hrule, hg⟩ := List.mem_filterMap.1 h
  obtain ⟨entry, hentry, hrule', hfind⟩ := exists_find? hrule
  rw [hfind] at hg
  cases hg
  exact ⟨⟨entry, hentry, hrule'⟩, List.countP_eq_length_filter.symm, rfl⟩

end Groups

/-! ### Totals -/

/-- The findings of some outcomes. -/
def findingsOf (outcomes : List Outcome) : List Finding :=
  outcomes.flatMap (·.findings)

/-- The ids of the rules that some outcomes have issues of. -/
def issueRules (outcomes : List Outcome) : List String :=
  ((outcomes.flatMap (·.issues)).map (·.rule)).eraseDups

/-- The number of findings of a rule that a report gives. -/
def countOf (r : Report) (rule : String) : Nat :=
  (r.summary.byRule.lookup rule).getD 0

/-- Whether the totals of a report agree with each other and with the outcomes it is on. -/
structure Agrees (outcomes : List Outcome) (r : Report) : Prop where
  findings : r.summary.totalIssues + r.summary.totalGood = (findingsOf outcomes).length
  bySeverity : total (r.summary.bySeverity.map (·.2)) = (findingsOf outcomes).length
  byRule : total (r.summary.byRule.map (·.2)) = (findingsOf outcomes).length
  byCategory : total (r.summary.byCategory.map (·.2)) = r.summary.totalIssues
  issues : total ((r.summary.bySeverity.filter (·.1 != .good)).map (·.2)) = r.summary.totalIssues
  changes : r.totalChanges = (outcomes.flatMap (·.changes)).length
  changesByType : r.totalChanges = total (r.changesByType.map (·.2))
  errors : ∃ n, r.summary.bySeverity.lookup .error = some n ∧ r.summary.unresolvedErrors ≤ n
  checked : r.filesChecked = outcomes.length
  fixed : r.filesFixed ≤ r.filesChecked
  groupCount : ∀ g ∈ r.summary.topIssues, r.summary.byRule.lookup g.rule = some g.count
  groupOrder : ∀ g ∈ r.summary.topIssues, g.files.Pairwise (· < ·)
  groupFiles : ∀ g ∈ r.summary.topIssues, ∀ path, path ∈ g.files ↔
    ∃ o ∈ outcomes, o.path = path ∧ ∃ f ∈ o.findings, f.rule = g.rule
  topIssues : IsTop (countOf r) (issueRules outcomes) (r.summary.topIssues.map (·.rule))
  topFiles : IsTop (·.issues) (ranking outcomes) r.summary.topFiles

section Agrees

variable {outcomes others : List Outcome} {o : Outcome} {f g : Finding}

/-! #### Findings and issues -/

theorem length_issues_good (o : Outcome) : o.issues.length + o.good.length = o.findings.length := by
  unfold Outcome.issues Outcome.good
  rw [← List.countP_eq_length_filter, ← List.countP_eq_length_filter,
    List.length_eq_countP_add_countP Finding.isIssue]
  simp

theorem flatMap_issues (outcomes : List Outcome) :
    outcomes.flatMap (·.issues) = (findingsOf outcomes).filter (·.isIssue) := by
  unfold findingsOf Outcome.issues
  rw [List.filter_flatMap]

theorem mem_findingsOf : f ∈ findingsOf outcomes ↔ ∃ o ∈ outcomes, f ∈ o.findings :=
  List.mem_flatMap

/-- The issues with the paths of their files are those of the findings that are issues. -/
theorem mem_issues_iff {entry : String × Finding} :
    entry ∈ outcomes.flatMap (fun o => o.issues.map (o.path, ·)) ↔
      ∃ o ∈ outcomes, o.path = entry.1 ∧ entry.2 ∈ o.findings ∧ entry.2.isIssue := by
  obtain ⟨path, f⟩ := entry
  simp only [List.mem_flatMap, List.mem_map, Outcome.issues, List.mem_filter, Prod.mk.injEq]
  constructor
  · rintro ⟨o, ho, f, hf, rfl, rfl⟩
    exact ⟨o, ho, rfl, hf⟩
  · rintro ⟨o, ho, rfl, hf⟩
    exact ⟨o, ho, f, hf, rfl, rfl⟩

theorem map_issues (outcomes : List Outcome) :
    (outcomes.flatMap fun o => o.issues.map (o.path, ·)).map (·.2) =
      outcomes.flatMap (·.issues) := by
  rw [List.map_flatMap]
  simp [Function.comp_def]

theorem totalIssues_eq (outcomes : List Outcome) :
    (summarise outcomes).totalIssues = (findingsOf outcomes).countP (·.isIssue) := by
  rw [List.countP_eq_length_filter, ← flatMap_issues]
  exact total_map_length Outcome.issues outcomes

theorem severity_mem_all (s : Severity) : s ∈ Severity.all := by
  cases s <;> decide

theorem category_mem_all (c : Category) : c ∈ Category.all := by
  cases c <;> decide

/-- An unresolved error is a finding that is an error. -/
theorem length_unresolvedErrors_le (o : Outcome) :
    o.unresolvedErrors.length ≤ (o.findings.map (·.severity)).count .error := by
  have hsub : o.unresolvedErrors.Sublist (o.findings.filter (·.severity == .error)) := by
    unfold Outcome.unresolvedErrors Outcome.unresolved Outcome.issues
    exact (List.filter_sublist.trans List.filter_sublist).filter _
  rw [List.count, List.countP_map, List.countP_eq_length_filter]
  exact hsub.length_le

/-! #### Rules -/

/-- Whether a finding is one that some rule reports. -/
def IsReported (f : Finding) : Prop :=
  ∃ rule ∈ Rule.all, ∃ w nodes, f ∈ rule.detect w nodes

/-- Findings of one rule have one severity. -/
theorem severity_eq_of_rule_eq (hf : IsReported f) (hg : IsReported g) (h : f.rule = g.rule) :
    f.severity = g.severity := by
  obtain ⟨rule, hrule, w, nodes, hf⟩ := hf
  obtain ⟨other, hother, w', nodes', hg⟩ := hg
  have hsigns := Rule.signs_of_mem_all rule hrule
  have hsigns' := Rule.signs_of_mem_all other hother
  rw [hsigns.severity_eq hf, hsigns'.severity_eq hg]
  rw [hsigns.rule_eq hf, hsigns'.rule_eq hg] at h
  rw [Rule.id_inj hrule hother h]

/-- When a rule has an issue, all its findings are issues. -/
theorem isIssue_of_rule_eq (hf : IsReported f) (hg : IsReported g) (h : f.rule = g.rule)
    (hissue : f.isIssue) : g.isIssue := by
  unfold Finding.isIssue at hissue ⊢
  rwa [← severity_eq_of_rule_eq hf hg h]

/-- When a rule has an issue, it has as many issues as findings. -/
theorem countP_issues_eq (hrules : ∀ f ∈ findingsOf outcomes, IsReported f)
    (hf : f ∈ outcomes.flatMap (·.issues)) :
    (outcomes.flatMap (·.issues)).countP (·.rule == f.rule) =
      ((findingsOf outcomes).map (·.rule)).count f.rule := by
  rw [flatMap_issues] at hf ⊢
  obtain ⟨hf, hissue⟩ := List.mem_filter.1 hf
  rw [List.countP_filter, List.count, List.countP_map]
  refine List.countP_congr fun g hg => ?_
  simp only [Function.comp_apply, Bool.and_eq_true, beq_iff_eq]
  constructor
  · exact fun h => h.1
  · intro h
    exact ⟨h, isIssue_of_rule_eq (hrules f hf) (hrules g hg) h.symm hissue⟩

/-! #### Groups -/

/-- The issues of the outcomes with the paths of their files. -/
def pathed (outcomes : List Outcome) : List (String × Finding) :=
  outcomes.flatMap fun o => o.issues.map (o.path, ·)

theorem issueRules_eq (outcomes : List Outcome) :
    issueRules outcomes = ((pathed outcomes).map (·.2.rule)).eraseDups := by
  unfold issueRules
  rw [← map_issues, List.map_map]
  rfl

theorem lookup_byRule {g : IssueGroup} (hrules : ∀ f ∈ findingsOf outcomes, IsReported f)
    (hg : g ∈ issueGroups (pathed outcomes)) :
    (summarise outcomes).byRule.lookup g.rule = some g.count := by
  obtain ⟨⟨⟨path, f⟩, hentry, hrule⟩, hcount, -⟩ := issueGroups_spec hg
  have hf : f ∈ outcomes.flatMap (·.issues) := by
    rw [← map_issues]
    exact List.mem_map_of_mem hentry
  have hfound : f ∈ findingsOf outcomes := by
    rw [flatMap_issues] at hf
    exact (List.mem_filter.1 hf).1
  rw [hcount, ← hrule]
  have hissues : (pathed outcomes).countP (fun entry => entry.2.rule == f.rule) =
      (outcomes.flatMap (·.issues)).countP (·.rule == f.rule) := by
    rw [← map_issues, List.countP_map]
    rfl
  rw [hissues, countP_issues_eq hrules hf]
  exact lookup_tally (List.mem_map_of_mem hfound)

/-- The files of a group are those with a finding of its rule. -/
theorem mem_files_iff {g : IssueGroup} {path : String}
    (hrules : ∀ f ∈ findingsOf outcomes, IsReported f) (hg : g ∈ issueGroups (pathed outcomes)) :
    path ∈ g.files ↔ ∃ o ∈ outcomes, o.path = path ∧ ∃ f ∈ o.findings, f.rule = g.rule := by
  obtain ⟨⟨⟨other, first⟩, hentry, hrule⟩, -, hfiles⟩ := issueGroups_spec hg
  obtain ⟨o', ho', -, hfirst, hissue⟩ := mem_issues_iff.1 hentry
  -- the rule has an issue, so each of its findings is one
  have hfirst := hrules first (mem_findingsOf.2 ⟨o', ho', hfirst⟩)
  rw [hfiles, List.mem_eraseDups]
  simp only [List.mem_map, List.mem_filter, beq_iff_eq]
  constructor
  · rintro ⟨⟨path, f⟩, ⟨hmem, hf⟩, rfl⟩
    obtain ⟨o, ho, hpath, hfound, -⟩ := mem_issues_iff.1 hmem
    exact ⟨o, ho, hpath, f, hfound, hf⟩
  · rintro ⟨o, ho, rfl, f, hf, hsame⟩
    refine ⟨(o.path, f), ⟨mem_issues_iff.2 ⟨o, ho, rfl, hf, ?_⟩, hsame⟩, rfl⟩
    have hreported := hrules f (mem_findingsOf.2 ⟨o, ho, hf⟩)
    exact isIssue_of_rule_eq hfirst hreported (hrule.trans hsame.symm) hissue

/-- The files of a group are in the order of their paths. -/
theorem pairwise_files {g : IssueGroup} (hsorted : outcomes.Pairwise fun a b => a.path < b.path)
    (hg : g ∈ issueGroups (pathed outcomes)) : g.files.Pairwise (· < ·) := by
  obtain ⟨-, -, hfiles⟩ := issueGroups_spec hg
  have hle : ((pathed outcomes).map (·.1)).Pairwise (· ≤ ·) := by
    unfold pathed
    rw [List.map_flatMap, List.pairwise_flatMap]
    refine ⟨fun o _ => ?_, hsorted.imp fun hab => ?_⟩
    · rw [List.map_map]
      exact List.pairwise_map.2 (List.pairwise_of_forall fun _ _ => le_refl o.path)
    · intro x hx y hy
      simp only [List.map_map, List.mem_map, Function.comp_apply] at hx hy
      obtain ⟨-, -, rfl⟩ := hx
      obtain ⟨-, -, rfl⟩ := hy
      exact hab.le
  rw [hfiles]
  -- in order and without repetition is strictly in order
  have hsub := (List.filter_sublist (p := fun entry => entry.2.rule == g.rule)
    (l := pathed outcomes)).map Prod.fst
  have hown := hle.sublist ((eraseDups_sublist _).trans hsub)
  exact (hown.and (nodup_eraseDups _)).imp fun ⟨hle, hne⟩ => lt_of_le_of_ne hle hne

/-! #### Reports -/

theorem total_bySeverity (outcomes : List Outcome) :
    total ((summarise outcomes).bySeverity.map (·.2)) = (findingsOf outcomes).length := by
  have h := total_tallyOf (fun _ => true) (l := (findingsOf outcomes).map (·.severity))
    (by decide : Severity.all.Nodup) fun s _ => severity_mem_all s
  rw [List.filter_true, List.countP_true, List.length_map] at h
  exact h

theorem total_bySeverity_issues (outcomes : List Outcome) :
    total (((summarise outcomes).bySeverity.filter (·.1 != .good)).map (·.2)) =
      (summarise outcomes).totalIssues := by
  have h := total_tallyOf (· != .good) (l := (findingsOf outcomes).map (·.severity))
    (by decide : Severity.all.Nodup) fun s _ => severity_mem_all s
  rw [totalIssues_eq]
  exact h.trans List.countP_map

theorem total_byCategory (outcomes : List Outcome) :
    total ((summarise outcomes).byCategory.map (·.2)) = (summarise outcomes).totalIssues := by
  have h := total_tallyOf (fun _ => true) (l := (pathed outcomes).map (·.2.category))
    (by decide : Category.all.Nodup) fun c _ => category_mem_all c
  have hlength : (pathed outcomes).length = (outcomes.flatMap (·.issues)).length := by
    rw [← map_issues, List.length_map]
    rfl
  rw [List.filter_true, List.countP_true, List.length_map, hlength] at h
  rw [totalIssues_eq, List.countP_eq_length_filter, ← flatMap_issues]
  exact h

/-- There are at most as many unresolved errors as findings that are errors. -/
theorem unresolvedErrors_le (outcomes : List Outcome) :
    (summarise outcomes).unresolvedErrors ≤
      ((findingsOf outcomes).map (·.severity)).count .error := by
  calc (summarise outcomes).unresolvedErrors
      ≤ total (outcomes.map fun o => (o.findings.map (·.severity)).count .error) :=
        total_map_le length_unresolvedErrors_le outcomes
    _ = ((findingsOf outcomes).map (·.severity)).count .error := by
        unfold findingsOf
        rw [List.map_flatMap, List.count_flatMap]
        rfl

theorem nodup_ranking (hpaths : (outcomes.map (·.path)).Nodup) : (ranking outcomes).Nodup := by
  refine List.Nodup.of_map FileRank.file ?_
  unfold ranking
  rw [List.map_map]
  exact hpaths.sublist (List.filter_sublist.map _)

/-- The totals for outcomes that are in the order of their paths. -/
theorem agrees_of_sorted (hsorted : outcomes.Pairwise fun a b => a.path < b.path)
    (hrules : ∀ f ∈ findingsOf outcomes, IsReported f) (interrupted : Bool) :
    Agrees outcomes (ofOutcomes outcomes interrupted) := by
  have hsame : outcomes.mergeSort outcomeLe = outcomes :=
    List.mergeSort_of_pairwise (hsorted.imp fun hab => decide_eq_true hab.le)
  have hpaths : (outcomes.map (·.path)).Nodup :=
    List.pairwise_map.2 (hsorted.imp fun hab => hab.ne)
  have hgroups : ∀ g ∈ (summarise outcomes).topIssues, g ∈ issueGroups (pathed outcomes) := by
    intro g hg
    exact (List.mergeSort_perm _ _).mem_iff.1 (List.mem_of_mem_take hg)
  -- groups are told by their rules, and their counts are those by rule
  have hnodup : ((issueGroups (pathed outcomes)).map (·.rule)).Nodup := by
    rw [map_rule_issueGroups]
    exact nodup_eraseDups _
  have htotal : total ((tally ((outcomes.flatMap (·.changes)).map (·.rule))).map (·.2)) =
      (outcomes.flatMap (·.changes)).length := by
    rw [total_tally, List.length_map]
  unfold ofOutcomes
  rw [hsame]
  constructor
  · have hgood : (summarise outcomes).totalGood = (outcomes.flatMap (·.good)).length :=
      total_map_length Outcome.good outcomes
    rw [hgood, totalIssues_eq, List.countP_eq_length_filter, ← flatMap_issues]
    simp only [List.length_flatMap, findingsOf, ← length_issues_good]
    exact List.sum_map_add.symm
  · exact total_bySeverity outcomes
  · exact (total_tally _).trans (List.length_map _)
  · exact total_byCategory outcomes
  · exact total_bySeverity_issues outcomes
  · exact htotal
  · rfl
  · exact ⟨_, lookup_map _ (severity_mem_all .error), unresolvedErrors_le outcomes⟩
  · rfl
  · exact List.length_filter_le _ _
  · exact fun g hg => lookup_byRule hrules (hgroups g hg)
  · exact fun g hg => pairwise_files hsorted (hgroups g hg)
  · exact fun g hg path => mem_files_iff hrules (hgroups g hg)
  · rw [issueRules_eq, ← map_rule_issueGroups]
    refine (topOf_isTop (·.count) (.of_map _ hnodup)).map (List.inj_on_of_nodup_map hnodup) ?_
    intro g hg
    simp only [countOf, lookup_byRule hrules hg, Option.getD_some]
  · exact topOf_isTop (·.issues) (nodup_ranking hpaths)

/-- The totals agree with the same outcomes in another order. -/
theorem Agrees.perm {r : Report} (h : Agrees outcomes r) (hperm : outcomes.Perm others) :
    Agrees others r := by
  have hfindings : (findingsOf outcomes).length = (findingsOf others).length :=
    (hperm.flatMap_right _).length_eq
  have hrules : (issueRules outcomes).Perm (issueRules others) := by
    refine (List.perm_ext_iff_of_nodup (nodup_eraseDups _) (nodup_eraseDups _)).2 fun rule => ?_
    simp only [List.mem_eraseDups]
    exact ((hperm.flatMap_right _).map _).mem_iff
  constructor
  · exact h.findings.trans hfindings
  · exact h.bySeverity.trans hfindings
  · exact h.byRule.trans hfindings
  · exact h.byCategory
  · exact h.issues
  · exact h.changes.trans (hperm.flatMap_right _).length_eq
  · exact h.changesByType
  · exact h.errors
  · exact h.checked.trans hperm.length_eq
  · exact h.fixed
  · exact h.groupCount
  · exact h.groupOrder
  · intro g hg path
    rw [h.groupFiles g hg path]
    simp only [hperm.mem_iff]
  · exact h.topIssues.perm hrules
  · exact h.topFiles.perm ((hperm.filter _).map _)

/-- The totals of every report on outcomes of different files, whose findings are those of rules,
agree with each other and with the outcomes. -/
theorem ofOutcomes_agrees (hpaths : (outcomes.map (·.path)).Nodup)
    (hrules : ∀ o ∈ outcomes, ∀ f ∈ o.findings, IsReported f) (interrupted : Bool) :
    Agrees outcomes (ofOutcomes outcomes interrupted) := by
  have hperm := mergeSort_perm_outcomes outcomes
  have hsorted := agrees_of_sorted (pairwise_lt_path hpaths) (fun f hf => by
    obtain ⟨o, ho, hf⟩ := mem_findingsOf.1 hf
    exact hrules o (hperm.mem_iff.1 ho) f hf) interrupted
  rw [ofOutcomes_perm hperm.symm hpaths]
  exact hsorted.perm hperm

/-- Two files with spread attributes, one of them with a fragment too. -/
def spreading : List Outcome :=
  let spread : Node := { (default : Node) with label := .spreadAttribute }
  let fragment : Node := { (default : Node) with label := .fragment [] }
  let spreads := Rule.propsSpreading.detect default [spread, spread]
  let fragments := Rule.fragmentUsage.detect default [fragment]
  [{ Outcome.unread "b.jsx" "" with state := .unchanged, parseError := none, findings := spreads },
    { Outcome.unread "a.jsx" "" with
      state := .unchanged, parseError := none, findings := spreads ++ fragments }]

/-- The hypotheses hold of two files with five findings of two rules. -/
theorem spreading_agrees : (findingsOf spreading).length = 5 ∧
    Agrees spreading (ofOutcomes spreading false) := by
  refine ⟨by decide, ofOutcomes_agrees (by decide) (fun o ho f hf => ?_) false⟩
  have hspreads : Rule.propsSpreading ∈ Rule.all := by simp [Rule.all]
  have hfragments : Rule.fragmentUsage ∈ Rule.all := by simp [Rule.all]
  simp only [spreading, List.mem_cons, List.not_mem_nil, or_false] at ho
  rcases ho with rfl | rfl
  · exact ⟨_, hspreads, _, _, hf⟩
  · rcases List.mem_append.1 hf with hf | hf
    · exact ⟨_, hspreads, _, _, hf⟩
    · exact ⟨_, hfragments, _, _, hf⟩

end Agrees

end JsxLint.Report
