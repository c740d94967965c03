import GraphQuery.Script.Validity
import GraphQuery.Proofs.Except
import Mathlib.Logic.Unique

namespace GraphQuery

theorem Script.isIdentifier_of_checkName {role : NameRole} {name : String} (h : checkName role name = .ok ()) :
    isIdentifier name = true := by
  unfold checkName at h
  split at h
  · assumption
  · cases h

theorem Term.checkAll_eq_ok {ts : List Term} : checkAll ts = .ok () ↔ ∀ t ∈ ts, t.check = .ok () := by
  induction ts with
  | nil => simp [checkAll]
  | cons t ts ih => simp [checkAll, bind_eq_ok, ih, Unique.exists_iff]

namespace Instruction

theorem checkAll_eq_ok {is : List Instruction} : checkAll is = .ok () ↔ ∀ i ∈ is, i.check = .ok () := by
  induction is with
  | nil => simp [checkAll]
  | cons i is ih => simp [checkAll, bind_eq_ok, ih, Unique.exists_iff]

theorem check_closure {name : String} {parameter : Option String} {body : List Instruction}
    (h : (closure name parameter body).check = .ok ()) : isIdentifier name = true ∧ checkAll body = .ok () := by
  rw [check] at h
  obtain ⟨⟨⟩, hname, h⟩ := bind_eq_ok.1 h
  refine ⟨Script.isIdentifier_of_checkName hname, ?_⟩
  cases parameter with
  | none => exact h
  | some p =>
    obtain ⟨⟨⟩, -, hbody⟩ := bind_eq_ok.1 h
    exact hbody

end Instruction

end GraphQuery
