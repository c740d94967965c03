import GraphQuery.Arena.Check
import GraphQuery.Proofs.Loop
import Mathlib.Logic.Relation

namespace GraphQuery.Arena

open Relation

variable {a : Arena} {x p top : InstructionId} {k : Nat} {found : Bool}

def OwnedBy (a : Arena) (x p : InstructionId) : Prop :=
  a.owner? (.instruction x) = some (some (.container (.closure p)))

theorem enclosing?_eq_some : a.enclosing? x = some p ↔ a.OwnedBy x p := by
  simp only [enclosing?, OwnedBy, owner?]
  cases a.instruction? x with
  | none => simp
  | some slot => rcases slot with ⟨node, _ | (_ | t) | t | t⟩ <;> simp

theorem OwnedBy.unique {q : InstructionId} (hp : a.OwnedBy x p) (hq : a.OwnedBy x q) : p = q := by
  rw [← enclosing?_eq_some] at hp hq
  exact Option.some.inj (hp.symm.trans hq)

theorem OwnedBy.lt_size (h : a.OwnedBy x p) : x.index < a.instructions.size := by
  obtain ⟨slot, hslot, -⟩ := Option.map_eq_some_iff.1 h
  exact (Array.getElem?_eq_some_iff.1 hslot).1

def climb (a : Arena) (top x : InstructionId) : InstructionId ⊕ Bool :=
  if x = top then .inr true
  else
    match a.enclosing? x with
    | some p => .inl p
    | none => .inr false

theorem climb_eq_inl : a.climb top x = .inl p ↔ x ≠ top ∧ a.OwnedBy x p := by
  rw [climb, ← enclosing?_eq_some]
  split
  · simp_all
  · cases a.enclosing? x <;> simp_all

theorem climb_eq_inr :
    a.climb top x = .inr found ↔ found = decide (x = top) ∧ (x = top ∨ ∀ p, ¬ a.OwnedBy x p) := by
  simp only [climb, ← enclosing?_eq_some]
  split
  · simp_all [eq_comm]
  · cases a.enclosing? x <;> simp_all [eq_comm]

theorem exists_endsAfter (h : Acc (fun p x => a.OwnedBy x p) x) (top : InstructionId) :
    ∃ k found, EndsAfter (a.climb top) k x found := by
  induction h with
  | intro x _ ih =>
    cases hround : a.climb top x with
    | inl p =>
      obtain ⟨k, found, hrest⟩ := ih p (climb_eq_inl.1 hround).2
      exact ⟨k + 1, found, .again hround hrest⟩
    | inr found => exact ⟨0, found, .stop hround⟩

theorem endsAfter_le_size (h : EndsAfter (a.climb top) k x found) : k ≤ a.instructions.size := by
  let known := (Finset.range a.instructions.size).image InstructionId.mk
  have hknown : ∀ y p, a.climb top y = .inl p → y ∈ known := by
    intro y p hround
    exact Finset.mem_image.2 ⟨y.index, Finset.mem_range.2 (climb_eq_inl.1 hround).2.lt_size, rfl⟩
  calc k ≤ known.card := h.le_card known hknown
    _ ≤ (Finset.range a.instructions.size).card := Finset.card_image_le
    _ = a.instructions.size := Finset.card_range _

theorem isWithinSteps_succ (a : Arena) (top : InstructionId) (steps : Nat) (x : InstructionId) :
    a.isWithinSteps top (steps + 1) x = (a.climb top x).elim (a.isWithinSteps top steps) id := by
  rw [isWithinSteps, climb]
  split
  · rfl
  · cases a.enclosing? x <;> rfl

theorem isWithinSteps_of_endsAfter {steps : Nat} (h : EndsAfter (a.climb top) k x found) (hsteps : k < steps) :
    a.isWithinSteps top steps x = found := by
  induction h generalizing steps with
  | stop h =>
    cases steps with
    | zero => cases hsteps
    | succ steps => rw [isWithinSteps_succ, h, Sum.elim_inr, id]
  | again h _ ih =>
    cases steps with
    | zero => cases hsteps
    | succ steps => rw [isWithinSteps_succ, h, Sum.elim_inl, ih (Nat.lt_of_succ_lt_succ hsteps)]

theorem isWithin_of_endsAfter (h : EndsAfter (a.climb top) k x found) : a.isWithin x top = found :=
  isWithinSteps_of_endsAfter h (Nat.lt_succ_of_le (endsAfter_le_size h))

theorem found_iff (h : EndsAfter (a.climb top) k x found) : found = true ↔ ReflTransGen a.OwnedBy x top := by
  induction h with
  | stop h =>
    obtain ⟨rfl, hlast⟩ := climb_eq_inr.1 h
    rw [decide_eq_true_iff]
    constructor
    · rintro rfl
      exact .refl
    · intro hpath
      rcases hlast with heq | hnone
      · exact heq
      · rcases hpath.cases_head with heq | ⟨p, hp, -⟩
        · exact heq
        · exact absurd hp (hnone p)
  | again h _ ih =>
    obtain ⟨hne, hp⟩ := climb_eq_inl.1 h
    rw [ih]
    constructor
    · exact .head hp
    · intro hpath
      rcases hpath.cases_head with heq | ⟨q, hq, hrest⟩
      · exact absurd heq hne
      · rwa [hp.unique hq]

theorem isWithin_iff_ownedBy (h : Acc (fun p x => a.OwnedBy x p) x) :
    a.isWithin x top = true ↔ ReflTransGen a.OwnedBy x top := by
  obtain ⟨k, found, hends⟩ := exists_endsAfter h top
  rw [isWithin_of_endsAfter hends, found_iff hends]

end GraphQuery.Arena
