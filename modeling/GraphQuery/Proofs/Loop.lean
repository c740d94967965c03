import Mathlib.Data.Fintype.Card

/-!
Loops by their bodies: one round gives either the state to go on with or the result. A loop that ends goes on from no
state twice. Many have a stack, which is an array with its top at the end.
-/

namespace GraphQuery

inductive EndsAfter {σ ρ : Type} (round : σ → σ ⊕ ρ) : Nat → σ → ρ → Prop
  | stop {s : σ} {r : ρ} (h : round s = .inr r) : EndsAfter round 0 s r
  | again {k : Nat} {s s' : σ} {r : ρ} (h : round s = .inl s') (hrest : EndsAfter round k s' r) :
      EndsAfter round (k + 1) s r

theorem EndsAfter.unique {σ ρ : Type} {round : σ → σ ⊕ ρ} {k k' : Nat} {s : σ} {r r' : ρ}
    (h : EndsAfter round k s r) (h' : EndsAfter round k' s r') : k = k' ∧ r = r' := by
  induction h generalizing k' with
  | stop h =>
    cases h' with
    | stop h' => exact ⟨rfl, Sum.inr.inj (h.symm.trans h')⟩
    | again h' _ => cases h.symm.trans h'
  | again h _ ih =>
    cases h' with
    | stop h' => cases h.symm.trans h'
    | again h' hrest' =>
      cases h.symm.trans h'
      obtain ⟨rfl, rfl⟩ := ih hrest'
      exact ⟨rfl, rfl⟩

theorem EndsAfter.exists_before {σ ρ : Type} {round : σ → σ ⊕ ρ} {k j : Nat} {s : σ} {r : ρ}
    (h : EndsAfter round k s r) (hj : j < k) : ∃ s', EndsAfter round (j + 1) s' r := by
  induction h with
  | stop => cases hj
  | @again k s s' r h hrest ih =>
    rcases Nat.lt_succ_iff_lt_or_eq.1 hj with hlt | rfl
    · exact ih hlt
    · exact ⟨s, .again h hrest⟩

/-- A loop that ends goes on at most as often as there are states from which it goes on. -/
theorem EndsAfter.le_card {σ ρ : Type} {round : σ → σ ⊕ ρ} {k : Nat} {s : σ} {r : ρ} (h : EndsAfter round k s r)
    (states : Finset σ) (hstates : ∀ s s', round s = .inl s' → s ∈ states) : k ≤ states.card := by
  have hbefore : ∀ j : Fin k, ∃ s', EndsAfter round (j + 1) s' r := fun j => h.exists_before j.isLt
  choose before hends using hbefore
  have hmem : ∀ j, before j ∈ states := by
    intro j
    cases hends j with
    | again hround _ => exact hstates _ _ hround
  -- the rounds that are left tell the states apart
  have hinjective : Function.Injective before := by
    intro i j hij
    have hi := hends i
    rw [hij] at hi
    exact Fin.ext (Nat.succ.inj (hi.unique (hends j)).1)
  calc k = (Finset.univ : Finset (Fin k)).card := (Finset.card_fin k).symm
    _ ≤ states.card := Finset.card_le_card_of_injOn before (fun j _ => hmem j) hinjective.injOn

section Stacks

variable {α : Type} {stack : Array α} {top : α} {rest : List α}

theorem eq_push_of_reverse (h : stack.toList.reverse = top :: rest) : stack = rest.reverse.toArray.push top := by
  apply Array.toList_inj.1
  rw [← List.reverse_reverse stack.toList, h]
  simp

theorem back?_of_reverse (h : stack.toList.reverse = top :: rest) : stack.back? = some top := by
  rw [eq_push_of_reverse h, Array.back?_push]

theorem reverse_pop (h : stack.toList.reverse = top :: rest) : stack.pop.toList.reverse = rest := by
  rw [eq_push_of_reverse h, Array.pop_push, List.reverse_reverse]

theorem reverse_pushes (xs : List α) (stack : Array α) :
    (xs.reverse.foldl Array.push stack).toList.reverse = xs ++ stack.toList.reverse := by
  simp

end Stacks

end GraphQuery
