import GraphQuery.Proofs.Compile.Values

namespace GraphQuery.Compile

open Machine Meaning

def AtRoot (_ : Unit) (s : Scope) : Prop :=
  s = [] ∨ ∃ v, s = [(implicitName, v)]

def AtItem (declared : Option String) (item : Value) (s : Scope) : Prop :=
  s = [(boundName declared, item)]

theorem valueOf_of_ne {w : World} {bound name : String} {v : Value} (h : name ≠ bound) :
    w.valueOf [(bound, v)] name = w.valueOf [] name := by
  simp [World.valueOf, Ne.symm h]

theorem valueOf_bound (w : World) (name : String) (v : Value) : w.valueOf [(name, v)] name = .ok v := by
  simp [World.valueOf]

theorem isReserved_iff (scope : Option IteratorScope) (name : String) :
    isReserved scope name = true ↔ name = implicitName ∧ scope.bind (·.declared) ≠ some implicitName := by
  simp [isReserved]

theorem resolves_root (m : Metamodel) : Resolves m none rootName AtRoot := by
  intro node name
  unfold translateName rootName
  by_cases hname : name = implicitName
  · rw [if_pos ((isReserved_iff none name).2 ⟨hname, by simp⟩), if_pos hname]
    rfl
  · rw [if_neg (fun h => hname ((isReserved_iff none name).1 h).1), if_neg hname]
    simp only [isImplicitFeature]
    refine .some fun w x s hs => ?_
    rw [evaluate]
    obtain rfl | ⟨v, rfl⟩ := hs
    · rfl
    · exact valueOf_of_ne hname

theorem resolves_declared (m : Metamodel) (given : String) (className : Option String) :
    Resolves m (some ⟨some given, className⟩) (itemName m (some given) className) (AtItem (some given)) := by
  intro node name
  have hreserved := isReserved_iff (some ⟨some given, className⟩) name
  simp only [translateName, itemName, isImplicitFeature]
  by_cases hgiven : name = given
  · subst hgiven
    rw [if_neg (by simp [hreserved]), if_pos rfl]
    refine .some fun w v s hs => ?_
    rw [evaluate, hs]
    exact valueOf_bound w name v
  · rw [if_neg hgiven]
    by_cases hname : name = implicitName
    · rw [if_pos (hreserved.2 ⟨hname, by simpa [← hname] using Ne.symm hgiven⟩), if_pos hname]
      rfl
    · rw [if_neg (by simp [hreserved, hname]), if_neg hname]
      refine .some fun w v s hs => ?_
      rw [evaluate, hs]
      exact valueOf_of_ne hgiven

theorem resolves_implicit (m : Metamodel) (className : Option String) :
    Resolves m (some ⟨none, className⟩) (itemName m none className) (AtItem none) := by
  intro node name
  have hreserved := isReserved_iff (some ⟨none, className⟩) name
  have himplicit : isImplicitFeature m (some ⟨none, className⟩) name = true ↔
      name ≠ "self" ∧ (m.isEmpty ∨ Declares m className name) := by
    simp [isImplicitFeature, declares_iff]
  simp only [translateName, itemName]
  by_cases hname : name = implicitName
  · rw [if_pos (hreserved.2 ⟨hname, by simp⟩), if_pos hname]
    rfl
  · rw [if_neg (by simp [hreserved, hname]), if_neg hname]
    by_cases hfeature : name ≠ "self" ∧ (m.isEmpty ∨ Declares m className name)
    · rw [if_pos (himplicit.2 hfeature), if_pos hfeature]
      refine .some fun w v s hs => ?_
      rw [evaluate, evaluate, hs, boundName, Option.getD_none, valueOf_bound, navigation_eq]
      rfl
    · rw [if_neg (fun h => hfeature (himplicit.1 h)), if_neg hfeature]
      refine .some fun w v s hs => ?_
      rw [evaluate, hs]
      exact valueOf_of_ne hname

theorem resolves_item (m : Metamodel) (declared className : Option String) :
    Resolves m (some ⟨declared, className⟩) (itemName m declared className) (AtItem declared) := by
  cases declared with
  | none => exact resolves_implicit m className
  | some given => exact resolves_declared m given className

end GraphQuery.Compile
