import GraphQuery.Arena.Finish

namespace GraphQuery.Arena

def termNode? (a : Arena) (id : TermId) : Option TermNode :=
  (a.term? id).map (·.node)

def instructionNode? (a : Arena) (id : InstructionId) : Option InstructionNode :=
  (a.instruction? id).map (·.node)

mutual
def TermAt (a : Arena) (id : TermId) : Term → Prop
  | .literal value => a.termNode? id = some (.literal value)
  | .var name => a.termNode? id = some (.var name)
  | .property target name => ∃ t, a.termNode? id = some (.property t name) ∧ TermAt a t target
  | .list items => ∃ ts, a.termNode? id = some (.list ts) ∧ TermsAt a ts items
  | .unary op operand => ∃ t, a.termNode? id = some (.unary op t) ∧ TermAt a t operand
  | .binary op left right =>
    ∃ l r, a.termNode? id = some (.binary op l r) ∧ TermAt a l left ∧ TermAt a r right

def TermsAt (a : Arena) : List TermId → List Term → Prop
  | [], [] => True
  | id :: ids, t :: ts => TermAt a id t ∧ TermsAt a ids ts
  | _, _ => False
end

mutual
def InstructionAt (a : Arena) (id : InstructionId) : Instruction → Prop
  | .step name arguments => ∃ ts, a.instructionNode? id = some (.step name ts) ∧ TermsAt a ts arguments
  | .closure name parameter body =>
    ∃ is isSealed, a.instructionNode? id = some (.closure name parameter is isSealed) ∧
      InstructionsAt a is body
  | .statement term => ∃ t, a.instructionNode? id = some (.statement t) ∧ TermAt a t term

def InstructionsAt (a : Arena) : List InstructionId → List Instruction → Prop
  | [], [] => True
  | id :: ids, i :: is => InstructionAt a id i ∧ InstructionsAt a ids is
  | _, _ => False
end

def Unfolds (a : Arena) (s : Script) : Prop :=
  InstructionsAt a a.root s.instructions

mutual
theorem TermAt.unique {a : Arena} {id : TermId} : {t t' : Term} → TermAt a id t → TermAt a id t' → t = t'
  | .literal _, t', h, h' => by
    cases t' <;> simp_all [TermAt]
  | .var _, t', h, h' => by
    cases t' <;> simp_all [TermAt]
  | .property _ _, t', ⟨u, hu, h⟩, h' => by
    cases t' with
    | property =>
      obtain ⟨v, hv, h'⟩ := h'
      cases hu.symm.trans hv
      rw [TermAt.unique h h']
    | _ => simp_all [TermAt]
  | .list _, t', ⟨us, hus, h⟩, h' => by
    cases t' with
    | list =>
      obtain ⟨vs, hvs, h'⟩ := h'
      cases hus.symm.trans hvs
      rw [TermsAt.unique h h']
    | _ => simp_all [TermAt]
  | .unary _ _, t', ⟨u, hu, h⟩, h' => by
    cases t' with
    | unary =>
      obtain ⟨v, hv, h'⟩ := h'
      cases hu.symm.trans hv
      rw [TermAt.unique h h']
    | _ => simp_all [TermAt]
  | .binary _ _ _, t', ⟨l, r, hu, hl, hr⟩, h' => by
    cases t' with
    | binary =>
      obtain ⟨l', r', hv, hl', hr'⟩ := h'
      cases hu.symm.trans hv
      rw [TermAt.unique hl hl', TermAt.unique hr hr']
    | _ => simp_all [TermAt]

theorem TermsAt.unique {a : Arena} : {ids : List TermId} → {ts ts' : List Term} →
    TermsAt a ids ts → TermsAt a ids ts' → ts = ts'
  | [], [], [], _, _ => rfl
  | _ :: _, _ :: _, _ :: _, h, h' => by
    rw [TermAt.unique h.1 h'.1, TermsAt.unique h.2 h'.2]
end

mutual
theorem InstructionAt.unique {a : Arena} {id : InstructionId} : {i i' : Instruction} →
    InstructionAt a id i → InstructionAt a id i' → i = i'
  | .step _ _, i', ⟨ts, hts, h⟩, h' => by
    cases i' with
    | step =>
      obtain ⟨us, hus, h'⟩ := h'
      cases hts.symm.trans hus
      rw [TermsAt.unique h h']
    | _ => simp_all [InstructionAt]
  | .closure _ _ _, i', ⟨is, b, his, h⟩, h' => by
    cases i' with
    | closure =>
      obtain ⟨js, b', hjs, h'⟩ := h'
      cases his.symm.trans hjs
      rw [InstructionsAt.unique h h']
    | _ => simp_all [InstructionAt]
  | .statement _, i', ⟨t, ht, h⟩, h' => by
    cases i' with
    | statement =>
      obtain ⟨u, hu, h'⟩ := h'
      cases ht.symm.trans hu
      rw [TermAt.unique h h']
    | _ => simp_all [InstructionAt]

theorem InstructionsAt.unique {a : Arena} : {ids : List InstructionId} → {is is' : List Instruction} →
    InstructionsAt a ids is → InstructionsAt a ids is' → is = is'
  | [], [], [], _, _ => rfl
  | _ :: _, _ :: _, _ :: _, h, h' => by
    rw [InstructionAt.unique h.1 h'.1, InstructionsAt.unique h.2 h'.2]
end

end GraphQuery.Arena
