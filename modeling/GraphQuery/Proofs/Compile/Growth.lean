import GraphQuery.Proofs.Arena.Building
import GraphQuery.Proofs.Compile.Translation

namespace GraphQuery.Compile

open Arena

/-- The build fails as the translation does, or succeeds with a related result. -/
def Simulates {α β : Type} (x : Except Error α) (p : Build β) (a : Arena) (R : α → β → Arena → Prop) : Prop :=
  match x with
  | .error e => p a = .error e
  | .ok r => ∃ b a', p a = .ok (b, a') ∧ R r b a'

namespace Simulates

variable {α β α' β' : Type} {x : Except Error α} {p : Build β} {a a' : Arena} {R : α → β → Arena → Prop}
  {R' : α' → β' → Arena → Prop}

theorem ok {r : α} {b : β} (h : R r b a) : Simulates (.ok r) (pure b) a R :=
  ⟨b, a, rfl, h⟩

theorem bind {f : α → Except Error α'} {g : β → Build β'} (h : Simulates x p a R)
    (hf : ∀ r b a', R r b a' → Simulates (f r) (g b) a' R') : Simulates (x >>= f) (p >>= g) a R' := by
  cases x with
  | error e => exact stateT_bind_of_error h
  | ok r =>
    obtain ⟨b, a', hp, hr⟩ := h
    have hf := hf r b a' hr
    rw [ok_bind]
    unfold Simulates at hf ⊢
    rw [stateT_bind_of_ok hp]
    exact hf

theorem before {x : Except Error α'} {b : β} {g : β → Build β'} (hp : p a = .ok (b, a'))
    (h : Simulates x (g b) a' R') : Simulates x (p >>= g) a R' := by
  unfold Simulates at h ⊢
  rw [stateT_bind_of_ok hp]
  exact h

end Simulates

structure Grows (a : Arena) (loose : List Node) (instructions : List Instruction) (a' : Arena) : Prop where
  extension : Extends a a'
  root : ∃ ids, a'.root = a.root ++ ids ∧ InstructionsAt a' ids instructions
  ready : Ready a' loose

theorem Grows.refl {a : Arena} {loose : List Node} (h : Ready a loose) : Grows a loose [] a :=
  ⟨Extends.refl a, ⟨[], by simp, trivial⟩, h⟩

theorem Grows.trans {a b c : Arena} {loose loose' : List Node} {is js : List Instruction}
    (h : Grows a loose is b) (h' : Grows b loose' js c) : Grows a loose' (is ++ js) c := by
  obtain ⟨ids, hids, his⟩ := h.root
  obtain ⟨ids', hids', hjs⟩ := h'.root
  refine ⟨h.extension.trans h'.extension, ⟨ids ++ ids', ?_, (his.mono h'.extension).append hjs⟩, h'.ready⟩
  rw [hids', hids, List.append_assoc]

theorem Grows.keep {a b c : Arena} {loose loose' : List Node} {is : List Instruction}
    (h : Grows a loose is b) (h' : Grows b loose' [] c) : Grows a loose' is c := by
  simpa using h.trans h'

theorem Grows.root_eq {a b : Arena} {loose : List Node} (h : Grows a loose [] b) : b.root = a.root := by
  obtain ⟨ids, hids, hnil⟩ := h.root
  cases ids with
  | nil => rw [hids, List.append_nil]
  | cons id ids => cases hnil

theorem Grows.perm {a b : Arena} {loose loose' : List Node} {is : List Instruction} (h : Grows a loose is b)
    (hp : loose.Perm loose') : Grows a loose' is b :=
  ⟨h.extension, h.root, h.ready.perm hp⟩

section Steps

variable {a b : Arena} {loose : List Node}

theorem term_grows (node : TermNode) (h : Ready a (node.operands.map .term ++ loose)) :
    ∃ id b, term node a = .ok (id, b) ∧ Grows a (.term id :: loose) [] b ∧ b.termNode? id = some node := by
  obtain ⟨id, b, hadd, hext, hroot, hnode, hready⟩ := addTerm_of_ready h
  refine ⟨id, b, ?_, ⟨hext, ⟨[], by simp [hroot], trivial⟩, hready⟩, hnode⟩
  simp only [term, hadd]

theorem appendStep_grows (name : String) (ids : List TermId) (ts : List Term)
    (h : Ready a (ids.map .term ++ loose)) (hts : TermsAt a ids ts) :
    ∃ b, appendStep name ids a = .ok ((), b) ∧ Grows a loose [.step name ts] b := by
  obtain ⟨i, b, hadd, hext, hroot, -, hnode, hready⟩ := addInstruction_of_ready (.step name ids) rfl h
  obtain ⟨c, happend, hext', hroot', hready'⟩ := append_script_of_ready hready
  have hstep : step name ids a = .ok (i, b) := by
    rw [step, addStep_eq]
    exact hadd ▸ rfl
  refine ⟨c, ?_, hext.trans hext', ⟨[i], by rw [hroot', hroot], ?_⟩, hready'⟩
  · rw [appendStep, stateT_bind_of_ok hstep]
    simp only [append, happend]
  · exact ⟨⟨ids, hext'.instructions hnode, (hts.mono hext.terms).mono hext'.terms⟩, trivial⟩

theorem appendStatement_grows {id : TermId} {t : Term} (h : Ready a (.term id :: loose)) (ht : TermAt a id t) :
    ∃ b, (do append .script (← statement id) : Build Unit) a = .ok ((), b) ∧
      Grows a loose [.statement t] b := by
  obtain ⟨i, b, hadd, hext, hroot, -, hnode, hready⟩ := addInstruction_of_ready (.statement id) rfl h
  obtain ⟨c, happend, hext', hroot', hready'⟩ := append_script_of_ready hready
  have hstatement : statement id a = .ok (i, b) := by
    rw [statement, addStatement_eq]
    exact hadd ▸ rfl
  refine ⟨c, ?_, hext.trans hext', ⟨[i], by rw [hroot', hroot], ?_⟩, hready'⟩
  · rw [stateT_bind_of_ok hstatement]
    simp only [append, happend]
  · exact ⟨⟨id, hext'.instructions hnode, (ht.mono hext.terms).mono hext'.terms⟩, trivial⟩

theorem appendClosure_grows {i : InstructionId} {name : String} {parameter : Option String} {id : TermId}
    {t : Term} (h : Grows a (.term id :: .instruction i :: loose) [] b) (hfresh : a.instructionNode? i = none)
    (hi : b.instructionNode? i = some (.closure name parameter [] false)) (ht : TermAt b id t) :
    ∃ c, appendClosure i id b = .ok ((), c) ∧ Grows a loose [.closure name parameter [.statement t]] c := by
  obtain ⟨j, b₁, hadd, hext₁, hroot₁, hj, hnode, hready₁⟩ :=
    addInstruction_of_ready (.statement id) rfl h.ready
  have hstatement : statement id b = .ok (j, b₁) := by
    rw [statement, addStatement_eq]
    exact hadd ▸ rfl
  obtain ⟨b₂, hfill, hkeeps₂, hroot₂, hnodes₂, hready₂⟩ :=
    append_closure_of_ready hready₁ (hext₁.instructions hi)
  obtain ⟨c, happend, hext₃, hroot₃, hready₃⟩ := append_script_of_ready hready₂
  have hne : j ≠ i := by
    rintro rfl
    simp [hj] at hi
  refine ⟨c, ?_, ⟨?_, ?_⟩, ⟨[i], ?_, ?_, trivial⟩, hready₃⟩
  · rw [appendClosure, stateT_bind_of_ok hstatement]
    refine (stateT_bind_of_ok (?_ : append (.closure i) j b₁ = .ok ((), b₂))).trans ?_
    · simp only [append, hfill]
    · simp only [append, happend]
  · exact fun _ _ hn => hext₃.terms (hkeeps₂ (hext₁.terms (h.extension.terms hn)))
  · intro x node hx
    have hxi : x ≠ i := by
      rintro rfl
      simp [hfresh] at hx
    apply hext₃.instructions
    rw [hnodes₂, if_neg hxi]
    exact hext₁.instructions (h.extension.instructions hx)
  · rw [hroot₃, hroot₂, hroot₁, h.root_eq]
  · refine ⟨[j], false, hext₃.instructions ?_, ⟨id, hext₃.instructions ?_, ?_⟩, trivial⟩
    · rw [hnodes₂, if_pos rfl]
      rfl
    · rw [hnodes₂, if_neg hne]
      exact hnode
    · exact ((ht.mono hext₁.terms).mono hkeeps₂).mono hext₃.terms

theorem closure_grows (name : String) (parameter : Option String) (h : Ready a loose) :
    ∃ i b, closure name parameter a = .ok (i, b) ∧ Grows a (.instruction i :: loose) [] b ∧
      a.instructionNode? i = none ∧ b.instructionNode? i = some (.closure name parameter [] false) := by
  obtain ⟨i, b, hadd, hext, hroot, hfresh, hnode, hready⟩ :=
    addInstruction_of_ready (.closure name parameter [] false) rfl h
  have hmade : a.addClosure name parameter = (i, b) := Except.ok.inj hadd
  exact ⟨i, b, congrArg Except.ok hmade, ⟨hext, ⟨[], by simp [hroot], trivial⟩, hready⟩, hfresh, hnode⟩

theorem transform_grows {id : TermId} {t : Term} (h : Ready a (.term id :: loose)) (ht : TermAt a id t) :
    ∃ b, transform id a = .ok (.traversal none, b) ∧
      Grows a loose [.closure "transform" none [.statement t]] b := by
  obtain ⟨i, b, hclosure, hgrows, hfresh, hnode⟩ := closure_grows "transform" none h
  obtain ⟨c, hfill, hgrows'⟩ := appendClosure_grows (hgrows.perm (List.Perm.swap ..)) hfresh hnode
    (ht.mono hgrows.extension.terms)
  refine ⟨c, ?_, hgrows'⟩
  rw [transform, stateT_bind_of_ok hclosure, stateT_bind_of_ok hfill]
  rfl

def Makes (a : Arena) (loose : List Node) (t : Term) (id : TermId) (b : Arena) : Prop :=
  Grows a (.term id :: loose) [] b ∧ TermAt b id t

theorem literal_makes (value : Literal) (h : Ready a loose) :
    ∃ id b, term (.literal value) a = .ok (id, b) ∧ Makes a loose (.literal value) id b := by
  obtain ⟨id, b, hterm, hgrows, hnode⟩ := term_grows (.literal value) h
  exact ⟨id, b, hterm, hgrows, hnode⟩

theorem var_makes (name : String) (h : Ready a loose) :
    ∃ id b, term (.var name) a = .ok (id, b) ∧ Makes a loose (.var name) id b := by
  obtain ⟨id, b, hterm, hgrows, hnode⟩ := term_grows (.var name) h
  exact ⟨id, b, hterm, hgrows, hnode⟩

theorem combine_makes (op : Expr.BinaryOp) {l r : TermId} {left right : Term}
    (h : Ready a (.term l :: .term r :: loose)) (hl : TermAt a l left) (hr : TermAt a r right) :
    ∃ id b, combine op l r a = .ok (id, b) ∧ Makes a loose (combineTerms op left right) id b := by
  unfold combine combineTerms
  cases binaryOp op with
  | some op =>
    obtain ⟨id, b, hterm, hgrows, hnode⟩ := term_grows (.binary op l r) h
    have hk := hgrows.extension.terms
    exact ⟨id, b, hterm, hgrows, l, r, hnode, hl.mono hk, hr.mono hk⟩
  | none =>
    obtain ⟨n, b, hterm, hgrows, hnode⟩ := term_grows (.unary .not l) h
    obtain ⟨id, c, hterm', hgrows', hnode'⟩ := term_grows (.binary .or n r) hgrows.ready
    have hk' := hgrows'.extension.terms
    have hk := (hgrows.extension.trans hgrows'.extension).terms
    refine ⟨id, c, (stateT_bind_of_ok hterm).trans hterm', hgrows.trans hgrows', n, r, hnode', ?_, hr.mono hk⟩
    exact ⟨l, hk' hnode, hl.mono hk⟩

end Steps

end GraphQuery.Compile
