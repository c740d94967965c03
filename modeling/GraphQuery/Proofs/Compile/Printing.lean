import GraphQuery.Proofs.Compile.Preservation
import GraphQuery.Proofs.Compile.Rules
import GraphQuery.Proofs.Expr.Redisplay
import GraphQuery.Proofs.Script.Reading

namespace GraphQuery

theorem Instruction.plainAll_append {is js : List Instruction} :
    PlainAll (is ++ js) ↔ PlainAll is ∧ PlainAll js := by
  induction is with
  | nil => simp [PlainAll]
  | cons i is ih => simp [PlainAll, ih, and_assoc]

namespace Compile

variable {m : Metamodel}

def Translated.Plain : Translated → Prop
  | traversal _ instructions => Instruction.PlainAll instructions
  | value term => term.Plain

theorem plain_literal {value : Literal} (h : (Expr.literalToken value).Legible) : (Term.literal value).Plain := by
  cases value with
  | integer n =>
    apply decide_eq_false
    rw [Int64.not_lt, Int64.le_iff_toInt_le]
    exact h
  | real x =>
    apply decide_eq_false
    change x.toBits.toNat ≤ 2047 * 2 ^ 52 at h
    change ¬2 ^ 63 ≤ x.toBits.toNat
    omega
  | _ => rfl

theorem plain_var {name : String} (h : (Token.identifier name).Legible) : (Term.var name).Plain := by
  obtain ⟨-, hword⟩ := h
  intro hmem
  simp only [Term.constantNames, List.mem_cons, List.not_mem_nil, or_false] at hmem
  rcases hmem with rfl | rfl | rfl <;> cases hword

theorem plain_implicitName : (Term.var implicitName).Plain :=
  show implicitName ∉ Term.constantNames by decide

theorem plain_inputName : (Term.var inputName).Plain :=
  show inputName ∉ Term.constantNames by decide

theorem plain_name {scope : Option IteratorScope} {node : Expr} {name : String} {t : Term}
    (h : translateName m scope node name = .ok (.value t)) (hname : (Token.identifier name).Legible) : t.Plain := by
  unfold translateName at h
  split at h
  · cases h
  · split at h <;> cases h
    · exact plain_implicitName
    · exact plain_var hname

theorem plain_combineTerms {op : Expr.BinaryOp} {left right : Term} (hl : left.Plain) (hr : right.Plain) :
    (combineTerms op left right).Plain := by
  cases op <;> exact ⟨hl, hr⟩

theorem plain_transformed {is : List Instruction} {t : Term} (his : Instruction.PlainAll is) (ht : t.Plain) :
    (transformed is t).Plain :=
  Instruction.plainAll_append.2 ⟨his, ⟨ht, trivial⟩, trivial⟩

theorem plain_iterated {className : Option String} {is : List Instruction} {kind : Expr.IteratorKind}
    {declared : Option String} {t : Term} (his : Instruction.PlainAll is) (ht : t.Plain) :
    (iterated className is kind declared t).Plain := by
  apply Instruction.plainAll_append.2
  cases kind <;> exact ⟨his, ⟨ht, trivial⟩, by trivial⟩

theorem legible_operand {span : Span} {op : Expr.UnaryOp} {operand : Expr}
    (h : ∀ t ∈ (Expr.unary span op operand).parts, t.Legible) : ∀ t ∈ operand.parts, t.Legible := by
  cases op with
  | not => exact h
  | minus =>
    rw [Expr.parts, List.forall_mem_cons] at h
    exact h.2

mutual
theorem Becomes.plain {scope : Option IteratorScope} {e : Expr} {out : Translated} :
    Becomes m scope e out → (∀ t ∈ e.parts, t.Legible) → out.Plain
  | .literal, h => plain_literal (h _ List.mem_cons_self)
  | .var hname, h => plain_name hname (h _ List.mem_cons_self)
  | .collection hs, h => by
    rw [Expr.parts, List.forall_mem_cons] at h
    exact hs.plain h.2
  | .property hs, h => by
    rw [Expr.parts, List.forall_mem_append] at h
    exact hs.plain h.1
  | @Becomes.operation _ _ _ _ _ _ _ single _ _ _ hs ha, h => by
    simp only [Expr.parts, Expr.partsAll, List.forall_mem_append, List.forall_mem_cons] at h
    refine ⟨hs.plain h.1, ?_⟩
    cases single with
    | false => exact ha.plain h.2.2.1
    | true => exact ⟨ha.plain h.2.2.1, trivial⟩
  | .binary hl hr, h => by
    simp only [Expr.parts, List.forall_mem_append] at h
    exact plain_combineTerms (hl.plain h.1) (hr.plain h.2.2)
  | .unary hs, h => hs.plain (legible_operand h)
  | .extent _, _ => ⟨⟨plain_inputName, trivial⟩, ⟨rfl, trivial⟩, trivial⟩
  | .feature hs, h => by
    rw [Expr.parts, List.forall_mem_append] at h
    apply Instruction.plainAll_append.2
    refine ⟨hs.plain h.1, ?_, trivial⟩
    unfold featureStep
    split <;> exact ⟨rfl, trivial⟩
  | .call _ hs, h => by
    rw [Expr.parts, List.forall_mem_append] at h
    apply Instruction.plainAll_append.2
    refine ⟨hs.plain h.1, ?_, trivial⟩
    change Term.PlainAll (callArguments _)
    unfold callArguments
    split
    · exact ⟨rfl, trivial⟩
    · trivial
  | .iterator hs hb, h => by
    simp only [Expr.parts, List.forall_mem_append, List.forall_mem_cons] at h
    exact plain_iterated (hs.plain h.1) (hb.plain h.2.2.2)
  | .binaryEach hl hr, h => by
    simp only [Expr.parts, List.forall_mem_append] at h
    exact plain_transformed (hl.plain h.1) (plain_combineTerms plain_implicitName (hr.plain h.2.2))
  | .unaryEach hs, h => plain_transformed (hs.plain (legible_operand h)) plain_implicitName

theorem BecomeAll.plain {scope : Option IteratorScope} {es : List Expr} {ts : List Term} :
    BecomeAll m scope es ts → (∀ t ∈ Expr.partsAll es, t.Legible) → Term.PlainAll ts
  | .nil, _ => trivial
  | .cons he hes, h => by
    rw [Expr.partsAll, List.forall_mem_append] at h
    exact ⟨he.plain h.1, hes.plain h.2⟩
end

end Compile

namespace Expr

open Compile

theorem plain_of_compile {m : Metamodel} {checked : Bool} {e : Expr} {s : Script}
    (h : e.compile m checked = .ok s) (he : ∀ t ∈ e.parts, t.Legible) : s.Plain := by
  obtain ⟨t, ht, rfl, -⟩ := compile_eq_ok.1 h
  have hplain := (translate_becomes e ht).plain he
  cases t with
  | traversal className is => exact hplain
  | value t => exact ⟨hplain, trivial⟩

/-- Scripts of texts that were read print alike if and only if they are alike but for the parameters of closures. -/
theorem print_compile_eq_iff {text text' : String} {e e' : Expr} {m m' : Metamodel} {s s' : Script}
    (hparse : parse text = .ok e) (hcompile : e.compile m true = .ok s)
    (hparse' : parse text' = .ok e') (hcompile' : e'.compile m' true = .ok s') :
    s.print {} = s'.print {} ↔ s.withoutParameters = s'.withoutParameters := by
  have hvalid : ∀ {m : Metamodel} {e : Expr} {s : Script}, e.compile m true = .ok s → s.validate = .ok () := by
    intro m e s h
    obtain ⟨t, -, rfl, hvalid⟩ := compile_eq_ok.1 h
    exact hvalid rfl
  exact Script.print_eq_iff (hvalid hcompile) (plain_of_compile hcompile (legible_of_parse hparse))
    (hvalid hcompile') (plain_of_compile hcompile' (legible_of_parse hparse'))

def differences (name : String) : Expr :=
  .iterator ⟨0, 35⟩ (.extent ⟨0, 16⟩ none "C") .reject (some name) (.binary ⟨27, 34⟩ .subtract (.var ⟨27, 28⟩ "a")
    (.binary ⟨29, 34⟩ .subtract (.var ⟨30, 31⟩ "b") (.var ⟨32, 33⟩ "c")))

theorem print_compile_eq_iff_differences : parse "C.allInstances()->reject(x|a-(b-c))" = .ok (differences "x") ∧
    parse "C.allInstances()->reject(y|a-(b-c))" = .ok (differences "y") ∧
    ∃ s s', (differences "x").compile {} true = .ok s ∧
      (differences "y").compile (Metamodel.withClass {} ⟨"C", []⟩) true = .ok s' ∧
      s.print {} = s'.print {} ∧ s.withoutParameters = s'.withoutParameters := by
  have hparse : parse "C.allInstances()->reject(x|a-(b-c))" = .ok (differences "x") := by cbv
  have hparse' : parse "C.allInstances()->reject(y|a-(b-c))" = .ok (differences "y") := by cbv
  have hcompile : (differences "x").compile {} true = .ok _ := compile_eq_ok.2 ⟨_, rfl, rfl, fun _ => rfl⟩
  have hcompile' : (differences "y").compile (Metamodel.withClass {} ⟨"C", []⟩) true = .ok _ :=
    compile_eq_ok.2 ⟨_, rfl, rfl, fun _ => rfl⟩
  exact ⟨hparse, hparse', _, _, hcompile, hcompile',
    (print_compile_eq_iff hparse hcompile hparse' hcompile').2 rfl, rfl⟩

end Expr

end GraphQuery
