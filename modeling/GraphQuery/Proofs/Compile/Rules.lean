import GraphQuery.Proofs.Compile.Translation
import GraphQuery.Proofs.Except

/-!
The rules of translation: how values become terms and sources become steps. Whatever is translated is translated by
them.
-/

namespace GraphQuery.Compile

mutual
/-- Inside the given iterator the expression becomes a term or steps. -/
inductive Becomes (m : Metamodel) : Option IteratorScope → Expr → Translated → Prop
  | literal {scope : Option IteratorScope} {span : Span} {value : Literal} :
      Becomes m scope (.literal span value) (.value (.literal value))
  | var {scope : Option IteratorScope} {span : Span} {name : String} {t : Term}
      (h : translateName m scope (.var span name) name = .ok (.value t)) : Becomes m scope (.var span name) (.value t)
  | collection {scope : Option IteratorScope} {span : Span} {kind : Expr.CollectionKind} {items : List Expr}
      {ts : List Term} (h : BecomeAll m scope items ts) :
      Becomes m scope (.collection span kind items) (.value (.list ts))
  | property {scope : Option IteratorScope} {span : Span} {source : Expr} {feature : String} {t : Term}
      (h : Becomes m scope source (.value t)) :
      Becomes m scope (.navigation span source feature) (.value (.property t feature))
  | operation {scope : Option IteratorScope} {span : Span} {source argument : Expr} {name : String}
      {op : Term.BinaryOp} {single : Bool} {left right : Term} (hname : valueCall? name = some (op, single))
      (hs : Becomes m scope source (.value left)) (ha : Becomes m scope argument (.value right)) :
      Becomes m scope (.collectionCall span source name [argument])
        (.value (.binary op left (if single then .list [right] else right)))
  | binary {scope : Option IteratorScope} {span : Span} {op : Expr.BinaryOp} {left right : Expr} {l r : Term}
      (hl : Becomes m scope left (.value l)) (hr : Becomes m scope right (.value r)) :
      Becomes m scope (.binary span op left right) (.value (combineTerms op l r))
  | unary {scope : Option IteratorScope} {span : Span} {op : Expr.UnaryOp} {operand : Expr} {t : Term}
      (h : Becomes m scope operand (.value t)) :
      Becomes m scope (.unary span op operand) (.value (.unary (unaryOp op) t))
  | extent {scope : Option IteratorScope} {span : Span} {metamodel : Option String} {className : String}
      (h : m.isEmpty = true ∨ m.hasClass className = true) :
      Becomes m scope (.extent span metamodel className) (.traversal (some className)
        [.step "V" [.var inputName], .step "hasLabel" [.literal (.string className)]])
  | feature {scope : Option IteratorScope} {span : Span} {source : Expr} {feature : String}
      {className : Option String} {is : List Instruction} (h : Becomes m scope source (.traversal className is)) :
      Becomes m scope (.navigation span source feature)
        (.traversal (featureStep m className feature).1 (is ++ [(featureStep m className feature).2]))
  | call {scope : Option IteratorScope} {span : Span} {source : Expr} {name stepName : String} {keepsClass : Bool}
      {className : Option String} {is : List Instruction} (hname : traversalCall? name = some (stepName, keepsClass))
      (h : Becomes m scope source (.traversal className is)) :
      Becomes m scope (.collectionCall span source name [])
        (.traversal (if keepsClass then className else none) (is ++ [.step stepName (callArguments stepName)]))
  | iterator {scope : Option IteratorScope} {span : Span} {source body : Expr} {kind : Expr.IteratorKind}
      {declared className : Option String} {is : List Instruction} {t : Term}
      (hs : Becomes m scope source (.traversal className is))
      (hb : Becomes m (some ⟨declared, className⟩) body (.value t)) :
      Becomes m scope (.iterator span source kind declared body) (iterated className is kind declared t)
  | binaryEach {scope : Option IteratorScope} {span : Span} {op : Expr.BinaryOp} {left right : Expr}
      {className : Option String} {is : List Instruction} {r : Term}
      (hl : Becomes m scope left (.traversal className is)) (hr : Becomes m scope right (.value r)) :
      Becomes m scope (.binary span op left right) (transformed is (combineTerms op (.var implicitName) r))
  | unaryEach {scope : Option IteratorScope} {span : Span} {op : Expr.UnaryOp} {operand : Expr}
      {className : Option String} {is : List Instruction} (h : Becomes m scope operand (.traversal className is)) :
      Becomes m scope (.unary span op operand) (transformed is (.unary (unaryOp op) (.var implicitName)))

inductive BecomeAll (m : Metamodel) : Option IteratorScope → List Expr → List Term → Prop
  | nil {scope : Option IteratorScope} : BecomeAll m scope [] []
  | cons {scope : Option IteratorScope} {e : Expr} {es : List Expr} {t : Term} {ts : List Term}
      (h : Becomes m scope e (.value t)) (hs : BecomeAll m scope es ts) : BecomeAll m scope (e :: es) (t :: ts)
end

variable {m : Metamodel}

theorem bind_valueOnly_eq_ok {x : Except Error Translated} {node : Expr} {t : Term}
    (h : (x >>= valueOnly node) = .ok t) : x = .ok (.value t) := by
  obtain ⟨u, rfl, h⟩ := bind_eq_ok.1 h
  cases u with
  | traversal className is => cases h
  | value u =>
    cases h
    rfl

theorem becomes_name {scope : Option IteratorScope} {span : Span} {name : String} {out : Translated}
    (h : translateName m scope (.var span name) name = .ok out) : Becomes m scope (.var span name) out := by
  have hname := h
  unfold translateName at h
  split at h
  · cases h
  · split at h <;> cases h <;> exact .var hname

theorem becomes_extent {scope : Option IteratorScope} {context : Context} {span : Span} {metamodel : Option String}
    {className : String} {out : Translated}
    (h : translateExtent m context (.extent span metamodel className) className = .ok out) :
    Becomes m scope (.extent span metamodel className) out := by
  unfold translateExtent at h
  split at h
  · cases h
  · cases h
  · split at h <;> cases h
    rename_i hclass
    refine .extent ?_
    simpa [Decidable.or_iff_not_imp_left] using hclass

theorem becomes_call {scope : Option IteratorScope} {node : Expr} {span : Span} {source : Expr} {name : String}
    {arguments : List Expr} {className : Option String} {is : List Instruction} {out : Translated}
    (hs : Becomes m scope source (.traversal className is))
    (h : translateCall node className is name arguments.length = .ok out) :
    Becomes m scope (.collectionCall span source name arguments) out := by
  unfold translateCall at h
  split at h
  · cases h
  · rename_i stepName keepsClass hname
    split at h <;> cases h
    rename_i hlength
    obtain rfl : arguments = [] := by simpa using hlength
    exact .call hname hs

mutual
theorem translate_becomes : (e : Expr) → ∀ {scope : Option IteratorScope} {context : Context} {out : Translated},
    translate m scope context e = .ok out → Becomes m scope e out
  | .literal .., _, _, _, h => by
    rw [translate] at h
    cases h
    exact .literal
  | .var .., _, _, _, h => by
    rw [translate] at h
    exact becomes_name h
  | .collection _ _ items, _, _, _, h => by
    rw [translate] at h
    obtain ⟨ts, hts, ⟨⟩⟩ := bind_eq_ok.1 h
    exact .collection (translateAll_becomes items hts)
  | .extent .., _, _, _, h => by
    rw [translate] at h
    exact becomes_extent h
  | .navigation _ source _, _, _, _, h => by
    rw [translate] at h
    obtain ⟨s, hs, h⟩ := bind_eq_ok.1 h
    have hs := translate_becomes source hs
    cases s <;> cases h
    · exact .feature hs
    · exact .property hs
  | .collectionCall _ source name arguments, _, _, _, h => by
    rw [translate] at h
    obtain ⟨s, hs, h⟩ := bind_eq_ok.1 h
    have hs := translate_becomes source hs
    cases s with
    | traversal className is => exact becomes_call hs h
    | value left =>
      simp only at h
      split at h
      · cases h
      · rename_i hname
        obtain ⟨r, hr, ⟨⟩⟩ := bind_eq_ok.1 h
        obtain ⟨argument, rfl, ha⟩ := translateSole_becomes arguments hr
        exact .operation hname hs ha
  | .iterator _ source _ _ body, _, _, _, h => by
    rw [translate] at h
    obtain ⟨s, hs, h⟩ := bind_eq_ok.1 h
    cases s with
    | value t => cases h
    | traversal className is =>
      simp only [← bind_assoc] at h
      obtain ⟨t, ht, ⟨⟩⟩ := bind_eq_ok.1 h
      exact .iterator (translate_becomes source hs) (translate_becomes body (bind_valueOnly_eq_ok ht))
  | .binary _ _ left right, _, _, _, h => by
    rw [translate] at h
    obtain ⟨l, hl, h⟩ := bind_eq_ok.1 h
    rw [← bind_assoc] at h
    obtain ⟨r, hr, h⟩ := bind_eq_ok.1 h
    have hl := translate_becomes left hl
    have hr := translate_becomes right (bind_valueOnly_eq_ok hr)
    cases l <;> cases h
    · exact .binaryEach hl hr
    · exact .binary hl hr
  | .unary _ _ operand, _, _, _, h => by
    rw [translate] at h
    obtain ⟨s, hs, h⟩ := bind_eq_ok.1 h
    have hs := translate_becomes operand hs
    cases s <;> cases h
    · exact .unaryEach hs
    · exact .unary hs
  | .operation .., _, _, _, h | .typeName .., _, _, _, h | .conditional .., _, _, _, h | .letIn .., _, _, _, h => by
    rw [translate] at h
    cases h

theorem translateAll_becomes : (es : List Expr) → ∀ {scope : Option IteratorScope} {context : Context}
    {ts : List Term}, translateAll m scope context es = .ok ts → BecomeAll m scope es ts
  | [], _, _, _, h => by
    rw [translateAll] at h
    cases h
    exact .nil
  | e :: es, _, _, _, h => by
    rw [translateAll, ← bind_assoc] at h
    obtain ⟨t, ht, h⟩ := bind_eq_ok.1 h
    obtain ⟨ts, hts, ⟨⟩⟩ := bind_eq_ok.1 h
    exact .cons (translate_becomes e (bind_valueOnly_eq_ok ht)) (translateAll_becomes es hts)

theorem translateSole_becomes : (es : List Expr) → ∀ {scope : Option IteratorScope} {context : Context}
    {otherwise : Error} {t : Term}, translateSole m scope context otherwise es = .ok t →
    ∃ e, es = [e] ∧ Becomes m scope e (.value t)
  | [e], _, _, _, _, h => by
    rw [translateSole] at h
    exact ⟨e, rfl, translate_becomes e (bind_valueOnly_eq_ok h)⟩
  | [], _, _, _, _, h | _ :: _ :: _, _, _, _, _, h => by
    simp [translateSole] at h
end

end GraphQuery.Compile
