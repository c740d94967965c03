import GraphQuery.Proofs.Compile.Meaning
import GraphQuery.Proofs.Compile.Translation
import GraphQuery.Proofs.Except

namespace GraphQuery.Compile

open Machine Meaning

def Translated.term? : Translated → Option Term
  | value t => some t
  | traversal .. => none

def Translated.steps? : Translated → Option (Option String × List Instruction)
  | value _ => none
  | traversal className instructions => some (className, instructions)

/-- Refused, or without the part that is asked for, exactly if there is no meaning. -/
def Agrees {τ α β : Type} (part : τ → Option α) (R : α → β → Prop) (x : Except Error τ) (d : Option β) : Prop :=
  match x with
  | .error _ => d = none
  | .ok t => Option.Rel R (part t) d

namespace Agrees

variable {τ τ' α α' β β' : Type} {part : τ → Option α} {part' : τ' → Option α'} {R : α → β → Prop}
  {R' : α' → β' → Prop} {x : Except Error τ} {d : Option β}

theorem eq_none {t : τ} (h : Agrees part R (.ok t) d) (ht : part t = none) : d = none := by
  change Option.Rel R (part t) d at h
  rw [ht] at h
  cases h
  rfl

theorem exists_some {t : τ} {a : α} (h : Agrees part R (.ok t) d) (ht : part t = some a) :
    ∃ b, d = some b ∧ R a b := by
  change Option.Rel R (part t) d at h
  rw [ht] at h
  cases h with
  | some hr => exact ⟨_, rfl, hr⟩

theorem bind {f : τ → Except Error τ'} {g : β → Option β'} (h : Agrees part R x d)
    (hpart : ∀ t a b, part t = some a → R a b → Agrees part' R' (f t) (g b))
    (hnone : ∀ t, part t = none → Agrees part' R' (f t) none) : Agrees part' R' (x >>= f) (d >>= g) := by
  cases x with
  | error e =>
    cases h
    rfl
  | ok t =>
    rw [ok_bind]
    cases ht : part t with
    | none =>
      rw [h.eq_none ht]
      exact hnone t ht
    | some a =>
      obtain ⟨b, rfl, hr⟩ := h.exists_some ht
      exact hpart t a b ht hr

theorem bind_none {f : τ → Except Error τ'} (h : ∀ t, Agrees part' R' (f t) none) :
    Agrees part' R' (x >>= f) none := by
  cases x with
  | error e => rfl
  | ok t => exact h t

end Agrees

section Values

variable {ι : Type} {At : ι → Scope → Prop} {m : Metamodel} {scope : Option IteratorScope}
  {names : String → Option (Reading ι)}

def Evaluates (At : ι → Scope → Prop) (t : Term) (reading : Reading ι) : Prop :=
  ∀ w x s, At x s → evaluate w s t = reading w x

def EvaluateAll (At : ι → Scope → Prop) (ts : List Term)
    (readings : World → ι → Except RunError (List Value)) : Prop :=
  ∀ w x s, At x s → evaluateAll w s ts = readings w x

theorem evaluate_combineTerms (w : World) (s : Scope) (op : Expr.BinaryOp) (l r : Term) :
    evaluate w s (combineTerms op l r) = binary op (evaluate w s l) (evaluate w s r) := by
  cases op with
  | and =>
    simp only [combineTerms, binaryOp, evaluate, binary]
    rcases evaluate w s l with _ | (_ | (_ | _) | _ | _ | _ | _ | _) <;> rfl
  | or =>
    simp only [combineTerms, binaryOp, evaluate, binary]
    rcases evaluate w s l with _ | (_ | (_ | _) | _ | _ | _ | _ | _) <;> rfl
  | implies =>
    simp only [combineTerms, binaryOp, evaluate, binary]
    rcases evaluate w s l with _ | (_ | (_ | _) | _ | _ | _ | _ | _) <;> rfl
  | _ => simp only [combineTerms, binaryOp, evaluate, binary, strict]

theorem Agrees.asTerm {x : Except Error Translated} {d : Option (Reading ι)} (node : Expr)
    (h : Agrees Translated.term? (Evaluates At) x d) :
    Agrees some (Evaluates At) (x >>= valueOnly node) d := by
  rw [← bind_pure d]
  apply h.bind
  · rintro (_ | t) a b ⟨⟩ hr
    exact .some hr
  · rintro (_ | t) ⟨⟩
    rfl

def Resolves (m : Metamodel) (scope : Option IteratorScope) (names : String → Option (Reading ι))
    (At : ι → Scope → Prop) : Prop :=
  ∀ node name, Agrees Translated.term? (Evaluates At) (translateName m scope node name) (names name)

theorem translateExtent_value (context : Context) (node : Expr) (className : String) :
    Agrees Translated.term? (Evaluates At) (translateExtent m context node className) none := by
  unfold translateExtent
  split
  · rfl
  · rfl
  · split
    · rfl
    · exact .none

theorem translateCall_value (node : Expr) (className : Option String) (is : List Instruction)
    (name : String) (given : Nat) :
    Agrees Translated.term? (Evaluates At) (translateCall node className is name given) none := by
  unfold translateCall
  split
  · rfl
  · split
    · rfl
    · exact .none

theorem operation?_eq (name : String) :
    operation? name = (valueCall? name).map fun call l r =>
      Value.applyBinary call.1 l (if call.2 then .list [r] else r) := by
  unfold valueCall?
  split
  · rfl
  · rfl
  · rfl
  · unfold operation?
    split
    · contradiction
    · contradiction
    · contradiction
    · rfl

theorem ne_of_valueCall? {name : String} {op : Term.BinaryOp} {single : Bool}
    (h : valueCall? name = some (op, single)) : op ≠ .and ∧ op ≠ .or := by
  unfold valueCall? at h
  split at h <;> cases h <;> exact ⟨nofun, nofun⟩

theorem evaluate_strict (w : World) (s : Scope) {op : Term.BinaryOp} (h : op ≠ .and ∧ op ≠ .or) (l r : Term) :
    evaluate w s (.binary op l r) = strict op (evaluate w s l) (evaluate w s r) := by
  cases op with
  | and => exact absurd rfl h.1
  | or => exact absurd rfl h.2
  | _ => simp only [evaluate, strict]

theorem evaluate_call (w : World) (s : Scope) {op : Term.BinaryOp} (h : op ≠ .and ∧ op ≠ .or) (single : Bool)
    (l r : Term) :
    evaluate w s (.binary op l (if single then .list [r] else r)) = (do
      let l ← evaluate w s l
      let r ← evaluate w s r
      Value.applyBinary op l (if single then .list [r] else r)) := by
  rw [evaluate_strict w s h]
  cases single with
  | false => rfl
  | true =>
    simp only [if_true, evaluate, evaluateAll, strict]
    cases evaluate w s l <;> cases evaluate w s r <;> rfl

mutual
theorem translate_value (h : Resolves m scope names At) : (e : Expr) → ∀ context : Context,
    Agrees Translated.term? (Evaluates At) (translate m scope context e) (value? names e)
  | .literal _ value, context => by
    rw [translate, value?]
    exact .some fun w x s _ => by rw [evaluate]
  | .var span name, context => by
    rw [translate, value?]
    exact h _ name
  | .collection _ _ items, context => by
    rw [translate, value?]
    apply (translateAll_values h items context.inner).bind
    · rintro ts _ readings ⟨⟩ hr
      refine .some fun w x s hs => ?_
      rw [evaluate, hr w x s hs]
      rfl
    · rintro ts ⟨⟩
  | .extent span metamodel className, context => by
    simp only [translate, value?]
    exact translateExtent_value context _ className
  | .navigation _ source feature, context => by
    rw [translate, value?]
    apply (translate_value h source context).bind
    · rintro (_ | t) _ reading ⟨⟩ hr
      refine .some fun w x s hs => ?_
      simp only [evaluate, hr w x s hs, navigation_eq]
    · rintro (_ | t) ⟨⟩
      exact .none
  | .collectionCall span source name arguments, context => by
    rw [translate, value?]
    apply (translate_value h source context).bind
    · rintro (_ | left) _ reading ⟨⟩ hleft
      rw [operation?_eq]
      cases hcall : valueCall? name with
      | none => rfl
      | some call =>
        apply (translateSole_value h _ arguments context.inner).bind
        · rintro right _ argument ⟨⟩ hright
          refine .some fun w x s hs => ?_
          rw [evaluate_call w s (ne_of_valueCall? hcall), hleft w x s hs, hright w x s hs]
        · rintro right ⟨⟩
    · rintro (_ | left) ⟨⟩
      exact translateCall_value ..
  | .iterator span source kind declared body, context => by
    simp only [translate, value?]
    apply Agrees.bind_none
    rintro (_ | t)
    · apply Agrees.bind_none
      intro t
      apply Agrees.bind_none
      intro body
      exact .none
    · rfl
  | .binary _ op left right, context => by
    rw [translate, value?]
    apply (translate_value h left context).bind
    · rintro (_ | l) _ reading ⟨⟩ hl
      rw [← bind_assoc]
      apply ((translate_value h right context.inner).asTerm right).bind
      · rintro r _ reading' ⟨⟩ hr
        refine .some fun w x s hs => ?_
        rw [evaluate_combineTerms, hl w x s hs, hr w x s hs]
      · rintro r ⟨⟩
    · rintro (_ | l) ⟨⟩
      apply Agrees.bind_none
      intro t
      apply Agrees.bind_none
      intro r
      exact .none
  | .unary _ op operand, context => by
    rw [translate, value?]
    apply (translate_value h operand context).bind
    · rintro (_ | t) _ reading ⟨⟩ hr
      refine .some fun w x s hs => ?_
      rw [evaluate, hr w x s hs]
      cases op <;> rfl
    · rintro (_ | t) ⟨⟩
      exact .none
  | .operation .., _ => by
    simp only [translate, value?]
    rfl
  | .typeName .., _ => by
    simp only [translate, value?]
    rfl
  | .conditional .., _ => by
    simp only [translate, value?]
    rfl
  | .letIn .., _ => by
    simp only [translate, value?]
    rfl

theorem translateAll_values (h : Resolves m scope names At) : (es : List Expr) → ∀ context : Context,
    Agrees some (EvaluateAll At) (translateAll m scope context es) (values? names es)
  | [], context => by
    rw [translateAll, values?]
    exact .some fun w x s _ => by rw [evaluateAll]
  | e :: es, context => by
    rw [translateAll, values?, ← bind_assoc]
    apply ((translate_value h e context).asTerm e).bind
    · rintro t _ first ⟨⟩ ht
      apply (translateAll_values h es context).bind
      · rintro ts _ rest ⟨⟩ hts
        refine .some fun w x s hs => ?_
        rw [evaluateAll, ht w x s hs, hts w x s hs]
        rfl
      · rintro ts ⟨⟩
    · rintro t ⟨⟩

theorem translateSole_value (h : Resolves m scope names At) (otherwise : Error) : (es : List Expr) →
    ∀ context : Context,
    Agrees some (Evaluates At) (translateSole m scope context otherwise es) (sole? names es)
  | [], context => by
    rw [translateSole, sole?] <;> simp [Agrees]
  | [e], context => by
    rw [translateSole, sole?]
    exact (translate_value h e context).asTerm e
  | _ :: _ :: _, context => by
    rw [translateSole, sole?] <;> simp [Agrees]
end

end Values

end GraphQuery.Compile
