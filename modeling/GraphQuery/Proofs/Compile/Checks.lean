import Mathlib
import GraphQuery.Error
import GraphQuery.Proofs.Compile.Printing
import GraphQuery.Proofs.Decimal.Patterns
import GraphQuery.Proofs.Script.JsonForm
import GraphQuery.Proofs.Token.Slices

namespace GraphQuery

namespace Term

mutual
def Named : Term → Prop
  | literal _ => True
  | var name => isIdentifier name = true
  | property target name => isIdentifier name = true ∧ target.Named
  | list items => NamedAll items
  | unary _ operand => operand.Named
  | binary _ left right => left.Named ∧ right.Named

def NamedAll : List Term → Prop
  | [] => True
  | t :: ts => t.Named ∧ NamedAll ts
end

end Term

namespace Instruction

mutual
def Named : Instruction → Prop
  | step name arguments => isIdentifier name = true ∧ Term.NamedAll arguments
  | closure name parameter body =>
    isIdentifier name = true ∧ (∀ p ∈ parameter, isIdentifier p = true) ∧ NamedAll body
  | statement term => term.Named

def NamedAll : List Instruction → Prop
  | [] => True
  | i :: is => i.Named ∧ NamedAll is
end

theorem realsAll_append (is js : List Instruction) : realsAll (is ++ js) = realsAll is ++ realsAll js := by
  induction is with
  | nil => rfl
  | cons i is ih => simp only [List.cons_append, realsAll, ih, List.append_assoc]

theorem namedAll_append {is js : List Instruction} : NamedAll (is ++ js) ↔ NamedAll is ∧ NamedAll js := by
  induction is with
  | nil => simp [NamedAll]
  | cons i is ih => simp [NamedAll, ih, and_assoc]

end Instruction

namespace Script

def Named (s : Script) : Prop :=
  Instruction.NamedAll s.instructions

def checkReals (xs : List Float) : Except Invalid Unit :=
  match xs.find? (!·.isFinite) with
  | some x => .error (.real x)
  | none => .ok ()

theorem checkReals_append (xs ys : List Float) :
    checkReals (xs ++ ys) = (do checkReals xs; checkReals ys) := by
  unfold checkReals
  rw [List.find?_append]
  cases xs.find? (!·.isFinite) <;> rfl

theorem checkName_of_isIdentifier {role : NameRole} {name : String} (h : isIdentifier name = true) :
    checkName role name = .ok () :=
  if_pos h

end Script

namespace Term

open Script

mutual
theorem check_of_named : (t : Term) → t.Named → t.check = checkReals t.reals
  | literal (.real x), _ => by
    rw [check, reals, Literal.reals, checkReals, List.find?_singleton]
    cases x.isFinite <;> rfl
  | literal .null, _ => rfl
  | literal (.boolean _), _ => rfl
  | literal (.integer _), _ => rfl
  | literal (.string _), _ => rfl
  | var _, h => by
    rw [check, checkName_of_isIdentifier h]
    rfl
  | property target _, h => by
    rw [check, checkName_of_isIdentifier h.1, ok_bind, reals]
    exact check_of_named target h.2
  | list items, h => by
    rw [check, reals]
    exact checkAll_of_namedAll items h
  | unary _ operand, h => by
    rw [check, reals]
    exact check_of_named operand h
  | binary _ left right, h => by
    rw [check, check_of_named left h.1, check_of_named right h.2, reals, checkReals_append]

theorem checkAll_of_namedAll : (ts : List Term) → NamedAll ts → checkAll ts = checkReals (realsAll ts)
  | [], _ => rfl
  | t :: ts, h => by
    rw [checkAll, check_of_named t h.1, checkAll_of_namedAll ts h.2, realsAll, checkReals_append]
end

end Term

namespace Instruction

open Script

mutual
theorem check_of_named : (i : Instruction) → i.Named → i.check = checkReals i.reals
  | step _ arguments, h => by
    rw [check, checkName_of_isIdentifier h.1, ok_bind, reals]
    exact Term.checkAll_of_namedAll arguments h.2
  | closure _ none body, h => by
    rw [check, checkName_of_isIdentifier h.1, ok_bind, reals]
    exact checkAll_of_namedAll body h.2.2
  | closure _ (some p) body, h => by
    rw [check, checkName_of_isIdentifier h.1, ok_bind, reals]
    dsimp only
    rw [checkName_of_isIdentifier (h.2.1 p rfl), ok_bind]
    exact checkAll_of_namedAll body h.2.2
  | statement term, h => by
    rw [check, reals]
    exact Term.check_of_named term h

theorem checkAll_of_namedAll : (is : List Instruction) → NamedAll is → checkAll is = checkReals (realsAll is)
  | [], _ => rfl
  | i :: is, h => by
    rw [checkAll, check_of_named i h.1, checkAll_of_namedAll is h.2, realsAll, checkReals_append]
end

end Instruction

theorem Script.validate_of_named {s : Script} (h : s.Named) : s.validate = checkReals s.reals :=
  Instruction.checkAll_of_namedAll s.instructions h

def Token.real? : Token → Option Float
  | .real x => some x
  | _ => none

namespace Expr

def reals (e : Expr) : List Float :=
  e.parts.filterMap Token.real?

def realsAll (es : List Expr) : List Float :=
  (partsAll es).filterMap Token.real?

section Reals

variable (span : Span) (source : Expr) (name : String)

theorem reals_literal (value : Literal) : (literal span value).reals = value.reals := by
  cases value with
  | boolean b => cases b <;> rfl
  | _ => rfl

theorem reals_extent (metamodel : Option String) : (extent span metamodel name).reals = [] := by
  cases metamodel <;> rfl

theorem reals_navigation : (navigation span source name).reals = source.reals := by
  simp [reals, parts, Token.real?]

theorem reals_collectionCall (arguments : List Expr) :
    (collectionCall span source name arguments).reals = source.reals ++ realsAll arguments := by
  simp [reals, realsAll, parts, List.filterMap_cons, Token.real?]

theorem reals_iterator (kind : IteratorKind) (declared : Option String) (body : Expr) :
    (iterator span source kind declared body).reals = source.reals ++ body.reals := by
  cases declared <;> simp [reals, parts, names, List.filterMap_cons, Token.real?]

theorem reals_binary (op : BinaryOp) (left right : Expr) :
    (binary span op left right).reals = left.reals ++ right.reals := by
  cases op <;> simp [reals, parts, operatorSign, List.filterMap_cons, Token.real?]

theorem reals_unary (op : UnaryOp) (operand : Expr) : (unary span op operand).reals = operand.reals := by
  cases op <;> simp [reals, parts, List.filterMap_cons, Token.real?]

theorem realsAll_cons (e : Expr) (es : List Expr) : realsAll (e :: es) = e.reals ++ realsAll es := by
  simp [reals, realsAll, partsAll]

end Reals

end Expr

namespace Compile

variable {m : Metamodel}

def Translated.reals : Translated → List Float
  | traversal _ instructions => Instruction.realsAll instructions
  | value term => term.reals

section Reals

theorem reals_name {scope : Option IteratorScope} {node : Expr} {name : String} {t : Term}
    (h : translateName m scope node name = .ok (.value t)) : t.reals = [] := by
  unfold translateName at h
  split at h
  · cases h
  · split at h <;> cases h <;> rfl

theorem reals_combineTerms (op : Expr.BinaryOp) (left right : Term) :
    (combineTerms op left right).reals = left.reals ++ right.reals := by
  cases op <;> rfl

theorem reals_traversal_append (className className' : Option String) (is js : List Instruction) :
    (Translated.traversal className (is ++ js)).reals =
      (Translated.traversal className' is).reals ++ Instruction.realsAll js :=
  Instruction.realsAll_append is js

theorem reals_transformed (className : Option String) (is : List Instruction) (t : Term) :
    (transformed is t).reals = (Translated.traversal className is).reals ++ (Translated.value t).reals := by
  rw [transformed, reals_traversal_append _ className]
  simp [Instruction.realsAll, Instruction.reals, Translated.reals]

theorem reals_iterated (className : Option String) (is : List Instruction) (kind : Expr.IteratorKind)
    (declared : Option String) (t : Term) : (iterated className is kind declared t).reals =
      (Translated.traversal className is).reals ++ (Translated.value t).reals := by
  rw [iterated, reals_traversal_append _ className]
  congr 1
  cases kind <;> simp [iteratorEnd, iteratorBody, negates, Instruction.realsAll, Instruction.reals, Term.reals,
    Term.realsAll, Translated.reals]

theorem reals_featureStep (className : Option String) (feature : String) :
    (featureStep m className feature).2.reals = [] := by
  unfold featureStep
  split <;> rfl

theorem reals_callArguments (stepName : String) : Term.realsAll (callArguments stepName) = [] := by
  unfold callArguments
  split <;> rfl

end Reals

mutual
theorem Becomes.reals {scope : Option IteratorScope} {e : Expr} {out : Translated} :
    Becomes m scope e out → out.reals = e.reals
  | .literal => (Expr.reals_literal ..).symm
  | .var hname => reals_name hname
  | .collection hs => hs.reals
  | .property hs => by
    rw [Expr.reals_navigation]
    exact hs.reals
  | @Becomes.operation _ _ _ _ _ _ _ single left right _ hs ha => by
    rw [Expr.reals_collectionCall, Expr.realsAll_cons, ← hs.reals, ← ha.reals]
    cases single <;> simp [Translated.reals, Term.reals, Term.realsAll, Expr.realsAll, Expr.partsAll]
  | .binary hl hr => by
    rw [Expr.reals_binary, ← hl.reals, ← hr.reals]
    exact reals_combineTerms ..
  | .unary hs => by
    rw [Expr.reals_unary]
    exact hs.reals
  | .extent _ => (Expr.reals_extent ..).symm
  | @Becomes.feature _ _ _ _ _ className _ hs => by
    rw [Expr.reals_navigation, ← hs.reals, reals_traversal_append _ className, Instruction.realsAll,
      reals_featureStep]
    exact List.append_nil _
  | @Becomes.call _ _ _ _ _ _ _ className _ _ hs => by
    rw [Expr.reals_collectionCall, ← hs.reals, reals_traversal_append _ className, Instruction.realsAll,
      Instruction.reals, reals_callArguments]
    rfl
  | .iterator hs hb => by
    rw [Expr.reals_iterator, ← hs.reals, ← hb.reals]
    exact reals_iterated ..
  | .binaryEach hl hr => by
    rw [Expr.reals_binary, ← hl.reals, ← hr.reals, reals_transformed]
    exact congrArg _ (reals_combineTerms ..)
  | .unaryEach hs => by
    rw [Expr.reals_unary, ← hs.reals]
    exact (reals_transformed ..).trans (List.append_nil _)

theorem BecomeAll.reals {scope : Option IteratorScope} {es : List Expr} {ts : List Term} :
    BecomeAll m scope es ts → Term.realsAll ts = Expr.realsAll es
  | .nil => rfl
  | .cons he hes => by
    rw [Expr.realsAll_cons, ← he.reals, ← hes.reals]
    rfl
end

def Translated.Named : Translated → Prop
  | traversal _ instructions => Instruction.NamedAll instructions
  | value term => term.Named

section Named

theorem named_implicitName : (Term.var implicitName).Named :=
  show isIdentifier implicitName = true by decide

theorem named_inputName : (Term.var inputName).Named :=
  show isIdentifier inputName = true by decide

theorem named_name {scope : Option IteratorScope} {node : Expr} {name : String} {t : Term}
    (h : translateName m scope node name = .ok (.value t)) (hname : (Token.identifier name).Legible) : t.Named := by
  unfold translateName at h
  split at h
  · cases h
  · split at h <;> cases h
    · exact ⟨hname.1, named_implicitName⟩
    · exact hname.1

theorem named_combineTerms {op : Expr.BinaryOp} {left right : Term} (hl : left.Named) (hr : right.Named) :
    (combineTerms op left right).Named := by
  cases op <;> exact ⟨hl, hr⟩

theorem named_transformed {is : List Instruction} {t : Term} (his : Instruction.NamedAll is) (ht : t.Named) :
    (transformed is t).Named :=
  Instruction.namedAll_append.2 ⟨his, ⟨by decide, by simp, ht, trivial⟩, trivial⟩

theorem named_iterated {className : Option String} {is : List Instruction} {kind : Expr.IteratorKind}
    {declared : Option String} {t : Term} (his : Instruction.NamedAll is)
    (hdeclared : ∀ p ∈ declared, isIdentifier p = true) (ht : t.Named) :
    (iterated className is kind declared t).Named := by
  have hstep : ∀ name, isIdentifier name = true → Instruction.NamedAll [.step name []] :=
    fun name hname => ⟨⟨hname, trivial⟩, trivial⟩
  apply Instruction.namedAll_append.2
  refine ⟨his, ⟨?_, hdeclared, ?_, trivial⟩, ?_⟩
  · cases kind <;> decide
  · cases kind <;> exact ht
  · cases kind with
    | exist => exact hstep "hasNext" (by decide)
    | forAll => exact hstep "isEmpty" (by decide)
    | _ => trivial

theorem named_featureStep (className : Option String) (feature : String) :
    (featureStep m className feature).2.Named := by
  unfold featureStep
  split <;> exact ⟨by decide, trivial, trivial⟩

theorem named_callStep {name stepName : String} {keepsClass : Bool}
    (h : traversalCall? name = some (stepName, keepsClass)) :
    (Instruction.step stepName (callArguments stepName)).Named := by
  unfold traversalCall? at h
  split at h <;> cases h
  all_goals exact ⟨by decide, by trivial⟩

theorem isIdentifier_of_names {declared : Option String} (h : ∀ t ∈ Expr.names declared, t.Legible) :
    ∀ p ∈ declared, isIdentifier p = true := by
  rintro p rfl
  exact (h _ List.mem_cons_self).1

end Named

mutual
theorem Becomes.named {scope : Option IteratorScope} {e : Expr} {out : Translated} :
    Becomes m scope e out → (∀ t ∈ e.parts, t.Legible) → out.Named
  | .literal, _ => trivial
  | .var hname, h => named_name hname (h _ List.mem_cons_self)
  | .collection hs, h => by
    rw [Expr.parts, List.forall_mem_cons] at h
    exact hs.named h.2
  | .property hs, h => by
    simp only [Expr.parts, List.forall_mem_append, List.forall_mem_cons] at h
    exact ⟨h.2.2.1.1, hs.named h.1⟩
  | @Becomes.operation _ _ _ _ _ _ _ single _ _ _ hs ha, h => by
    simp only [Expr.parts, Expr.partsAll, List.forall_mem_append, List.forall_mem_cons] at h
    refine ⟨hs.named h.1, ?_⟩
    cases single with
    | false => exact ha.named h.2.2.1
    | true => exact ⟨ha.named h.2.2.1, trivial⟩
  | .binary hl hr, h => by
    simp only [Expr.parts, List.forall_mem_append] at h
    exact named_combineTerms (hl.named h.1) (hr.named h.2.2)
  | .unary hs, h => hs.named (legible_operand h)
  | .extent _, _ => ⟨⟨by decide, named_inputName, trivial⟩, ⟨by decide, trivial, trivial⟩, trivial⟩
  | .feature hs, h => by
    rw [Expr.parts, List.forall_mem_append] at h
    exact Instruction.namedAll_append.2 ⟨hs.named h.1, named_featureStep .., trivial⟩
  | .call hname hs, h => by
    rw [Expr.parts, List.forall_mem_append] at h
    exact Instruction.namedAll_append.2 ⟨hs.named h.1, named_callStep hname, trivial⟩
  | .iterator hs hb, h => by
    simp only [Expr.parts, List.forall_mem_append, List.forall_mem_cons] at h
    exact named_iterated (hs.named h.1) (isIdentifier_of_names h.2.2.1) (hb.named h.2.2.2)
  | .binaryEach hl hr, h => by
    simp only [Expr.parts, List.forall_mem_append] at h
    exact named_transformed (hl.named h.1) (named_combineTerms named_implicitName (hr.named h.2.2))
  | .unaryEach hs, h => named_transformed (hs.named (legible_operand h)) named_implicitName

theorem BecomeAll.named {scope : Option IteratorScope} {es : List Expr} {ts : List Term} :
    BecomeAll m scope es ts → (∀ t ∈ Expr.partsAll es, t.Legible) → Term.NamedAll ts
  | .nil, _ => trivial
  | .cons he hes, h => by
    rw [Expr.partsAll, List.forall_mem_append] at h
    exact ⟨he.named h.1, hes.named h.2⟩
end

theorem Translated.reals_script (t : Translated) : t.script.reals = t.reals := by
  cases t with
  | traversal className is => rfl
  | value t => exact List.append_nil _

theorem Translated.named_script {t : Translated} (h : t.Named) : t.script.Named := by
  cases t with
  | traversal className is => exact h
  | value t => exact ⟨h, trivial⟩

theorem checkTree_of_lowerRoot {e : Expr} {a : Arena} (h : (lowerRoot m e).run {} = .ok ((), a)) :
    a.checkTree = .ok () ∧ a.finish true = a.finish false := by
  have hsimulates := lowerRoot_simulates m e
  unfold Simulates at hsimulates
  split at hsimulates
  · cases h.symm.trans hsimulates
  · obtain ⟨b, a', hrun, hgrows⟩ := hsimulates
    cases h.symm.trans hrun
    exact ⟨hgrows.ready.forest.checkTree, hgrows.ready.forest.finish_eq true⟩

end Compile

theorem Token.isIdentifier_of_tokenize {text : String} {ls : List Located} (h : tokenize text = .ok ls) {name : String}
    {span : Span} (hmem : ⟨.identifier name, span⟩ ∈ ls) : isIdentifier name = true :=
  ((reads_of_scan h).legible _ (List.mem_map_of_mem hmem)).1

namespace Expr

open Compile

theorem toBits_of_reals {e : Expr} (he : ∀ t ∈ e.parts, t.Legible) {x : Float} (hx : x ∈ e.reals)
    (hfinite : x.isFinite = false) : x.toBits.toNat = Decimal.infinityBits := by
  have hreal : ∀ t : Token, t.real? = some x → t = .real x := by
    rintro (_ | _ | _ | _ | _) ⟨⟩
    rfl
  obtain ⟨t, ht, heq⟩ := List.mem_filterMap.1 hx
  have hle : x.toBits.toNat ≤ Decimal.infinityBits := he (.real x) (hreal t heq ▸ ht)
  rw [← Bool.not_eq_true, Decimal.isFinite_iff, not_not] at hfinite
  change _ ≤ 2047 * 2 ^ 52 at hle
  change _ = 2047 * 2 ^ 52
  omega

theorem compile_true_of_error {m : Metamodel} {e : Expr} {err : Compile.Error} (h : e.compile m false = .error err) :
    e.compile m true = .error err := by
  rw [compile_eq] at h ⊢
  cases ht : translate m none .root e with
  | error err' =>
    rw [ht] at h
    exact h
  | ok t =>
    rw [ht] at h
    cases h

theorem compile_true_of_ok {m : Metamodel} {e : Expr} {s : Script} (h : e.compile m false = .ok s) :
    e.compile m true = (s.validate.mapError .invalid).map (fun _ => s) := by
  rw [compile_eq] at h ⊢
  obtain ⟨t, ht, hs⟩ := bind_eq_ok.1 h
  rw [ht, ok_bind]
  cases hs
  unfold inspected
  cases t.script.validate <;> rfl

/-- The checks of compilation refuse nothing of what is read but real literals that are not finite, the first of
them in the order of the text. -/
theorem compile_checked {text : String} {e : Expr} (hparse : parse text = .ok e) (m : Metamodel) :
    (∀ err, e.compile m false = .error err → e.compile m true = .error err) ∧
      (∀ s, e.compile m false = .ok s → s.Named ∧ s.reals = e.reals ∧
        (e.reals.find? (!·.isFinite) = none → e.compile m true = .ok s) ∧
        ∀ x, e.reals.find? (!·.isFinite) = some x →
          e.compile m true = .error (.invalid (.real x)) ∧ s.validate = .error (.real x) ∧
          (GraphQuery.Error.ofCompile (.invalid (.real x))).category = .structural ∧
          x.toBits.toNat = Decimal.infinityBits) ∧
      (∀ text' ls, Token.tokenize text' = .ok ls → ∀ name span, ⟨.identifier name, span⟩ ∈ ls →
        isIdentifier name = true) ∧
      ∀ e' a, (lowerRoot m e').run {} = .ok ((), a) → a.checkTree = .ok () ∧ a.finish true = a.finish false := by
  have hlegible := legible_of_parse hparse
  refine ⟨fun _ => compile_true_of_error, fun s hs => ?_,
    fun _ _ htokens _ _ hmem => Token.isIdentifier_of_tokenize htokens hmem, fun _ _ => checkTree_of_lowerRoot⟩
  obtain ⟨t, ht, rfl, -⟩ := compile_eq_ok.1 hs
  have hbecomes := translate_becomes e ht
  have hnamed := Translated.named_script (hbecomes.named hlegible)
  have hreals : t.script.reals = e.reals := (Translated.reals_script t).trans hbecomes.reals
  -- With all names in order, reals are the only thing that validation can refuse.
  have hvalidate := Script.validate_of_named hnamed
  rw [hreals, Script.checkReals] at hvalidate
  have hchecked := compile_true_of_ok hs
  refine ⟨hnamed, hreals, fun hnone => ?_, fun x hx => ?_⟩
  · rw [hchecked, hvalidate, hnone]
    rfl
  · rw [hx] at hvalidate
    rw [hchecked, hvalidate]
    have hfinite : x.isFinite = false := by simpa using List.find?_some hx
    exact ⟨rfl, rfl, rfl, toBits_of_reals hlegible (List.mem_of_find?_eq_some hx) hfinite⟩

def lessThan (x : Float) : Expr :=
  .binary ⟨0, 9⟩ .less (.var ⟨0, 1⟩ "x") (.literal ⟨2, 9⟩ (.real x))

theorem parse_lessThan : parse "x<1.0e999" = .ok (lessThan (Decimal.ofDigits 10 998)) := by
  have hreal : Token.Scanned 2 ['1', '.', '0', 'e', '9', '9', '9']
      [⟨.real (Decimal.ofDigits 10 998), ⟨2, 9⟩⟩] :=
    .token (n := 6) rfl (.nil 9)
  have hless : Token.Scanned 1 ['<', '1', '.', '0', 'e', '9', '9', '9'] (⟨.mark .less, ⟨1, 2⟩⟩ :: _) :=
    .token (n := 0) rfl hreal
  have hname : Token.Scanned 0 "x<1.0e999".toList (⟨.identifier "x", ⟨0, 1⟩⟩ :: _) :=
    .token (c := 'x') (n := 0) rfl hless
  rw [parse, show Token.tokenize "x<1.0e999" = _ from hname.scan]
  -- The parser does not look at the value, which would take long to evaluate.
  generalize Decimal.ofDigits 10 998 = x
  cbv

theorem compile_checked_lessThan : parse "x<1.0e999" = .ok (lessThan (Decimal.ofDigits 10 998)) ∧
    (∃ s, (lessThan (Decimal.ofDigits 10 998)).compile {} false = .ok s) ∧
    ∃ x, (lessThan (Decimal.ofDigits 10 998)).compile {} true = .error (.invalid (.real x)) ∧
      x.toBits.toNat = Decimal.infinityBits := by
  have hcompile : (lessThan (Decimal.ofDigits 10 998)).compile {} false = .ok _ :=
    compile_eq_ok.2 ⟨_, rfl, rfl, fun h => by cases h⟩
  have hbits : (Decimal.ofDigits 10 998).toBits.toNat = Decimal.infinityBits :=
    Decimal.toNat_toBits_ofBits (Nat.le_refl _)
  have hfind : (lessThan (Decimal.ofDigits 10 998)).reals.find? (!·.isFinite) = some (Decimal.ofDigits 10 998) := by
    have hfinite : (Decimal.ofDigits 10 998).isFinite = false := by
      rw [← Bool.not_eq_true, Decimal.isFinite_iff, hbits]
      decide
    change List.find? _ [Decimal.ofDigits 10 998] = _
    rw [List.find?_singleton, hfinite]
    rfl
  obtain ⟨hrefused, -, -, hinfinity⟩ := ((compile_checked parse_lessThan {}).2.1 _ hcompile).2.2.2 _ hfind
  exact ⟨parse_lessThan, ⟨_, hcompile⟩, _, hrefused, hinfinity⟩

end Expr

end GraphQuery
