import GraphQuery.Proofs.Compile.Names
import GraphQuery.Proofs.Compile.Preservation
import GraphQuery.Proofs.Compile.Rules
import GraphQuery.Proofs.Script.Scope

namespace GraphQuery

open Compile

namespace Expr

def startsAtExtent : Expr → Bool
  | extent .. => true
  | navigation _ source _ | collectionCall _ source _ _ | iterator _ source _ _ _ => source.startsAtExtent
  | binary _ _ left _ => left.startsAtExtent
  | unary _ _ operand => operand.startsAtExtent
  | _ => false

def elementClass (m : Metamodel) : Expr → Option String
  | extent _ _ className => some className
  | navigation _ source feature =>
    ((m.feature? (source.elementClass m) feature).filter (·.isReference)).bind (·.target)
  | collectionCall _ source name _ => if name ∈ ["asSet", "first"] then source.elementClass m else none
  | iterator _ source kind _ _ => if kind = .select ∨ kind = .reject then source.elementClass m else none
  | _ => none

def namesFeature (m : Metamodel) (scope : IteratorScope) (name : String) : Prop :=
  scope.declared = none ∧ name ≠ "self" ∧ name ≠ implicitName ∧
    (m.isEmpty ∨ (m.feature? scope.className name).isSome)

instance (m : Metamodel) (scope : IteratorScope) (name : String) : Decidable (namesFeature m scope name) :=
  inferInstanceAs (Decidable (_ ∧ _))

def isResolved (m : Metamodel) (around : List IteratorScope) (name : String) : Bool :=
  around.any (·.declared == some name) || around.head?.any (namesFeature m · name)

mutual
/-- The names of variables that the iterators around them leave open, as they occur. -/
def openNames (m : Metamodel) (around : List IteratorScope) : Expr → List String
  | literal .. | typeName .. | extent .. => []
  | var _ name => if isResolved m around name then [] else [name]
  | navigation _ source _ => source.openNames m around
  | operation _ source _ arguments | collectionCall _ source _ arguments =>
    source.openNames m around ++ openNamesAll m around arguments
  | iterator _ source _ declared body =>
    source.openNames m around ++ body.openNames m (⟨declared, source.elementClass m⟩ :: around)
  | binary _ _ left right => left.openNames m around ++ right.openNames m around
  | unary _ _ operand => operand.openNames m around
  | collection _ _ items => openNamesAll m around items
  | conditional _ condition yes no =>
    condition.openNames m around ++ yes.openNames m around ++ no.openNames m around
  | letIn _ name value body => value.openNames m around ++ (body.openNames m around).filter (· != name)

def openNamesAll (m : Metamodel) (around : List IteratorScope) : List Expr → List String
  | [] => []
  | e :: es => e.openNames m around ++ openNamesAll m around es
end

end Expr

namespace Compile

variable {m : Metamodel}

def leftFree : Option IteratorScope → List String → List String
  | none, names => names
  | some scope, names => names.filter (· != boundName scope.declared)

theorem leftFree_append (scope : Option IteratorScope) (names names' : List String) :
    leftFree scope (names ++ names') = leftFree scope names ++ leftFree scope names' := by
  cases scope with
  | none => rfl
  | some scope => exact List.filter_append ..

theorem leftFree_nil (scope : Option IteratorScope) : leftFree scope [] = [] := by
  cases scope <;> rfl

theorem names_combineTerms (op : Expr.BinaryOp) (left right : Term) :
    (combineTerms op left right).names = left.names ++ right.names := by
  unfold combineTerms
  split <;> simp only [Term.names]

theorem names_single (single : Bool) (t : Term) : (if single then Term.list [t] else t).names = t.names := by
  cases single <;> simp [Term.names, Term.namesAll]

theorem names_iteratorBody (kind : Expr.IteratorKind) (body : Term) :
    (iteratorBody kind body).names = body.names := by
  unfold iteratorBody
  split <;> simp only [Term.names]

theorem isImplicitFeature_iff {className : Option String} {name : String} (h : name ≠ implicitName) :
    isImplicitFeature m (some ⟨none, className⟩) name = true ↔ Expr.namesFeature m ⟨none, className⟩ name := by
  simp [isImplicitFeature, Expr.namesFeature, h]

theorem keepsClass_eq {name stepName : String} {keepsClass : Bool}
    (h : traversalCall? name = some (stepName, keepsClass)) : keepsClass = decide (name ∈ ["asSet", "first"]) := by
  unfold traversalCall? at h
  split at h <;> cases h <;> rfl

theorem featureStep_class (m : Metamodel) (className : Option String) (feature : String) :
    (featureStep m className feature).1 = ((m.feature? className feature).filter (·.isReference)).bind (·.target) := by
  unfold featureStep
  cases (m.feature? className feature).filter (·.isReference) <;> rfl

theorem freeNames_featureStep (m : Metamodel) (className : Option String) (feature : String) :
    (featureStep m className feature).2.freeNames = [] := by
  unfold featureStep
  split <;> rfl

theorem iteratorEnd_class (className : Option String) (kind : Expr.IteratorKind) :
    (iteratorEnd className kind).1 = if kind = .select ∨ kind = .reject then className else none := by
  cases kind <;> rfl

theorem freeNames_iteratorEnd (className : Option String) (kind : Expr.IteratorKind) :
    Instruction.freeNamesAll (iteratorEnd className kind).2 = [] := by
  cases kind <;> rfl

theorem freeNames_callArguments (stepName : String) : Term.namesAll (callArguments stepName) = [] := by
  unfold callArguments
  split <;> rfl

theorem freeNames_transform (is : List Instruction) (t : Term) :
    Instruction.freeNamesAll (is ++ [Instruction.closure "transform" none [.statement t]]) =
      Instruction.freeNamesAll is ++ t.names.filter (· != implicitName) := by
  simp only [Instruction.freeNamesAll_append, Instruction.freeNamesAll, Instruction.freeNames, List.append_nil]
  rfl

structure NamesOf (m : Metamodel) (scope : Option IteratorScope) (e : Expr) (t : Term) : Prop where
  free : leftFree scope t.names = e.openNames m scope.toList
  notImplicit : implicitName ∉ e.openNames m scope.toList
  notExtent : e.startsAtExtent = false

theorem openNames_var_item (m : Metamodel) (scope : IteratorScope) (span : Span) (name : String) :
    Expr.openNames m [scope] (.var span name) =
      if scope.declared = some name ∨ Expr.namesFeature m scope name then [] else [name] := by
  simp [Expr.openNames, Expr.isResolved]

theorem namesOf_var {scope : Option IteratorScope} {node : Expr} {span : Span} {name : String} {t : Term}
    (h : translateName m scope node name = .ok (.value t)) : NamesOf m scope (.var span name) t := by
  unfold translateName at h
  by_cases hreserved : isReserved scope name = true
  · rw [if_pos hreserved] at h
    cases h
  rw [if_neg hreserved] at h
  rw [isReserved_iff] at hreserved
  cases scope with
  | none =>
    have hname : implicitName ≠ name := fun hname => hreserved ⟨hname.symm, by simp⟩
    cases h
    exact ⟨rfl, by simpa [Expr.openNames, Expr.isResolved] using hname, rfl⟩
  | some scope =>
    have hopen := openNames_var_item m scope span name
    obtain ⟨declared, className⟩ := scope
    cases declared with
    | none =>
      have hname : implicitName ≠ name := fun hname => hreserved ⟨hname.symm, by simp⟩
      have hiff : isImplicitFeature m (some ⟨none, className⟩) name = true ↔ _ := isImplicitFeature_iff hname.symm
      by_cases hfeature : Expr.namesFeature m ⟨none, className⟩ name
      · -- the element is bound by the closure, and the name is not a variable
        rw [if_pos (hiff.2 hfeature)] at h
        rw [if_pos (.inr hfeature)] at hopen
        cases h
        exact ⟨hopen.symm, by simp [hopen], rfl⟩
      · rw [if_neg (fun h => hfeature (hiff.1 h))] at h
        rw [if_neg (by simp [hfeature])] at hopen
        cases h
        refine ⟨?_, by simpa [hopen] using hname, rfl⟩
        simpa [hopen, leftFree, Term.names, boundName] using hname.symm
    | some given =>
      cases h
      by_cases hgiven : given = name
      · subst hgiven
        rw [if_pos (.inl rfl)] at hopen
        refine ⟨?_, by simp [hopen], rfl⟩
        simp [hopen, leftFree, Term.names, boundName]
      · have hname : implicitName ≠ name := by
          rintro rfl
          exact hreserved ⟨rfl, by simpa using hgiven⟩
        rw [if_neg (by simp [Expr.namesFeature, hgiven])] at hopen
        refine ⟨?_, by simpa [hopen] using hname, rfl⟩
        simpa [hopen, leftFree, Term.names, boundName] using Ne.symm hgiven

structure NamesOfSteps (m : Metamodel) (e : Expr) (className : Option String) (is : List Instruction) : Prop where
  elements : className = e.elementClass m
  free : Instruction.freeNamesAll is = inputName :: e.openNames m []
  notImplicit : implicitName ∉ e.openNames m []
  extent : e.startsAtExtent = true

def HasNames (m : Metamodel) (scope : Option IteratorScope) (e : Expr) : Translated → Prop
  | .value t => NamesOf m scope e t
  | .traversal className is => scope = none → NamesOfSteps m e className is

theorem NamesOfSteps.feature {source : Expr} {className : Option String} {is : List Instruction} (span : Span)
    (feature : String) (h : NamesOfSteps m source className is) :
    NamesOfSteps m (.navigation span source feature) (featureStep m className feature).1
      (is ++ [(featureStep m className feature).2]) := by
  obtain ⟨rfl, hfree, himplicit, hextent⟩ := h
  refine ⟨featureStep_class .., ?_, himplicit, hextent⟩
  rw [Instruction.freeNamesAll_append, hfree, Instruction.freeNamesAll, freeNames_featureStep]
  exact List.append_nil _

theorem NamesOfSteps.call {source : Expr} {className : Option String} {is : List Instruction}
    {name stepName : String} {keepsClass : Bool} (span : Span) (hname : traversalCall? name = some (stepName, keepsClass))
    (h : NamesOfSteps m source className is) :
    NamesOfSteps m (.collectionCall span source name []) (if keepsClass then className else none)
      (is ++ [Instruction.step stepName (callArguments stepName)]) := by
  obtain ⟨rfl, hfree, himplicit, hextent⟩ := h
  have hnames : Expr.openNames m [] (.collectionCall span source name []) = source.openNames m [] := by
    rw [Expr.openNames, Expr.openNamesAll, List.append_nil]
  refine ⟨?_, ?_, by rwa [hnames], hextent⟩
  · rw [keepsClass_eq hname, Expr.elementClass]
    simp
  · rw [Instruction.freeNamesAll_append, hfree, Instruction.freeNamesAll, Instruction.freeNames,
      freeNames_callArguments, hnames]
    exact List.append_nil _

theorem NamesOfSteps.iterator {source body : Expr} {declared className : Option String} {is : List Instruction}
    {t : Term} (span : Span) (kind : Expr.IteratorKind) (h : NamesOfSteps m source className is)
    (hb : NamesOf m (some ⟨declared, className⟩) body t) :
    HasNames m none (.iterator span source kind declared body) (iterated className is kind declared t) := by
  obtain ⟨rfl, hfree, himplicit, hextent⟩ := h
  obtain ⟨hfree', himplicit', -⟩ := hb
  refine fun _ => ⟨iteratorEnd_class .., ?_, ?_, hextent⟩
  · simp only [Instruction.freeNamesAll_append, Instruction.freeNamesAll, Instruction.freeNames, hfree,
      names_iteratorBody, freeNames_iteratorEnd, List.append_nil, List.cons_append, Expr.openNames]
    rw [leftFree] at hfree'
    rw [hfree']
    rfl
  · rw [Expr.openNames, List.mem_append, not_or]
    exact ⟨himplicit, himplicit'⟩

theorem NamesOfSteps.binary {left right : Expr} {className : Option String} {is : List Instruction} {r : Term}
    (span : Span) (op : Expr.BinaryOp) (h : NamesOfSteps m left className is) (hr : NamesOf m none right r) :
    HasNames m none (.binary span op left right) (transformed is (combineTerms op (.var implicitName) r)) := by
  obtain ⟨-, hfree, himplicit, hextent⟩ := h
  obtain ⟨hfree', himplicit', -⟩ := hr
  have hopen : r.names = right.openNames m [] := hfree'
  have hkept : (right.openNames m []).filter (· != implicitName) = right.openNames m [] := by
    refine List.filter_eq_self.2 fun x hx => ?_
    have hx : x ≠ implicitName := ne_of_mem_of_not_mem hx himplicit'
    simpa using hx
  refine fun _ => ⟨rfl, ?_, ?_, hextent⟩
  · rw [freeNames_transform, hfree, names_combineTerms, Term.names, List.filter_append, hopen, hkept]
    rfl
  · rw [Expr.openNames, List.mem_append, not_or]
    exact ⟨himplicit, himplicit'⟩

theorem NamesOfSteps.unary {operand : Expr} {className : Option String} {is : List Instruction} (span : Span)
    (op : Expr.UnaryOp) (h : NamesOfSteps m operand className is) :
    HasNames m none (.unary span op operand) (transformed is (.unary (unaryOp op) (.var implicitName))) := by
  obtain ⟨-, hfree, himplicit, hextent⟩ := h
  refine fun _ => ⟨rfl, ?_, himplicit, hextent⟩
  rw [freeNames_transform, hfree]
  exact List.append_nil _

theorem NamesOf.append {scope : Option IteratorScope} {left right : Expr} {l r : Term} (hl : NamesOf m scope left l)
    (hr : NamesOf m scope right r) :
    leftFree scope (l.names ++ r.names) = left.openNames m scope.toList ++ right.openNames m scope.toList ∧
      implicitName ∉ left.openNames m scope.toList ++ right.openNames m scope.toList := by
  rw [leftFree_append, hl.free, hr.free, List.mem_append, not_or]
  exact ⟨rfl, hl.notImplicit, hr.notImplicit⟩

mutual
theorem hasNames_of_becomes {scope : Option IteratorScope} {e : Expr} {out : Translated} :
    Becomes m scope e out → HasNames m scope e out
  | .literal => ⟨leftFree_nil scope, List.not_mem_nil, rfl⟩
  | .var h => namesOf_var h
  | .collection h => by
    obtain ⟨hfree, himplicit⟩ := namesOf_of_becomeAll h
    exact ⟨hfree, himplicit, rfl⟩
  | .property h => by
    obtain ⟨hfree, himplicit, hextent⟩ := hasNames_of_becomes h
    exact ⟨hfree, himplicit, hextent⟩
  | .operation _ hs ha => by
    have hs := hasNames_of_becomes hs
    obtain ⟨hfree, himplicit⟩ := hs.append (hasNames_of_becomes ha)
    refine ⟨?_, ?_, hs.notExtent⟩
    · simpa only [Expr.openNames, Expr.openNamesAll, List.append_nil, Term.names, names_single] using hfree
    · simpa only [Expr.openNames, Expr.openNamesAll, List.append_nil] using himplicit
  | .binary hl hr => by
    have hl := hasNames_of_becomes hl
    obtain ⟨hfree, himplicit⟩ := hl.append (hasNames_of_becomes hr)
    exact ⟨by rw [names_combineTerms, hfree, Expr.openNames], by rwa [Expr.openNames], hl.notExtent⟩
  | .unary h => by
    obtain ⟨hfree, himplicit, hextent⟩ := hasNames_of_becomes h
    exact ⟨hfree, himplicit, hextent⟩
  | .extent _ => fun _ => ⟨rfl, rfl, List.not_mem_nil, rfl⟩
  | .feature h => fun hscope => (hasNames_of_becomes h hscope).feature _ _
  | .call hname h => fun hscope => (hasNames_of_becomes h hscope).call _ hname
  | .iterator hs hb => by
    rintro rfl
    exact (hasNames_of_becomes hs rfl).iterator _ _ (hasNames_of_becomes hb) rfl
  | .binaryEach hl hr => by
    rintro rfl
    exact (hasNames_of_becomes hl rfl).binary _ _ (hasNames_of_becomes hr) rfl
  | .unaryEach h => by
    rintro rfl
    exact (hasNames_of_becomes h rfl).unary _ _ rfl

theorem namesOf_of_becomeAll {scope : Option IteratorScope} {es : List Expr} {ts : List Term} :
    BecomeAll m scope es ts → leftFree scope (Term.namesAll ts) = Expr.openNamesAll m scope.toList es ∧
      implicitName ∉ Expr.openNamesAll m scope.toList es
  | .nil => ⟨leftFree_nil scope, List.not_mem_nil⟩
  | .cons h hs => by
    obtain ⟨hfree, himplicit, -⟩ := hasNames_of_becomes h
    obtain ⟨hfree', himplicit'⟩ := namesOf_of_becomeAll hs
    constructor
    · rw [Expr.openNamesAll, Term.namesAll, leftFree_append, hfree, hfree']
    · rw [Expr.openNamesAll, List.mem_append, not_or]
      exact ⟨himplicit, himplicit'⟩
end

theorem translate_namesOf (e : Expr) {scope : Option IteratorScope} {context : Context} {t : Term}
    (h : translate m scope context e = .ok (.value t)) : NamesOf m scope e t :=
  hasNames_of_becomes (translate_becomes e h)

theorem translate_namesOfSteps (e : Expr) {context : Context} {className : Option String} {is : List Instruction}
    (h : translate m none context e = .ok (.traversal className is)) : NamesOfSteps m e className is :=
  hasNames_of_becomes (translate_becomes e h) rfl

end Compile

/-- The variables of a compiled expression that are free are the store that queries read, if the sources start at a
class, and then the open names of the expression, occurrence by occurrence. The implicit name is not among them. -/
theorem Expr.compile_hygienic {m : Metamodel} {e : Expr} {checked : Bool} {s : Script}
    (h : e.compile m checked = .ok s) :
    Instruction.freeNamesAll s.instructions =
        (if e.startsAtExtent then [inputName] else []) ++ e.openNames m [] ∧
      s.freeVariables = ((if e.startsAtExtent then [inputName] else []) ++ e.openNames m []).eraseDups ∧
      implicitName ∉ s.freeVariables := by
  obtain ⟨t, ht, rfl, -⟩ := compile_eq_ok.1 h
  have hnames : Instruction.freeNamesAll t.script.instructions =
      (if e.startsAtExtent then [inputName] else []) ++ e.openNames m [] ∧ implicitName ∉ e.openNames m [] := by
    cases t with
    | traversal className is =>
      obtain ⟨-, hfree, himplicit, hextent⟩ := translate_namesOfSteps e ht
      rw [if_pos hextent]
      exact ⟨hfree, himplicit⟩
    | value t =>
      obtain ⟨hfree, himplicit, hextent⟩ := translate_namesOf e ht
      rw [if_neg (by simp [hextent])]
      exact ⟨(List.append_nil _).trans hfree, himplicit⟩
  obtain ⟨hnames, himplicit⟩ := hnames
  refine ⟨hnames, by rw [Script.freeVariables_eq, hnames], ?_⟩
  rw [Script.mem_freeVariables, hnames, List.mem_append, not_or]
  refine ⟨?_, himplicit⟩
  split <;> decide

def Expr.adultNames : Expr :=
  let here : Span := ⟨0, 1⟩
  let adults : Expr := .iterator here (.extent here none "Person") .select (some implicitName)
    (.binary here .greater (.navigation here (.var here implicitName) "age") (.var here "limit"))
  .binary here .add (.iterator here adults .collect none (.binary here .add (.var here "name") (.var here "suffix")))
    (.var here "limit")

def people : Metamodel :=
  Metamodel.withClass default ((MetaClass.mk "Person" []).withAttribute "age" |>.withAttribute "name")

theorem Expr.compile_hygienic_adultNames : ∃ s, adultNames.compile people true = .ok s ∧
    Instruction.freeNamesAll s.instructions = ["input", "limit", "suffix", "limit"] ∧
      s.freeVariables = ["input", "limit", "suffix"] := by
  have hcompile : ∃ s, adultNames.compile people true = .ok s :=
    ⟨_, compile_eq_ok.2 ⟨_, rfl, rfl, fun _ => rfl⟩⟩
  obtain ⟨s, hs⟩ := hcompile
  obtain ⟨hnames, hfree, -⟩ := Expr.compile_hygienic hs
  exact ⟨s, hs, hnames.trans (by decide), hfree.trans (by decide)⟩

end GraphQuery
