import GraphQuery.Proofs.Arena.Assembly
import GraphQuery.Proofs.Compile.Growth

namespace GraphQuery.Compile

open Arena

def Stands (a : Arena) (loose : List Node) : Translated → Lowered → Arena → Prop
  | .value t, .value id, b => Makes a loose t id b
  | .traversal className is, .traversal className', b => className' = className ∧ Grows a loose is b
  | _, _, _ => False

def StandAll (a : Arena) (loose : List Node) (ts : List Term) (ids : List TermId) (b : Arena) : Prop :=
  Grows a (ids.map .term ++ loose) [] b ∧ TermsAt b ids ts

section Parts

variable {m : Metamodel} {a b : Arena} {loose : List Node}

theorem lowerName_simulates (scope : Option IteratorScope) (node : Expr) (name : String)
    (h : Ready a loose) :
    Simulates (translateName m scope node name) (lowerName m scope node name) a (Stands a loose) := by
  unfold translateName lowerName
  split
  · rfl
  · split
    · obtain ⟨it, b, hit, hmade⟩ := var_makes implicitName h
      obtain ⟨id, c, hterm, hgrows, hnode⟩ := term_grows (.property it name) hmade.1.ready
      apply Simulates.before hit
      apply Simulates.before hterm
      exact .ok ⟨hmade.1.trans hgrows, it, hnode, hmade.2.mono hgrows.extension.terms⟩
    · obtain ⟨id, b, hterm, hmade⟩ := var_makes name h
      exact .before hterm (.ok hmade)

theorem lowerExtent_simulates (context : Context) (node : Expr) (className : String) (h : Ready a loose) :
    Simulates (translateExtent m context node className) (lowerExtent m context node className) a
      (Stands a loose) := by
  cases context with
  | operand => rfl
  | body => rfl
  | root =>
    simp only [translateExtent, lowerExtent]
    split
    · rfl
    · obtain ⟨input, b, hinput, hmade⟩ := var_makes inputName h
      obtain ⟨c, hv, hgrows⟩ :=
        appendStep_grows "V" [input] [.var inputName] hmade.1.ready ⟨hmade.2, trivial⟩
      obtain ⟨label, d, hlabel, hmade'⟩ := literal_makes (.string className) hgrows.ready
      obtain ⟨e, hlast, hgrows'⟩ :=
        appendStep_grows "hasLabel" [label] [.literal (.string className)] hmade'.1.ready ⟨hmade'.2, trivial⟩
      apply Simulates.before hinput
      apply Simulates.before hv
      apply Simulates.before hlabel
      apply Simulates.before hlast
      exact .ok ⟨rfl, ((hmade.1.trans hgrows).trans hmade'.1).trans hgrows'⟩

theorem literalStep_grows (name : String) (value : Literal) (h : Ready a loose) :
    ∃ id b c, term (.literal value) a = .ok (id, b) ∧ appendStep name [id] b = .ok ((), c) ∧
      Grows a loose [.step name [.literal value]] c := by
  obtain ⟨id, b, hterm, hmade⟩ := literal_makes value h
  obtain ⟨c, hstep, hgrows⟩ :=
    appendStep_grows name [id] [.literal value] hmade.1.ready ⟨hmade.2, trivial⟩
  exact ⟨id, b, c, hterm, hstep, hmade.1.trans hgrows⟩

theorem lowerFeature_grows (m : Metamodel) (className : Option String) (feature : String) (h : Ready a loose) :
    ∃ b, lowerFeature m className feature a = .ok (.traversal (featureStep m className feature).1, b) ∧
      Grows a loose [(featureStep m className feature).2] b := by
  unfold lowerFeature featureStep
  cases (m.feature? className feature).filter (·.isReference) with
  | some f =>
    obtain ⟨id, b, c, hterm, hstep, hgrows⟩ := literalStep_grows "out" (.string feature) h
    exact ⟨c, (stateT_bind_of_ok hterm).trans (stateT_bind_of_ok hstep), hgrows⟩
  | none =>
    obtain ⟨id, b, c, hterm, hstep, hgrows⟩ := literalStep_grows "values" (.string feature) h
    exact ⟨c, (stateT_bind_of_ok hterm).trans (stateT_bind_of_ok hstep), hgrows⟩

theorem lowerTraversalCall_simulates {is : List Instruction} (node : Expr) (className : Option String)
    (name : String) (given : Nat) (hgrows : Grows a loose is b) :
    Simulates (translateCall node className is name given) (lowerTraversalCall node className name given) b
      (Stands a loose) := by
  unfold translateCall lowerTraversalCall callArguments
  cases traversalCall? name with
  | none => rfl
  | some call =>
    obtain ⟨stepName, keepsClass⟩ := call
    simp only
    split
    · rfl
    · by_cases hlimit : stepName = "limit"
      · simp only [if_pos hlimit, pure_bind]
        obtain ⟨id, c, d, hterm, hstep, hgrows'⟩ := literalStep_grows stepName (.integer 1) hgrows.ready
        apply Simulates.before hterm
        apply Simulates.before hstep
        exact .ok ⟨rfl, hgrows.trans hgrows'⟩
      · simp only [if_neg hlimit, pure_bind]
        obtain ⟨c, hstep, hgrows'⟩ := appendStep_grows stepName [] [] hgrows.ready trivial
        apply Simulates.before hstep
        exact .ok ⟨rfl, hgrows.trans hgrows'⟩

theorem afterIterator_grows (className : Option String) (kind : Expr.IteratorKind) (h : Ready a loose) :
    ∃ b, afterIterator className kind a = .ok (.traversal (iteratorEnd className kind).1, b) ∧
      Grows a loose (iteratorEnd className kind).2 b := by
  cases kind with
  | select => exact ⟨a, rfl, .refl h⟩
  | reject => exact ⟨a, rfl, .refl h⟩
  | collect => exact ⟨a, rfl, .refl h⟩
  | exist =>
    obtain ⟨b, hstep, hgrows⟩ := appendStep_grows "hasNext" [] [] h trivial
    exact ⟨b, stateT_bind_of_ok hstep, hgrows⟩
  | forAll =>
    obtain ⟨b, hstep, hgrows⟩ := appendStep_grows "isEmpty" [] [] h trivial
    exact ⟨b, stateT_bind_of_ok hstep, hgrows⟩

theorem asValue_simulates {t : Translated} {l : Lowered} (node : Expr) (h : Stands a loose t l b) :
    Simulates (valueOnly node t) (asValue node l) b (Makes a loose) := by
  cases t <;> cases l
  · rfl
  · cases h
  · cases h
  · exact .ok h

theorem operation_simulates {l r : TermId} {left right : Term} (op : Term.BinaryOp) (single : Bool)
    {loose' : List Node} (h : Grows a loose' [] b) (hready : Ready b (.term l :: .term r :: loose))
    (hl : TermAt b l left) (hr : TermAt b r right) :
    Simulates (.ok (.value (.binary op left (if single then .list [right] else right))))
      (do
        let right ← if single then term (.list [r]) else pure r
        return .value (← term (.binary op l right))) b (Stands a loose) := by
  cases single with
  | false =>
    obtain ⟨id, c, hterm, hgrows, hnode⟩ := term_grows (.binary op l r) hready
    have hk := hgrows.extension.terms
    exact .before rfl (.before hterm (.ok ⟨h.trans hgrows, l, r, hnode, hl.mono hk, hr.mono hk⟩))
  | true =>
    obtain ⟨r', c, hlist, hgrows, hnode⟩ := term_grows (.list [r]) (hready.perm (List.Perm.swap ..))
    obtain ⟨id, d, hterm, hgrows', hnode'⟩ :=
      term_grows (.binary op l r') (hgrows.ready.perm (List.Perm.swap ..))
    have hk := hgrows'.extension.terms
    have hl := hl.mono hgrows.extension.terms
    have hr := hr.mono hgrows.extension.terms
    exact .before hlist (.before hterm (.ok ⟨(h.trans hgrows).trans hgrows', l, r', hnode', hl.mono hk,
      [r], hk hnode, hr.mono hk, trivial⟩))

theorem iterated_simulates {is : List Instruction} {className declared : Option String} {i : InstructionId}
    {id : TermId} {t : Term} {c : Arena} (kind : Expr.IteratorKind) (h : Grows a loose is b)
    (hfresh : b.instructionNode? i = none) (hgrows : Grows b (.term id :: .instruction i :: loose) [] c)
    (hnode : c.instructionNode? i = some (.closure (closureName kind) declared [] false))
    (ht : TermAt c id t) :
    Simulates (.ok (iterated className is kind declared t))
      (do
        let value ← if negates kind then term (.unary .not id) else pure id
        appendClosure i value
        afterIterator className kind) c (Stands a loose) := by
  have hfill : ∀ {id' d}, Grows b (.term id' :: .instruction i :: loose) [] d →
      d.instructionNode? i = some (.closure (closureName kind) declared [] false) →
      TermAt d id' (iteratorBody kind t) →
      Simulates (.ok (iterated className is kind declared t))
        (do appendClosure i id'; afterIterator className kind) d (Stands a loose) := by
    intro id' d hgrows hnode ht
    obtain ⟨d', happend, hgrows'⟩ := appendClosure_grows hgrows hfresh hnode ht
    obtain ⟨f, hend, hgrows''⟩ := afterIterator_grows className kind hgrows'.ready
    apply Simulates.before happend
    exact ⟨_, f, hend, rfl, h.trans (hgrows'.trans hgrows'')⟩
  unfold iteratorBody at hfill
  cases hnegates : negates kind with
  | false =>
    rw [hnegates] at hfill
    exact .before rfl (hfill hgrows hnode ht)
  | true =>
    rw [hnegates] at hfill
    obtain ⟨id', d, hterm, hgrows', hnode'⟩ := term_grows (.unary .not id) hgrows.ready
    apply Simulates.before hterm
    exact hfill (hgrows.keep hgrows') (hgrows'.extension.instructions hnode)
      ⟨id, hnode', ht.mono hgrows'.extension.terms⟩

theorem transformed_simulates {is : List Instruction} {r : TermId} {right : Term} (op : Expr.BinaryOp)
    (h : Grows a (.term r :: loose) is b) (hr : TermAt b r right) :
    Simulates (.ok (transformed is (combineTerms op (.var implicitName) right)))
      (do transform (← combine op (← term (.var implicitName)) r)) b (Stands a loose) := by
  obtain ⟨it, c, hit, hgrows, hvar⟩ := var_makes implicitName h.ready
  obtain ⟨id, d, hcombine, hgrows', hterm⟩ :=
    combine_makes op hgrows.ready hvar (hr.mono hgrows.extension.terms)
  obtain ⟨f, htransform, hgrows''⟩ := transform_grows hgrows'.ready hterm
  apply Simulates.before hit
  apply Simulates.before hcombine
  exact ⟨_, f, htransform, rfl, ((h.keep hgrows).keep hgrows').trans hgrows''⟩

end Parts

mutual
theorem lower_simulates (m : Metamodel) : (e : Expr) → ∀ (scope : Option IteratorScope) (context : Context)
    {a : Arena} {loose : List Node}, Ready a loose →
    Simulates (translate m scope context e) (lower m scope context e) a (Stands a loose)
  | .literal _ value, scope, context, a, loose, h => by
    obtain ⟨id, b, hterm, hmade⟩ := literal_makes value h
    rw [translate, lower]
    exact .before hterm (.ok hmade)
  | .var span name, scope, context, a, loose, h => by
    rw [translate, lower]
    exact lowerName_simulates scope _ name h
  | .collection _ _ items, scope, context, a, loose, h => by
    rw [translate, lower]
    apply (lowerAll_simulates m items scope context.inner h).bind
    rintro ts ids b ⟨hgrows, hts⟩
    obtain ⟨id, c, hterm, hgrows', hnode⟩ := term_grows (.list ids) hgrows.ready
    exact .before hterm (.ok ⟨hgrows.trans hgrows', ids, hnode, hts.mono hgrows'.extension.terms⟩)
  | .extent span metamodel className, scope, context, a, loose, h => by
    rw [translate, lower]
    exact lowerExtent_simulates context _ className h
  | .navigation _ source feature, scope, context, a, loose, h => by
    rw [translate, lower]
    apply (lower_simulates m source scope context h).bind
    rintro (⟨_, is⟩ | t) (className | id) b hstands
    · obtain ⟨rfl, hgrows⟩ := hstands
      obtain ⟨c, hfeature, hgrows'⟩ := lowerFeature_grows m className feature hgrows.ready
      exact ⟨_, c, hfeature, rfl, hgrows.trans hgrows'⟩
    · cases hstands
    · cases hstands
    · obtain ⟨id', c, hterm, hgrows, hnode⟩ := term_grows (.property id feature) hstands.1.ready
      exact .before hterm (.ok ⟨hstands.1.trans hgrows, id, hnode, hstands.2.mono hgrows.extension.terms⟩)
  | .collectionCall span source name arguments, scope, context, a, loose, h => by
    rw [translate, lower]
    apply (lower_simulates m source scope context h).bind
    rintro (⟨_, is⟩ | left) (className | l) b hstands
    · obtain ⟨rfl, hgrows⟩ := hstands
      exact lowerTraversalCall_simulates _ className name arguments.length hgrows
    · cases hstands
    · cases hstands
    · simp only
      cases valueCall? name with
      | none => rfl
      | some call =>
        obtain ⟨op, single⟩ := call
        apply (lowerSole_simulates m arguments scope context.inner _ hstands.1.ready).bind
        rintro right r c ⟨hgrows, hright⟩
        have hready := hgrows.ready.perm (List.Perm.swap ..)
        have hleft := hstands.2.mono hgrows.extension.terms
        exact operation_simulates op single (hstands.1.trans hgrows) hready hleft hright
  | .iterator span source kind declared body, scope, context, a, loose, h => by
    rw [translate, lower]
    apply (lower_simulates m source scope context h).bind
    rintro (⟨_, is⟩ | t) (className | id) b hstands
    · obtain ⟨rfl, hgrows⟩ := hstands
      obtain ⟨i, c, hclosure, hgrows₁, hfresh, hnode⟩ :=
        closure_grows (closureName kind) declared hgrows.ready
      apply Simulates.before hclosure
      apply (lower_simulates m body (some ⟨declared, className⟩) .body hgrows₁.ready).bind
      intro t l d hstands
      apply (asValue_simulates body hstands).bind
      intro t id d' hmade
      exact iterated_simulates kind hgrows hfresh (hgrows₁.keep hmade.1)
        (hmade.1.extension.instructions hnode) hmade.2
    · cases hstands
    · cases hstands
    · rfl
  | .binary _ op left right, scope, context, a, loose, h => by
    rw [translate, lower]
    apply (lower_simulates m left scope context h).bind
    rintro (⟨_, is⟩ | left') (className | l) b hstands
    · obtain ⟨rfl, hgrows⟩ := hstands
      apply (lower_simulates m right scope context.inner hgrows.ready).bind
      intro t r c hstands
      apply (asValue_simulates right hstands).bind
      rintro right' r c' ⟨hgrows', hright⟩
      exact transformed_simulates op (hgrows.keep hgrows') hright
    · cases hstands
    · cases hstands
    · apply (lower_simulates m right scope context.inner hstands.1.ready).bind
      intro t r c hstands'
      apply (asValue_simulates right hstands').bind
      rintro right' r c' ⟨hgrows', hright⟩
      have hready := hgrows'.ready.perm (List.Perm.swap ..)
      obtain ⟨id, d, hcombine, hgrows₃, hterm⟩ :=
        combine_makes op hready (hstands.2.mono hgrows'.extension.terms) hright
      exact .before hcombine (.ok ⟨(hstands.1.trans hgrows').trans hgrows₃, hterm⟩)
  | .unary _ op operand, scope, context, a, loose, h => by
    rw [translate, lower]
    apply (lower_simulates m operand scope context h).bind
    rintro (⟨_, is⟩ | t) (className | id) b hstands
    · obtain ⟨rfl, hgrows⟩ := hstands
      obtain ⟨it, c, hit, hgrows', hvar⟩ := var_makes implicitName hgrows.ready
      obtain ⟨id, d, hterm, hgrows'', hnode⟩ := term_grows (.unary (unaryOp op) it) hgrows'.ready
      have hunary : TermAt d id (.unary (unaryOp op) (.var implicitName)) :=
        ⟨it, hnode, hvar.mono hgrows''.extension.terms⟩
      obtain ⟨f, htransform, hgrows₃⟩ := transform_grows hgrows''.ready hunary
      apply Simulates.before hit
      apply Simulates.before hterm
      exact ⟨_, f, htransform, rfl, ((hgrows.keep hgrows').keep hgrows'').trans hgrows₃⟩
    · cases hstands
    · cases hstands
    · obtain ⟨id', c, hterm, hgrows, hnode⟩ := term_grows (.unary (unaryOp op) id) hstands.1.ready
      exact .before hterm (.ok ⟨hstands.1.trans hgrows, id, hnode, hstands.2.mono hgrows.extension.terms⟩)
  | .operation .., _, _, _, _, _ => by rw [translate, lower]; rfl
  | .typeName .., _, _, _, _, _ => by rw [translate, lower]; rfl
  | .conditional .., _, _, _, _, _ => by rw [translate, lower]; rfl
  | .letIn .., _, _, _, _, _ => by rw [translate, lower]; rfl

theorem lowerAll_simulates (m : Metamodel) : (es : List Expr) → ∀ (scope : Option IteratorScope)
    (context : Context) {a : Arena} {loose : List Node}, Ready a loose →
    Simulates (translateAll m scope context es) (lowerAll m scope context es) a (StandAll a loose)
  | [], scope, context, a, loose, h => by
    rw [translateAll, lowerAll]
    exact .ok ⟨.refl h, trivial⟩
  | e :: es, scope, context, a, loose, h => by
    rw [translateAll, lowerAll]
    apply (lower_simulates m e scope context h).bind
    intro t l b hstands
    apply (asValue_simulates e hstands).bind
    rintro t id c ⟨hgrows, ht⟩
    apply (lowerAll_simulates m es scope context hgrows.ready).bind
    rintro ts ids d ⟨hgrows', hts⟩
    refine .ok ⟨(hgrows.trans hgrows').perm ?_, ht.mono hgrows'.extension.terms, hts⟩
    exact List.perm_middle

theorem lowerSole_simulates (m : Metamodel) : (es : List Expr) → ∀ (scope : Option IteratorScope)
    (context : Context) (otherwise : Error) {a : Arena} {loose : List Node}, Ready a loose →
    Simulates (translateSole m scope context otherwise es) (lowerSole m scope context otherwise es) a
      (Makes a loose)
  | [], scope, context, otherwise, a, loose, h => by
    rw [translateSole, lowerSole] <;> first | rfl | simp
  | [e], scope, context, otherwise, a, loose, h => by
    rw [translateSole, lowerSole]
    apply (lower_simulates m e scope context h).bind
    intro t l b hstands
    exact asValue_simulates e hstands
  | _ :: _ :: _, scope, context, otherwise, a, loose, h => by
    rw [translateSole, lowerSole] <;> first | rfl | simp
end

theorem lowerRoot_simulates (m : Metamodel) (e : Expr) :
    Simulates (translate m none .root e) (lowerRoot m e) {}
      (fun t _ a => Grows {} [] t.script.instructions a) := by
  have h := lower_simulates m e none .root Ready.empty
  rw [← bind_pure (translate m none .root e), lowerRoot]
  apply h.bind
  rintro (⟨_, is⟩ | t) (_ | id) b hstands
  · exact .ok hstands.2
  · cases hstands
  · cases hstands
  · obtain ⟨c, happend, hgrows⟩ := appendStatement_grows hstands.1.ready hstands.2
    exact ⟨(), c, happend, hstands.1.trans hgrows⟩

theorem conclude_of_grows {a : Arena} {s : Script} (checked : Bool) (h : Grows {} [] s.instructions a) :
    conclude checked a = inspected checked s := by
  have hforest := h.ready.forest
  have hfinish : a.finish checked = .ok s := by
    obtain ⟨s', _, hs', hunfolds, -⟩ := assemble_ok hforest
    obtain ⟨ids, hids, his⟩ := h.root
    have hroot : a.root = ids := by simpa using hids
    have heq : s' = s := by
      cases s; cases s'
      exact congrArg Script.mk (InstructionsAt.unique hunfolds (hroot ▸ his))
    rw [hforest.finish_eq]
    obtain ⟨_, n, -, -, hloose⟩ | ⟨-, hassemble⟩ := finish_cases a
    · simpa using (h.ready.loose n).1 hloose
    · rw [hassemble, hs', heq]
  rw [conclude, hforest.checkTree, hfinish]
  cases checked <;> rfl

end GraphQuery.Compile

namespace GraphQuery

open Compile

theorem Expr.compile_eq (m : Metamodel) (checked : Bool) (e : Expr) :
    e.compile m checked = (do inspected checked (← translate m none .root e).script) := by
  have h := lowerRoot_simulates m e
  unfold Simulates at h
  rw [Expr.compile]
  split at h
  · rename_i err ht
    rw [ht]
    exact congrArg (· >>= _) h
  · rename_i t ht
    obtain ⟨_, a, hlower, hgrows⟩ := h
    rw [ht, ok_bind, ← conclude_of_grows checked hgrows]
    exact congrArg (· >>= _) hlower

end GraphQuery
