import GraphQuery.Machine.Run
import GraphQuery.Proofs.Except
import GraphQuery.Proofs.Script.Scope

namespace GraphQuery.Machine

def SameStores (env env' : Environment) : Prop :=
  ∀ id, env.storeById? id = env'.storeById? id

def AgreeOn (env env' : Environment) (scope : Scope) (names : List String) : Prop :=
  ∀ x ∈ names, x ∉ scope.map (·.1) → env.get? x = env'.get? x

section

variable {env env' : Environment} {stores : Stores} {scope : Scope} {names names' : List String}

theorem AgreeOn.mono (h : AgreeOn env env' scope names') (hsub : names ⊆ names') :
    AgreeOn env env' scope names :=
  fun x hx => h x (hsub hx)

theorem AgreeOn.bind (h : AgreeOn env env' scope names) (name : String) (v : Value) :
    AgreeOn env env' ((name, v) :: scope) names := by
  intro x hx hscope
  apply h x hx
  intro hmem
  exact hscope (List.mem_cons_of_mem _ hmem)

theorem AgreeOn.closure {parameter : Option String}
    (h : AgreeOn env env' scope (names.filter (· != boundName parameter))) (v : Value) :
    AgreeOn env env' ((boundName parameter, v) :: scope) names := by
  intro x hx hscope
  rw [List.map_cons, List.mem_cons, not_or] at hscope
  exact h x (List.mem_filter.2 ⟨hx, by simpa using hscope.1⟩) hscope.2

theorem find?_eq_none {x : String} : scope.find? (·.1 == x) = none ↔ x ∉ scope.map (·.1) := by
  simp only [List.find?_eq_none, beq_iff_eq, List.mem_map, not_exists, not_and]

theorem valueOf_congr {x : String} (h : AgreeOn env env' scope [x]) :
    World.valueOf ⟨env, stores⟩ scope x = World.valueOf ⟨env', stores⟩ scope x := by
  unfold World.valueOf
  cases hfind : scope.find? (·.1 == x) with
  | some entry => rfl
  | none =>
    simp only [h x List.mem_cons_self (find?_eq_none.1 hfind)]

theorem graphOf_congr (h : SameStores env env') (ref : ElementRef) :
    World.graphOf ⟨env, stores⟩ ref = World.graphOf ⟨env', stores⟩ ref := by
  unfold World.graphOf
  rw [h ref.store]

theorem contents_congr (h : SameStores env env') (ref : ElementRef) :
    World.contents ⟨env, stores⟩ ref = World.contents ⟨env', stores⟩ ref := by
  unfold World.contents
  rw [graphOf_congr h]

theorem lookup_congr (h : SameStores env env') (ref : ElementRef) :
    World.lookup ⟨env, stores⟩ ref = World.lookup ⟨env', stores⟩ ref := by
  unfold World.lookup
  rw [contents_congr h]

theorem adjacent_congr (h : SameStores env env') (ref : ElementRef) (direction : Direction)
    (label : Option String) :
    World.adjacent ⟨env, stores⟩ ref direction label = World.adjacent ⟨env', stores⟩ ref direction label := by
  unfold World.adjacent
  rw [contents_congr h]

theorem feature_congr (h : SameStores env env') (ref : ElementRef) (name : String) :
    World.feature ⟨env, stores⟩ ref name = World.feature ⟨env', stores⟩ ref name := by
  unfold World.feature
  rw [lookup_congr h, adjacent_congr h]

mutual
theorem navigate_congr (h : SameStores env env') (name : String) : (v : Value) →
    navigate ⟨env, stores⟩ name v = navigate ⟨env', stores⟩ name v
  | .element ref => by
    simp only [navigate, feature_congr h]
  | .list items => by
    simp only [navigate, navigateAll_congr h name items]
  | .null | .boolean _ | .integer _ | .float _ | .string _ => by
    simp only [navigate]

theorem navigateAll_congr (h : SameStores env env') (name : String) : (vs : List Value) →
    navigateAll ⟨env, stores⟩ name vs = navigateAll ⟨env', stores⟩ name vs
  | [] => by
    simp only [navigateAll]
  | v :: vs => by
    simp only [navigateAll, navigate_congr h name v, navigateAll_congr h name vs]
end

mutual
theorem evaluate_congr (hstores : SameStores env env') : (t : Term) → AgreeOn env env' scope t.names →
    evaluate ⟨env, stores⟩ scope t = evaluate ⟨env', stores⟩ scope t
  | .literal _, _ => by
    simp only [evaluate]
  | .var x, h => by
    simp only [evaluate]
    exact valueOf_congr h
  | .property target name, h => by
    simp only [evaluate, evaluate_congr hstores target h, navigate_congr hstores]
  | .list items, h => by
    simp only [evaluate, evaluateAll_congr hstores items h]
  | .unary _ operand, h => by
    simp only [evaluate, evaluate_congr hstores operand h]
  | .binary op left right, h => by
    have hleft := evaluate_congr hstores left (h.mono (List.subset_append_left _ _))
    have hright := evaluate_congr hstores right (h.mono (List.subset_append_right _ _))
    cases op <;> simp only [evaluate, hleft, hright]

theorem evaluateAll_congr (hstores : SameStores env env') : (ts : List Term) →
    AgreeOn env env' scope (Term.namesAll ts) →
    evaluateAll ⟨env, stores⟩ scope ts = evaluateAll ⟨env', stores⟩ scope ts
  | [], _ => by
    simp only [evaluateAll]
  | t :: ts, h => by
    simp only [evaluateAll, evaluate_congr hstores t (h.mono (List.subset_append_left _ _)),
      evaluateAll_congr hstores ts (h.mono (List.subset_append_right _ _))]
end

theorem stringArgument_congr (hstores : SameStores env env') (step : String) {t : Term}
    (h : AgreeOn env env' scope t.names) :
    stringArgument ⟨env, stores⟩ scope step t = stringArgument ⟨env', stores⟩ scope step t := by
  simp only [stringArgument, evaluate_congr hstores t h]

theorem stringArguments_congr (hstores : SameStores env env') (step : String) {ts : List Term}
    (h : AgreeOn env env' scope (Term.namesAll ts)) :
    stringArguments ⟨env, stores⟩ scope step ts = stringArguments ⟨env', stores⟩ scope step ts := by
  induction ts with
  | nil => rfl
  | cons t ts ih =>
    simp only [stringArguments, stringArgument_congr hstores step (h.mono (List.subset_append_left _ _)),
      ih (h.mono (List.subset_append_right _ _))]

theorem resolve_congr (hstores : SameStores env env') (step : String) (v : Value) :
    resolve ⟨env, stores⟩ step v = resolve ⟨env', stores⟩ step v := by
  simp only [resolve, lookup_congr hstores]

theorem keepElements_congr (hstores : SameStores env env') (step : String) (test : Element → Bool)
    (vs : List Value) :
    keepElements ⟨env, stores⟩ step test vs = keepElements ⟨env', stores⟩ step test vs := by
  induction vs with
  | nil => rfl
  | cons v vs ih => simp only [keepElements, resolve_congr hstores, ih]

theorem neighbours_congr (hstores : SameStores env env') (step : String) (direction : Direction)
    (label : Option String) :
    neighbours ⟨env, stores⟩ step direction label = neighbours ⟨env', stores⟩ step direction label := by
  funext v
  simp only [neighbours, adjacent_congr hstores]

theorem propertyValues_congr (hstores : SameStores env env') (step key : String) :
    propertyValues ⟨env, stores⟩ step key = propertyValues ⟨env', stores⟩ step key := by
  funext v
  simp only [propertyValues, resolve_congr hstores]

theorem limitArgument_congr (hstores : SameStores env env') {t : Term} (h : AgreeOn env env' scope t.names) :
    limitArgument ⟨env, stores⟩ scope t = limitArgument ⟨env', stores⟩ scope t := by
  simp only [limitArgument, evaluate_congr hstores t h]

theorem storeArgument_congr {x : String} (h : env.store? x = env'.store? x) (step : String) (position : Nat) :
    storeArgument ⟨env, stores⟩ step position (.var x) = storeArgument ⟨env', stores⟩ step position (.var x) := by
  simp only [storeArgument, h]

def Step.handleNames : Step → List Term → List String
  | .vertices, [.var g] => [g]
  | .addVertex, [.var g, _] => [g]
  | _, _ => []

theorem readStep_congr (hstores : SameStores env env') (name : String) {step : Step} {arguments : List Term}
    (h : AgreeOn env env' scope (Term.namesAll arguments))
    (hhandles : ∀ x ∈ step.handleNames arguments, env.store? x = env'.store? x) (stream : List Value) :
    readStep ⟨env, stores⟩ scope name step arguments stream =
      readStep ⟨env', stores⟩ scope name step arguments stream := by
  unfold readStep
  split
  · rename_i g
    cases g with
    | var x => simp only [storeArgument_congr (hhandles x List.mem_cons_self)]
    | _ => rfl
  · simp only [evaluateAll_congr hstores _ h]
  · simp only [stringArguments_congr hstores _ h, keepElements_congr hstores]
  · rename_i key expected
    simp only [Term.namesAll, List.append_nil] at h
    simp only [stringArgument_congr hstores _ (h.mono (List.subset_append_left _ _)),
      evaluate_congr hstores _ (h.mono (List.subset_append_right _ _)), keepElements_congr hstores]
  · simp only [neighbours_congr hstores]
  · simp only [Term.namesAll, List.append_nil] at h
    simp only [stringArgument_congr hstores _ h, neighbours_congr hstores]
  · simp only [Term.namesAll, List.append_nil] at h
    simp only [stringArgument_congr hstores _ h, propertyValues_congr hstores]
  · rfl
  · rfl
  · simp only [Term.namesAll, List.append_nil] at h
    simp only [limitArgument_congr hstores h]
  all_goals rfl

theorem addVertex_congr (hstores : SameStores env env') (name : String) {g label : Term}
    (h : AgreeOn env env' scope label.names)
    (hhandles : ∀ x, g = .var x → env.store? x = env'.store? x) :
    addVertex ⟨env, stores⟩ scope name g label = addVertex ⟨env', stores⟩ scope name g label := by
  have hg : storeArgument ⟨env, stores⟩ name 1 g = storeArgument ⟨env', stores⟩ name 1 g := by
    cases g with
    | var x => exact storeArgument_congr (hhandles x rfl) name 1
    | _ => rfl
  simp only [addVertex, hg, stringArgument_congr hstores name h]

theorem setPropertyOf_congr (hstores : SameStores env env') (name key : String) {value : Term}
    (h : AgreeOn env env' scope value.names) :
    setPropertyOf env scope name key value = setPropertyOf env' scope name key value := by
  funext v stores
  simp only [setPropertyOf, evaluate_congr hstores value (h.bind implicitName v), graphOf_congr hstores]

theorem runStep_congr (hstores : SameStores env env') {name : String} {arguments : List Term}
    (h : AgreeOn env env' scope (Term.namesAll arguments))
    (hhandles : ∀ step, Step.ofName? name = some step →
      ∀ x ∈ step.handleNames arguments, env.store? x = env'.store? x)
    (stream : List Value) (stores : Stores) :
    runStep env scope name arguments stream stores = runStep env' scope name arguments stream stores := by
  unfold runStep
  dsimp only
  split
  · rfl
  · rename_i g label hname
    simp only [Term.namesAll, List.append_nil] at h
    apply addVertex_congr hstores name (h.mono (List.subset_append_right _ _))
    rintro x rfl
    exact hhandles _ hname x List.mem_cons_self
  · simp only [Term.namesAll, List.append_nil] at h
    rw [stringArgument_congr hstores name (h.mono (List.subset_append_left _ _))]
    split
    · rfl
    · rw [setPropertyOf_congr hstores name _ (h.mono (List.subset_append_right _ _))]
  · rename_i step hname _ _
    rw [readStep_congr hstores name h (hhandles step hname)]

end

mutual
def handleNames : Instruction → List String
  | .step name arguments => (Step.ofName? name).elim [] (·.handleNames arguments)
  | .closure _ _ body => handleNamesAll body
  | .statement _ => []

def handleNamesAll : List Instruction → List String
  | [] => []
  | i :: is => handleNames i ++ handleNamesAll is
end

mutual
theorem runInstruction_congr {env env' : Environment} (hstores : SameStores env env') : (i : Instruction) →
    (∀ x ∈ handleNames i, env.store? x = env'.store? x) → ∀ (scope : Scope) (stream : List Value)
    (stores : Stores), AgreeOn env env' scope i.freeNames →
    runInstruction env scope i stream stores = runInstruction env' scope i stream stores
  | .step name arguments, hhandles, scope, stream, stores, h => by
    rw [runInstruction, runInstruction]
    apply runStep_congr hstores h
    intro step hname x hx
    apply hhandles
    rw [handleNames, hname]
    exact hx
  | .closure name parameter body, hhandles, scope, stream, stores, h => by
    rw [runInstruction, runInstruction]
    split
    · rfl
    · congr 1
      funext v stores
      rw [runBlock_congr hstores body hhandles _ _ stores (h.closure v)]
  | .statement term, _, scope, stream, stores, h => by
    rw [runInstruction, runInstruction, evaluate_congr hstores term h]

theorem runBlock_congr {env env' : Environment} (hstores : SameStores env env') : (is : List Instruction) →
    (∀ x ∈ handleNamesAll is, env.store? x = env'.store? x) → ∀ (scope : Scope) (stream : List Value)
    (stores : Stores), AgreeOn env env' scope (Instruction.freeNamesAll is) →
    runBlock env scope is stream stores = runBlock env' scope is stream stores
  | [], _, scope, stream, stores, _ => by
    rw [runBlock, runBlock]
  | i :: is, hhandles, scope, stream, stores, h => by
    rw [runBlock, runBlock, runInstruction_congr hstores i (fun x hx => hhandles x (List.mem_append_left _ hx))
      scope stream stores (h.mono (List.subset_append_left _ _))]
    split
    · rfl
    · exact runBlock_congr hstores is (fun x hx => hhandles x (List.mem_append_right _ hx)) scope _ _
        (h.mono (List.subset_append_right _ _))
end

theorem store?_eq_of_get?_eq {env env' : Environment} {x : String} (h : env.get? x = env'.get? x) :
    env.store? x = env'.store? x := by
  simp only [Environment.store?, h]

/-- Two environments with the same stores that agree on the free variables of a script are not told apart by
running it, if they also agree on the stores that its handles name inside closures of the same name. -/
theorem run_eq_of_agree (s : Script) {env env' : Environment} (hstores : SameStores env env')
    (hfree : ∀ x ∈ s.freeVariables, env.get? x = env'.get? x)
    (hhandles : ∀ x ∈ handleNamesAll s.instructions, x ∉ s.freeVariables → env.store? x = env'.store? x)
    (stores : Stores) : run env s stores = run env' s stores := by
  apply runBlock_congr hstores s.instructions
  · intro x hx
    by_cases hmem : x ∈ s.freeVariables
    · exact store?_eq_of_get?_eq (hfree x hmem)
    · exact hhandles x hx hmem
  · intro x hx _
    exact hfree x (Script.mem_freeVariables.2 hx)

def hiddenParameter : Script :=
  ⟨[.step "V" [.var "g"], .closure "transform" (some "n") [.statement (.var "n")]]⟩

theorem run_eq_hiddenParameter :
    let g : Environment := Dict.empty.insert "g" (.store ⟨⟨1⟩, "g"⟩)
    let env := g.insert "n" (.value (.integer 1))
    let env' := g.insert "n" (.value (.integer 2))
    SameStores env env' ∧ hiddenParameter.freeVariables = ["g"] ∧
      handleNamesAll hiddenParameter.instructions = ["g"] ∧
      ∀ stores, run env hiddenParameter stores = run env' hiddenParameter stores := by
  intro g env env'
  have hstores : SameStores env env' := fun id => rfl
  have hfree : hiddenParameter.freeVariables = ["g"] := rfl
  have hhandles : handleNamesAll hiddenParameter.instructions = ["g"] := rfl
  refine ⟨hstores, hfree, hhandles, run_eq_of_agree hiddenParameter hstores ?_ ?_⟩
  · rw [hfree, List.forall_mem_singleton]
    rfl
  · rw [hhandles, hfree]
    exact fun x hx hx' => absurd hx hx'

def hiddenStore : Script :=
  ⟨[.step "inject" [.literal (.integer 1)], .closure "transform" (some "g") [.step "V" [.var "g"]]]⟩

/-- Agreement on the free variables alone does not suffice: a closure does not hide a store. -/
theorem run_ne_hiddenStore :
    let env' : Environment := Dict.empty.insert "a" (.store ⟨⟨1⟩, "a"⟩)
    let env : Environment := env'.insert "g" (.store ⟨⟨1⟩, "a"⟩)
    SameStores env env' ∧ hiddenStore.freeVariables = [] ∧
      (run env hiddenStore ⟨[]⟩).1 = .ok [] ∧ (run env' hiddenStore ⟨[]⟩).1 = .error (.notHandle "V" "g") := by
  intro env' env
  refine ⟨?_, rfl, rfl, rfl⟩
  intro id
  by_cases hid : (⟨1⟩ : StoreId) = id
  · subst hid
    rfl
  · have hfilter : (some (⟨⟨1⟩, "a"⟩ : Handle)).filter (·.id == id) = none := by
      simp [hid]
    calc env.storeById? id
      _ = [some (⟨⟨1⟩, "a"⟩ : Handle), some ⟨⟨1⟩, "a"⟩].findSome? (·.filter (·.id == id)) := rfl
      _ = [some (⟨⟨1⟩, "a"⟩ : Handle)].findSome? (·.filter (·.id == id)) := by
        simp only [List.findSome?_cons, hfilter, List.findSome?_nil]
      _ = env'.storeById? id := rfl

end GraphQuery.Machine
