import GraphQuery.Binding
import GraphQuery.Proofs.Machine.Dependence
import GraphQuery.Proofs.Machine.Frame

/-!
What a run can blame: a variable only if the script leaves it free and the environment does not bind it, and a lock only
if it is one of a bound store and poisoned. Binding a script leaves no such variable.
-/

namespace GraphQuery.Machine

section

variable {α β : Type} {P Q : RunError → Prop}

def Errs (P : RunError → Prop) (r : Except RunError α) : Prop :=
  ∀ e, r = .error e → P e

@[simp] theorem errs_ok (a : α) : Errs P (.ok a) := by
  rintro e ⟨⟩

@[simp] theorem errs_error {e : RunError} : Errs P (.error e : Except RunError α) ↔ P e := by
  simp [Errs]

theorem Errs.mono {r : Except RunError α} (h : Errs P r) (hPQ : ∀ e, P e → Q e) : Errs Q r :=
  fun e he => hPQ e (h e he)

theorem Errs.bind {r : Except RunError α} {f : α → Except RunError β} (h : Errs P r)
    (hf : ∀ a, r = .ok a → Errs P (f a)) : Errs P (r >>= f) := by
  cases r with
  | error e => exact errs_error.2 (errs_error.1 h)
  | ok a => exact hf a rfl

def LockOnly (broken : Prop) (e : RunError) : Prop :=
  (∀ x, e ≠ .unbound x) ∧ (e = .poisoned → broken)

/-- A variable that is blamed is one of the names, and neither the scope nor the environment binds it. -/
structure Blames (env : Environment) (broken : Prop) (scope : Scope) (names : List String) (e : RunError) : Prop where
  unbound : ∀ x, e = .unbound x → x ∈ names ∧ x ∉ scope.map (·.1) ∧ env.get? x = none
  poisoned : e = .poisoned → broken

variable {env : Environment} {broken : Prop} {scope : Scope} {names names' : List String}

theorem LockOnly.blames {e : RunError} (h : LockOnly broken e) : Blames env broken scope names e :=
  ⟨fun x hx => absurd hx (h.1 x), h.2⟩

theorem Blames.mono {e : RunError} (h : Blames env broken scope names e) (hsub : names ⊆ names') :
    Blames env broken scope names' e := by
  refine ⟨fun x hx => ?_, h.poisoned⟩
  obtain ⟨hmem, hrest⟩ := h.unbound x hx
  exact ⟨hsub hmem, hrest⟩

def Locks (env : Environment) (broken : Prop) (stores : Stores) : Prop :=
  ∀ store ∈ env.handles, (stores.get store.id).poisoned = true → broken

theorem Locks.later {stores stores' : Stores} (h : Locks env broken stores) (hchanges : Changes env stores stores') :
    Locks env broken stores' := by
  intro store hstore hpoisoned
  rw [hchanges.poisoned_get] at hpoisoned
  exact h store hstore hpoisoned

end

section Operators

variable {broken : Prop}

theorem truth_errs (op : Term.BinaryOp) (v : Value) : Errs (LockOnly broken) (Value.truth op v) := by
  unfold Value.truth
  split <;> simp [LockOnly]

theorem ofInt_errs (n : Int) : Errs (LockOnly broken) (Value.ofInt n) := by
  unfold Value.ofInt
  split <;> simp [LockOnly]

theorem applyUnary_errs (op : Term.UnaryOp) (v : Value) : Errs (LockOnly broken) (Value.applyUnary op v) := by
  unfold Value.applyUnary
  split
  · simp
  · exact ofInt_errs _
  · simp
  · simp [LockOnly]

theorem arithmetic_errs (op : Term.BinaryOp) (exact : Int → Int → Int) (rounded : Float → Float → Float)
    (left right : Value) : Errs (LockOnly broken) (Value.arithmetic op exact rounded left right) := by
  unfold Value.arithmetic
  split
  · exact ofInt_errs _
  · split <;> simp [LockOnly]

theorem ordered_errs (op : Term.BinaryOp) (holds : Ordering → Bool) (left right : Value) :
    Errs (LockOnly broken) (Value.ordered op holds left right) := by
  unfold Value.ordered
  split
  · simp
  · split <;> simp [LockOnly]

theorem applyBinary_errs (op : Term.BinaryOp) (left right : Value) :
    Errs (LockOnly broken) (Value.applyBinary op left right) := by
  cases op with
  | equality | difference => simp [Value.applyBinary]
  | less | lessOrEqual | greater | greaterOrEqual => exact ordered_errs _ _ _ _
  | and | or =>
    exact (truth_errs _ _).bind fun _ _ => (truth_errs _ _).bind fun _ _ => errs_ok _
  | add =>
    unfold Value.applyBinary Value.add
    dsimp only
    split
    · simp
    · simp
    · simp
    · exact arithmetic_errs _ _ _ _ _
  | subtract | multiply => exact arithmetic_errs _ _ _ _ _
  | divide =>
    unfold Value.applyBinary Value.divide
    dsimp only
    split
    · split <;> simp [LockOnly]
    · simp [LockOnly]
  | union =>
    unfold Value.applyBinary Value.union
    dsimp only
    split <;> simp [LockOnly]
  | intersection =>
    unfold Value.applyBinary Value.intersection
    dsimp only
    split <;> simp [LockOnly]

end Operators

section Navigation

variable {broken : Prop} {env : Environment} {stores : Stores}

theorem acquire_errs {g : Graph} (h : g.poisoned = true → broken) :
    Errs (LockOnly broken) (g.acquire RunError.poisoned) := by
  unfold Graph.acquire
  split
  · rename_i hpoisoned
    simpa [LockOnly] using h hpoisoned
  · exact errs_ok g

theorem graphOf_errs (ref : ElementRef) : Errs (LockOnly broken) (World.graphOf ⟨env, stores⟩ ref) := by
  unfold World.graphOf
  split <;> simp [LockOnly]

theorem Locks.of_graphOf (h : Locks env broken stores) {ref : ElementRef} {g : Graph}
    (hg : World.graphOf ⟨env, stores⟩ ref = .ok g) : g.poisoned = true → broken := by
  unfold World.graphOf at hg
  split at hg
  · rename_i hid
    cases hg
    exact h _ (Environment.mem_handles_of_storeById? hid).1
  · cases hg

theorem contents_errs (h : Locks env broken stores) (ref : ElementRef) :
    Errs (LockOnly broken) (World.contents ⟨env, stores⟩ ref) :=
  (graphOf_errs ref).bind fun _ hg => acquire_errs (h.of_graphOf hg)

theorem lookup_errs (h : Locks env broken stores) (ref : ElementRef) :
    Errs (LockOnly broken) (World.lookup ⟨env, stores⟩ ref) := by
  apply (contents_errs h ref).bind
  intro g _
  split <;> simp [LockOnly]

theorem adjacent_errs (h : Locks env broken stores) (ref : ElementRef) (direction : Direction)
    (label : Option String) : Errs (LockOnly broken) (World.adjacent ⟨env, stores⟩ ref direction label) :=
  (contents_errs h ref).bind fun _ _ => errs_ok _

theorem feature_errs (h : Locks env broken stores) (ref : ElementRef) (name : String) :
    Errs (LockOnly broken) (World.feature ⟨env, stores⟩ ref name) := by
  apply (lookup_errs h ref).bind
  intro e _
  split
  · simp
  · apply (adjacent_errs h ref _ _).bind
    intro targets _
    split <;> simp

mutual
theorem navigate_errs (h : Locks env broken stores) (name : String) : (v : Value) →
    Errs (LockOnly broken) (navigate ⟨env, stores⟩ name v)
  | .element ref => by
    rw [navigate]
    exact feature_errs h ref name
  | .list items => by
    rw [navigate]
    exact (navigateAll_errs h name items).bind fun _ _ => errs_ok _
  | .null => by simp [navigate]
  | .boolean _ | .integer _ | .float _ | .string _ => by simp [navigate, LockOnly]

theorem navigateAll_errs (h : Locks env broken stores) (name : String) : (vs : List Value) →
    Errs (LockOnly broken) (navigateAll ⟨env, stores⟩ name vs)
  | [] => by simp [navigateAll]
  | v :: vs => by
    rw [navigateAll]
    exact (navigate_errs h name v).bind fun _ _ => (navigateAll_errs h name vs).bind fun _ _ => errs_ok _
end

theorem elementRef_errs (step : String) (v : Value) : Errs (LockOnly broken) (elementRef step v) := by
  cases v <;> simp [elementRef, LockOnly]

theorem resolve_errs (h : Locks env broken stores) (step : String) (v : Value) :
    Errs (LockOnly broken) (resolve ⟨env, stores⟩ step v) :=
  (elementRef_errs step v).bind fun ref _ => lookup_errs h ref

theorem keepElements_errs (h : Locks env broken stores) (step : String) (test : Element → Bool) (vs : List Value) :
    Errs (LockOnly broken) (keepElements ⟨env, stores⟩ step test vs) := by
  induction vs with
  | nil => simp [keepElements]
  | cons v vs ih => exact (resolve_errs h step v).bind fun _ _ => ih.bind fun _ _ => errs_ok _

theorem flatMapElements_errs {f : Value → Except RunError (List Value)} (h : ∀ v, Errs (LockOnly broken) (f v))
    (vs : List Value) : Errs (LockOnly broken) (flatMapElements f vs) := by
  induction vs with
  | nil => simp [flatMapElements]
  | cons v vs ih => exact (h v).bind fun _ _ => ih.bind fun _ _ => errs_ok _

theorem neighbours_errs (h : Locks env broken stores) (step : String) (direction : Direction) (label : Option String)
    (v : Value) : Errs (LockOnly broken) (neighbours ⟨env, stores⟩ step direction label v) :=
  (elementRef_errs step v).bind fun ref _ => adjacent_errs h ref direction label

theorem propertyValues_errs (h : Locks env broken stores) (step key : String) (v : Value) :
    Errs (LockOnly broken) (propertyValues ⟨env, stores⟩ step key v) :=
  (resolve_errs h step v).bind fun _ _ => errs_ok _

theorem storeArgument_errs (step : String) (position : Nat) (t : Term) :
    Errs (LockOnly broken) (storeArgument ⟨env, stores⟩ step position t) := by
  unfold storeArgument
  split
  · split <;> simp [LockOnly]
  · simp [LockOnly]

theorem Locks.of_storeArgument (h : Locks env broken stores) {step : String} {position : Nat} {t : Term}
    {store : Handle} (hstore : storeArgument ⟨env, stores⟩ step position t = .ok store) :
    (stores.get store.id).poisoned = true → broken := by
  unfold storeArgument at hstore
  split at hstore
  · split at hstore
    · rename_i hname
      cases hstore
      exact h _ (Environment.mem_handles_of_store? hname)
    · cases hstore
  · cases hstore

end Navigation

section Evaluation

variable {broken : Prop} {env : Environment} {stores : Stores} {scope : Scope} {names : List String}

theorem Blames.unbind {e : RunError} {name : String} {v : Value}
    (h : Blames env broken ((name, v) :: scope) names e) : Blames env broken scope names e := by
  refine ⟨fun x hx => ?_, h.poisoned⟩
  obtain ⟨hmem, hscope, hget⟩ := h.unbound x hx
  exact ⟨hmem, fun hin => hscope (List.mem_cons_of_mem _ hin), hget⟩

theorem Blames.closure {e : RunError} {parameter : Option String} {v : Value}
    (h : Blames env broken ((boundName parameter, v) :: scope) names e) :
    Blames env broken scope (names.filter (· != boundName parameter)) e := by
  refine ⟨fun x hx => ?_, h.poisoned⟩
  obtain ⟨hmem, hscope, hget⟩ := h.unbound x hx
  rw [List.map_cons, List.mem_cons, not_or] at hscope
  exact ⟨List.mem_filter.2 ⟨hmem, by simpa using hscope.1⟩, hscope.2, hget⟩

theorem Errs.blames {α : Type} {r : Except RunError α} (h : Errs (LockOnly broken) r) :
    Errs (Blames env broken scope names) r :=
  h.mono fun _ => LockOnly.blames

theorem Errs.blamesMore {α : Type} {r : Except RunError α} {names' : List String}
    (h : Errs (Blames env broken scope names) r) (hsub : names ⊆ names') : Errs (Blames env broken scope names') r :=
  h.mono fun _ he => he.mono hsub

theorem valueOf_errs (x : String) : Errs (Blames env broken scope [x]) (World.valueOf ⟨env, stores⟩ scope x) := by
  unfold World.valueOf
  cases hfind : scope.find? (·.1 == x) with
  | some entry => simp
  | none =>
    cases hget : env.get? x with
    | some meaning =>
      cases meaning with
      | store handle => exact errs_error.2 (LockOnly.blames (by simp [LockOnly]))
      | value v => exact errs_ok v
    | none =>
      rw [errs_error]
      refine ⟨?_, fun h => by cases h⟩
      rintro y ⟨⟩
      exact ⟨List.mem_cons_self, find?_eq_none.1 hfind, hget⟩

mutual
theorem evaluate_errs (h : Locks env broken stores) : (t : Term) →
    Errs (Blames env broken scope t.names) (evaluate ⟨env, stores⟩ scope t)
  | .literal _ => by simp [evaluate]
  | .var x => by
    rw [evaluate]
    exact valueOf_errs x
  | .property target name => by
    rw [evaluate]
    exact (evaluate_errs h target).bind fun v _ => (navigate_errs h name v).blames
  | .list items => by
    rw [evaluate]
    exact (evaluateAll_errs h items).bind fun _ _ => errs_ok _
  | .unary op operand => by
    rw [evaluate]
    exact (evaluate_errs h operand).bind fun v _ => (applyUnary_errs op v).blames
  | .binary op left right => by
    have hleft : Errs (Blames env broken scope (left.names ++ right.names)) (evaluate ⟨env, stores⟩ scope left) :=
      (evaluate_errs h left).blamesMore (List.subset_append_left _ _)
    have hright : Errs (Blames env broken scope (left.names ++ right.names)) (evaluate ⟨env, stores⟩ scope right) :=
      (evaluate_errs h right).blamesMore (List.subset_append_right _ _)
    cases op with
    | and =>
      rw [evaluate]
      apply hleft.bind
      intro l _
      apply (truth_errs _ l).blames.bind
      intro b _
      split
      · exact hright.bind fun r _ => (truth_errs _ r).blames.bind fun _ _ => errs_ok _
      · exact errs_ok _
    | or =>
      rw [evaluate]
      apply hleft.bind
      intro l _
      apply (truth_errs _ l).blames.bind
      intro b _
      split
      · exact errs_ok _
      · exact hright.bind fun r _ => (truth_errs _ r).blames.bind fun _ _ => errs_ok _
    | _ =>
      simp only [evaluate]
      exact hleft.bind fun l _ => hright.bind fun r _ => (applyBinary_errs _ l r).blames

theorem evaluateAll_errs (h : Locks env broken stores) : (ts : List Term) →
    Errs (Blames env broken scope (Term.namesAll ts)) (evaluateAll ⟨env, stores⟩ scope ts)
  | [] => by simp [evaluateAll]
  | t :: ts => by
    rw [evaluateAll]
    apply ((evaluate_errs h t).blamesMore (List.subset_append_left _ _)).bind
    intro v _
    exact ((evaluateAll_errs h ts).blamesMore (List.subset_append_right _ _)).bind fun _ _ => errs_ok _
end

theorem stringArgument_errs (h : Locks env broken stores) (step : String) (t : Term) :
    Errs (Blames env broken scope t.names) (stringArgument ⟨env, stores⟩ scope step t) := by
  apply (evaluate_errs h t).bind
  intro v _
  apply Errs.blames
  cases v <;> simp [LockOnly]

theorem stringArguments_errs (h : Locks env broken stores) (step : String) (ts : List Term) :
    Errs (Blames env broken scope (Term.namesAll ts)) (stringArguments ⟨env, stores⟩ scope step ts) := by
  induction ts with
  | nil => exact errs_ok _
  | cons t ts ih =>
    apply ((stringArgument_errs h step t).blamesMore (List.subset_append_left _ _)).bind
    intro s _
    exact (ih.blamesMore (List.subset_append_right _ _)).bind fun _ _ => errs_ok _

theorem limitArgument_errs (h : Locks env broken stores) (t : Term) :
    Errs (Blames env broken scope t.names) (limitArgument ⟨env, stores⟩ scope t) := by
  apply (evaluate_errs h t).bind
  intro v _
  apply Errs.blames
  cases v with
  | integer n =>
    dsimp only
    split <;> simp [LockOnly]
  | _ => simp [LockOnly]

end Evaluation

section Running

variable {broken : Prop} {env : Environment} {scope : Scope} {names : List String} {stores : Stores}

theorem readStep_errs (h : Locks env broken stores) (name : String) (step : Step) (arguments : List Term)
    (stream : List Value) :
    Errs (Blames env broken scope (Term.namesAll arguments))
      (readStep ⟨env, stores⟩ scope name step arguments stream) := by
  unfold readStep
  split
  · apply (storeArgument_errs name 1 _).blames.bind
    intro store hstore
    exact (acquire_errs (h.of_storeArgument hstore)).blames.bind fun _ _ => errs_ok _
  · exact (evaluateAll_errs h _).bind fun _ _ => errs_ok _
  · exact (stringArguments_errs h name _).bind fun _ _ => (keepElements_errs h _ _ _).blames
  · rename_i key expected
    simp only [Term.namesAll, List.append_nil]
    apply ((stringArgument_errs h name key).blamesMore (List.subset_append_left _ _)).bind
    intro k _
    exact ((evaluate_errs h expected).blamesMore (List.subset_append_right _ _)).bind fun _ _ =>
      (keepElements_errs h _ _ _).blames
  · exact (flatMapElements_errs (neighbours_errs h _ _ _) _).blames
  · simp only [Term.namesAll, List.append_nil]
    exact (stringArgument_errs h name _).bind fun _ _ => (flatMapElements_errs (neighbours_errs h _ _ _) _).blames
  · simp only [Term.namesAll, List.append_nil]
    exact (stringArgument_errs h name _).bind fun _ _ => (flatMapElements_errs (propertyValues_errs h _ _) _).blames
  · exact errs_ok _
  · exact errs_ok _
  · simp only [Term.namesAll, List.append_nil]
    exact (limitArgument_errs h _).bind fun _ _ => errs_ok _
  · exact errs_ok _
  · exact errs_ok _
  all_goals exact Errs.blames (by simp [LockOnly])

theorem addVertex_errs (h : Locks env broken stores) (name : String) (g label : Term) :
    Errs (Blames env broken scope label.names) (addVertex ⟨env, stores⟩ scope name g label).1 := by
  have hargs : Errs (Blames env broken scope label.names) (do
      let h ← storeArgument ⟨env, stores⟩ name 1 g
      let label ← stringArgument ⟨env, stores⟩ scope name label
      .ok (h, label) : Except RunError (Handle × String)) :=
    (storeArgument_errs name 1 g).blames.bind fun _ _ => (stringArgument_errs h name label).bind fun _ _ => errs_ok _
  unfold addVertex
  split
  · rename_i e heq
    exact errs_error.2 (hargs e heq)
  · rename_i store label heq
    obtain ⟨store', hstore, hrest⟩ := bind_eq_ok.1 heq
    obtain ⟨label', -, hpair⟩ := bind_eq_ok.1 hrest
    cases hpair
    dsimp only
    cases hopen : (stores.get store.id).poisoned with
    | false =>
      rw [Graph.create_of_open hopen]
      exact errs_ok _
    | true =>
      rw [Graph.create_of_poisoned hopen]
      refine errs_error.2 ⟨?_, fun _ => h.of_storeArgument hstore hopen⟩
      rintro x ⟨⟩

theorem setPropertyOf_errs (h : Locks env broken stores) (name key : String) (value : Term) (v : Value) :
    Errs (Blames env broken scope value.names) (setPropertyOf env scope name key value v stores).1 := by
  unfold setPropertyOf
  dsimp only
  split
  · rename_i e heq
    refine errs_error.2 ((show Errs (Blames env broken scope value.names) _ from ?_) e heq)
    apply (elementRef_errs name v).blames.bind
    intro ref _
    apply (graphOf_errs ref).blames.bind
    intro graph hgraph
    apply ((evaluate_errs h value).mono fun _ => Blames.unbind).bind
    intro result _
    apply (acquire_errs (h.of_graphOf hgraph)).blames.bind
    intro opened _
    apply Errs.blames
    split <;> simp [LockOnly]
  · exact errs_ok _

theorem forEach_errs {P : RunError → Prop} {action : Value → Stores → Outcome (List Value)}
    (hchanges : ∀ v stores, Changes env stores (action v stores).2)
    (haction : ∀ v stores, Locks env broken stores → Errs P (action v stores).1) (vs : List Value)
    (h : Locks env broken stores) : Errs P (forEach action vs stores).1 := by
  induction vs generalizing stores with
  | nil => exact errs_ok _
  | cons v vs ih =>
    have hv := haction v stores h
    have hnext := hchanges v stores
    unfold forEach
    split
    · rename_i heq
      rw [heq] at hv
      exact errs_error.2 (errs_error.1 hv)
    · rename_i out stores' heq
      rw [heq] at hnext
      have hvs := ih (h.later hnext)
      split
      · rename_i heq'
        rw [heq'] at hvs
        exact errs_error.2 (errs_error.1 hvs)
      · exact errs_ok _

theorem runStep_errs (h : Locks env broken stores) (name : String) (arguments : List Term) (stream : List Value) :
    Errs (Blames env broken scope (Term.namesAll arguments)) (runStep env scope name arguments stream stores).1 := by
  unfold runStep
  dsimp only
  split
  · exact Errs.blames (by simp [LockOnly])
  · simp only [Term.namesAll, List.append_nil]
    exact (addVertex_errs h name _ _).blamesMore (List.subset_append_right _ _)
  · rename_i key value _
    simp only [Term.namesAll, List.append_nil]
    have hkey : Errs (Blames env broken scope (key.names ++ value.names))
        (stringArgument ⟨env, stores⟩ scope name key) :=
      (stringArgument_errs h name key).blamesMore (List.subset_append_left _ _)
    split
    · rename_i e heq
      exact errs_error.2 (hkey e heq)
    · rename_i given _
      refine forEach_errs (setPropertyOf_changes env scope name given value) (fun v stores h => ?_) stream h
      exact (setPropertyOf_errs h name _ value v).blamesMore (List.subset_append_right _ _)
  · exact readStep_errs h name _ _ stream

theorem outcome_errs (kind : ClosureKind) (v : Value) (stream : List Value) :
    Errs (LockOnly broken) (kind.outcome v stream) := by
  cases kind with
  | filter =>
    unfold ClosureKind.outcome
    dsimp only
    split <;> simp [LockOnly]
  | transform | sideEffect => exact errs_ok _

mutual
theorem runInstruction_errs : (i : Instruction) → ∀ (scope : Scope) (stream : List Value) (stores : Stores),
    Locks env broken stores → Errs (Blames env broken scope i.freeNames) (runInstruction env scope i stream stores).1
  | .step name arguments, scope, stream, stores, h => by
    rw [runInstruction]
    exact runStep_errs h name arguments stream
  | .closure name parameter body, scope, stream, stores, h => by
    rw [runInstruction]
    split
    · exact Errs.blames (by simp [LockOnly])
    · rename_i kind _
      refine forEach_errs (fun v stores => ?_) (fun v stores h => ?_) stream h
      · exact outcome_changes kind v (runBlock_changes env body ((boundName parameter, v) :: scope) [v] stores)
      · have hbody := runBlock_errs body ((boundName parameter, v) :: scope) [v] stores h
        split
        · rename_i heq
          rw [heq] at hbody
          exact errs_error.2 (errs_error.1 hbody).closure
        · exact (outcome_errs _ _ _).blames
  | .statement term, scope, stream, stores, h => by
    rw [runInstruction]
    have hterm : Errs (Blames env broken scope term.names) (evaluate ⟨env, stores⟩ scope term) := evaluate_errs h term
    cases heval : evaluate ⟨env, stores⟩ scope term with
    | error e => exact errs_error.2 (hterm e heval)
    | ok v => exact errs_ok _

theorem runBlock_errs : (is : List Instruction) → ∀ (scope : Scope) (stream : List Value) (stores : Stores),
    Locks env broken stores →
    Errs (Blames env broken scope (Instruction.freeNamesAll is)) (runBlock env scope is stream stores).1
  | [], scope, stream, stores, _ => by
    rw [runBlock]
    exact errs_ok _
  | i :: is, scope, stream, stores, h => by
    rw [runBlock]
    have hi := (runInstruction_errs i scope stream stores h).blamesMore
      (List.subset_append_left _ (Instruction.freeNamesAll is))
    have hnext := runInstruction_changes env i scope stream stores
    split
    · rename_i heq
      rw [heq] at hi
      exact hi
    · rename_i heq
      rw [heq] at hnext
      exact (runBlock_errs is scope _ _ (h.later hnext)).blamesMore (List.subset_append_right _ _)
end

def Broken (env : Environment) (stores : Stores) : Prop :=
  ∃ store ∈ env.handles, (stores.get store.id).poisoned = true

theorem run_errs (env : Environment) (s : Script) (stores : Stores) :
    Errs (Blames env (Broken env stores) [] (Instruction.freeNamesAll s.instructions)) (run env s stores).1 :=
  runBlock_errs s.instructions [] [] stores fun store hstore hpoisoned => ⟨store, hstore, hpoisoned⟩

theorem free_of_run_eq_unbound {s : Script} {x : String} (h : (run env s stores).1 = .error (.unbound x)) :
    x ∈ s.freeVariables ∧ env.get? x = none := by
  obtain ⟨hfree, -, hget⟩ := (run_errs env s stores _ h).unbound x rfl
  exact ⟨Script.mem_freeVariables.2 hfree, hget⟩

end Running

end GraphQuery.Machine

namespace GraphQuery

theorem Dict.isSome_get? {α : Type} (d : Dict α) (x : String) : (d.get? x).isSome = d.contains x := by
  have hentries : ∀ entries : List (String × α), (findEntry x entries).isSome = entries.any (·.1 == x) := by
    intro entries
    induction entries with
    | nil => rfl
    | cons entry entries ih =>
      obtain ⟨k, v⟩ := entry
      rw [findEntry, List.any_cons]
      split
      · rename_i hk
        simp [hk]
      · rename_i hk
        simp [Ne.symm hk, ih]
  exact hentries d.entries

namespace Script

theorem isSome_get?_of_bindNames {parameters : Parameters} {names : List String} {env env' : Environment}
    (h : bindNames parameters names env = .ok env') {x : String} (hx : (env.get? x).isSome ∨ x ∈ names) :
    (env'.get? x).isSome := by
  induction names generalizing env with
  | nil =>
    cases h
    simpa using hx
  | cons name names ih =>
    unfold bindNames at h
    split at h
    · rename_i hbound
      apply ih h
      rcases hx with hx | hx
      · exact .inl hx
      · rcases List.mem_cons.1 hx with rfl | hx
        · exact .inl ((Dict.isSome_get? env x).trans hbound)
        · exact .inr hx
    · split at h
      · apply ih h
        rcases hx with hx | hx
        · left
          rw [Dict.get?_insert]
          split
          · rfl
          · exact hx
        · rcases List.mem_cons.1 hx with rfl | hx
          · exact .inl (by simp)
          · exact .inr hx
      · cases h

theorem exists_of_bind {s : Script} {input : Handle} {output : Option Handle} {parameters : Parameters}
    {env : Environment} (h : s.bind input output parameters = .ok env) :
    ∃ stores, bindStores input output = .ok stores ∧ bindNames parameters s.freeVariables stores = .ok env := by
  unfold Script.bind at h
  split at h
  · cases h
  split at h
  · cases h
  split at h
  · cases h
  · rename_i stores hstores
    exact ⟨stores, hstores, h⟩

theorem isSome_get?_of_bind {s : Script} {input : Handle} {output : Option Handle} {parameters : Parameters}
    {env : Environment} (h : s.bind input output parameters = .ok env) {x : String} (hx : x ∈ s.freeVariables) :
    (env.get? x).isSome := by
  obtain ⟨stores, -, hnames⟩ := exists_of_bind h
  exact isSome_get?_of_bindNames hnames (.inr hx)

/-- No run of a script in the environment it was bound to finds a variable unbound. -/
theorem run_ne_unbound_of_bind {s : Script} {input : Handle} {output : Option Handle} {parameters : Parameters}
    {env : Environment} (h : s.bind input output parameters = .ok env) (stores : Stores) (x : String) :
    (Machine.run env s stores).1 ≠ .error (.unbound x) := by
  intro hrun
  obtain ⟨hfree, hget⟩ := Machine.free_of_run_eq_unbound hrun
  have hbound := isSome_get?_of_bind h hfree
  rw [hget] at hbound
  cases hbound

def nestedClosures : Script :=
  ⟨[.step "V" [.var inputName], .closure "filter" (some "x")
    [.closure "transform" none [.statement (.binary .add (.var "x") (.binary .add (.var "it") (.var "n")))]]]⟩

theorem run_ne_unbound_nestedClosures : ∃ env : Environment,
    nestedClosures.bind ⟨⟨1⟩, "g"⟩ none (Dict.empty.insert "n" (.integer 2)) = .ok env ∧
      ∀ stores x, (Machine.run env nestedClosures stores).1 ≠ .error (.unbound x) :=
  have hbind : nestedClosures.bind ⟨⟨1⟩, "g"⟩ none (Dict.empty.insert "n" (.integer 2)) =
      .ok ((Dict.empty.insert inputName (.store ⟨⟨1⟩, "g"⟩)).insert "n" (.value (.integer 2))) := rfl
  ⟨_, hbind, run_ne_unbound_of_bind hbind⟩

end Script

end GraphQuery
