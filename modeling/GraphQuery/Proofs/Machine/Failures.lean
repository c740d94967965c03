import GraphQuery.Error
import GraphQuery.Proofs.Machine.Blame

/-!
How executions fail. A script that is invalid or cannot be bound fails in the same way whatever the stores hold, and
leaves them as they are. All other failures are those of the run, and they are failures of execution, unless one of the
bound stores has lost its lock.
-/

namespace GraphQuery

namespace Script

section Handles

variable {store input : Handle} {output : Option Handle} {env env' : Environment}

theorem mem_handles_insert {name : String} {binding : Binding}
    (h : store ∈ Environment.handles (Dict.insert env name binding)) :
    binding = .store store ∨ store ∈ env.handles := by
  obtain ⟨bound, hbound, hhandle⟩ := List.mem_filterMap.1 h
  obtain ⟨entry, hentry, rfl⟩ := List.mem_map.1 hbound
  rcases Dict.mem_insertEntry hentry with rfl | hentry
  · left
    cases binding with
    | store handle => exact congrArg Binding.store (Option.some.inj hhandle)
    | value v => cases hhandle
  · right
    exact List.mem_filterMap.2 ⟨entry.2, List.mem_map_of_mem hentry, hhandle⟩

theorem handles_of_bindStores (h : bindStores input output = .ok env) (hstore : store ∈ env.handles) :
    store ∈ input :: output.toList := by
  cases output with
  | none =>
    cases h
    rcases mem_handles_insert hstore with hinput | hnone
    · cases hinput
      exact List.mem_cons_self
    · cases hnone
  | some o =>
    rw [bindStores] at h
    split at h
    · cases h
    · cases h
      rcases mem_handles_insert hstore with houtput | hstore
      · cases houtput
        exact List.mem_cons_of_mem _ List.mem_cons_self
      · rcases mem_handles_insert hstore with hinput | hnone
        · cases hinput
          exact List.mem_cons_self
        · cases hnone

theorem bindNames_induction {parameters : Parameters} {names : List String} {P : Environment → Prop}
    (h : bindNames parameters names env = .ok env') (henv : P env)
    (hinsert : ∀ env name v, Dict.contains env name = false → P env → P (Dict.insert env name (.value v))) :
    P env' := by
  induction names generalizing env with
  | nil =>
    cases h
    exact henv
  | cons name names ih =>
    unfold bindNames at h
    split at h
    · exact ih h henv
    · rename_i hname
      split at h
      · exact ih h (hinsert env name _ (Bool.eq_false_iff.2 hname) henv)
      · cases h

theorem handles_of_bindNames {parameters : Parameters} {names : List String}
    (h : bindNames parameters names env = .ok env') (hstore : store ∈ env'.handles) : store ∈ env.handles := by
  apply bindNames_induction (P := fun later => store ∈ later.handles → store ∈ env.handles) h id _ hstore
  intro later name v _ hlater hmem
  rcases mem_handles_insert hmem with hvalue | hmem
  · cases hvalue
  · exact hlater hmem

theorem handles_of_bind {s : Script} {parameters : Parameters} (h : s.bind input output parameters = .ok env)
    (hstore : store ∈ env.handles) : store ∈ input :: output.toList := by
  obtain ⟨stores, hstores, hnames⟩ := exists_of_bind h
  exact handles_of_bindStores hstores (handles_of_bindNames hnames hstore)

theorem get?_of_bindNames {parameters : Parameters} {names : List String} {x : String} {binding : Binding}
    (h : bindNames parameters names env = .ok env') (hx : env.get? x = some binding) :
    env'.get? x = some binding := by
  apply bindNames_induction (P := fun later => later.get? x = some binding) h hx
  intro later name v hname hlater
  rw [Dict.get?_insert, if_neg]
  · exact hlater
  · rintro rfl
    rw [← Dict.isSome_get?, hlater] at hname
    cases hname

theorem input_of_bind {s : Script} {parameters : Parameters} (h : s.bind input output parameters = .ok env) :
    env.store? inputName = some input := by
  obtain ⟨stores, hstores, hnames⟩ := exists_of_bind h
  have hinput : stores.get? inputName = some (.store input) := by
    cases output with
    | none =>
      cases hstores
      rfl
    | some o =>
      rw [bindStores] at hstores
      split at hstores
      · cases hstores
      · cases hstores
        rfl
  rw [Environment.store?, get?_of_bindNames hnames hinput]
  rfl

end Handles

end Script

theorem RunError.category_of_ne_poisoned {e : RunError} (h : e ≠ .poisoned) : e.category = .execution := by
  cases e with
  | poisoned => exact absurd rfl h
  | _ => rfl

def ExecutionError.category (e : ExecutionError) : Category :=
  (Error.ofExecution e).category

section

variable (x : Executor) {s : Script} {parameters : Parameters}

theorem Executor.prepare_of_valid (h : s.validate = .ok ()) :
    x.prepare s parameters = (s.bind x.input x.output parameters).mapError .binding := by
  simp only [prepare, h]

theorem Executor.execute_of_bind {env : Environment} (hvalid : s.validate = .ok ())
    (h : s.bind x.input x.output parameters = .ok env) (stores : Stores) :
    x.execute s parameters stores =
      (((Machine.run env s stores).1.mapError .run).map (fun raw => ⟨raw, env, x.limit⟩),
        (Machine.run env s stores).2) := by
  have hprepare : x.prepare s parameters = .ok env := by
    rw [x.prepare_of_valid hvalid, h]
    rfl
  rw [execute, hprepare]
  dsimp only
  rcases Machine.run env s stores with ⟨_ | _, _⟩ <;> rfl

theorem Executor.error_of_bind {env : Environment} {stores : Stores} {e : ExecutionError}
    (hvalid : s.validate = .ok ()) (h : s.bind x.input x.output parameters = .ok env)
    (he : (x.execute s parameters stores).1 = .error e) :
    ∃ cause, e = .run cause ∧ (∀ name, cause ≠ .unbound name) ∧
      (cause = .poisoned → ∃ store ∈ x.input :: x.output.toList, (stores.get store.id).poisoned = true) := by
  rw [x.execute_of_bind hvalid h] at he
  cases hrun : (Machine.run env s stores).1 with
  | ok raw =>
    rw [hrun] at he
    cases he
  | error cause =>
    rw [hrun] at he
    cases he
    refine ⟨cause, rfl, ?_, fun hpoisoned => ?_⟩
    · rintro name rfl
      obtain ⟨hfree, hget⟩ := Machine.free_of_run_eq_unbound hrun
      have hbound := Script.isSome_get?_of_bind h hfree
      rw [hget] at hbound
      cases hbound
    · obtain ⟨store, hstore, hlock⟩ := (Machine.run_errs env s stores cause hrun).poisoned hpoisoned
      exact ⟨store, Script.handles_of_bind h hstore, hlock⟩

theorem Executor.category_of_bind {env : Environment} {stores : Stores} {e : ExecutionError}
    (hlocks : ∀ store ∈ x.input :: x.output.toList, (stores.get store.id).poisoned = false)
    (hvalid : s.validate = .ok ()) (h : s.bind x.input x.output parameters = .ok env)
    (he : (x.execute s parameters stores).1 = .error e) :
    e.category = .execution ∧ ∀ name, e ≠ .run (.unbound name) := by
  obtain ⟨cause, rfl, hbound, hlock⟩ := x.error_of_bind hvalid h he
  constructor
  · apply RunError.category_of_ne_poisoned
    intro hpoisoned
    obtain ⟨store, hstore, hlost⟩ := hlock hpoisoned
    cases (hlocks store hstore).symm.trans hlost
  · rintro name ⟨⟩
    exact hbound name rfl

/-- A lost lock is an internal failure, which counts as static although the script is valid and bound. -/
theorem Executor.execute_of_poisoned {env : Environment} {stores : Stores} {rest : List Instruction}
    (hvalid : s.validate = .ok ()) (h : s.bind x.input x.output parameters = .ok env)
    (hinstructions : s.instructions = .step "V" [.var inputName] :: rest)
    (hlock : (stores.get x.input.id).poisoned = true) :
    x.execute s parameters stores = (.error (.run .poisoned), stores) ∧
      (ExecutionError.run .poisoned).category = .internal ∧ Category.internal.isStatic = true := by
  have hinput := Script.input_of_bind h
  have hacquire : (stores.get x.input.id).acquire RunError.poisoned = .error .poisoned := by
    rw [Graph.acquire, if_pos hlock]
  have hread : Machine.readStep ⟨env, stores⟩ [] "V" .vertices [.var inputName] [] = .error .poisoned := by
    simp only [Machine.readStep, Machine.storeArgument, hinput, ok_bind, hacquire, error_bind]
  have hstep : Machine.runInstruction env [] (.step "V" [.var inputName]) [] stores = (.error .poisoned, stores) :=
    congrArg (·, stores) hread
  have hrun : Machine.run env s stores = (.error .poisoned, stores) := by
    rw [Machine.run, hinstructions, Machine.runBlock, hstep]
  refine ⟨?_, rfl, rfl⟩
  rw [x.execute_of_bind hvalid h, hrun]
  rfl

variable (s parameters)

end

end GraphQuery
