import GraphQuery.Machine.Run
import GraphQuery.Proofs.Except
import GraphQuery.Proofs.Graph.Consistency
import Mathlib.Logic.Relation

namespace GraphQuery.Machine

open Relation

inductive Change (env : Environment) (stores : Stores) : Stores → Prop
  | create {name : String} {h : Handle} (label : String) (hname : env.store? name = some h) :
      Change env stores (stores.put ((stores.get h.id).create RunError.poisoned [label] ∅).2)
  | assign {id : StoreId} {h : Handle} {element : ElementId} {key : String} {value : Value} {g : Graph}
      (hid : env.storeById? id = some h) (hopen : (stores.get h.id).poisoned = false)
      (hset : (stores.get h.id).setProperty element key value = .ok g) :
      Change env stores (stores.put g)

abbrev Changes (env : Environment) : Stores → Stores → Prop :=
  ReflTransGen (Change env)

theorem addVertex_changes (w : World) (scope : Scope) (name : String) (g label : Term) :
    Changes w.environment w.stores (addVertex w scope name g label).2 := by
  unfold addVertex
  split
  · exact .refl
  · rename_i h label hread
    simp only [bind_eq_ok] at hread
    obtain ⟨h', hstore, label', -, heq⟩ := hread
    cases heq
    unfold storeArgument at hstore
    split at hstore
    · split at hstore
      · rename_i hname
        cases hstore
        exact .single (.create label hname)
      · cases hstore
    · cases hstore

theorem setPropertyOf_changes (env : Environment) (scope : Scope) (name key : String) (value : Term) (v : Value)
    (stores : Stores) : Changes env stores (setPropertyOf env scope name key value v stores).2 := by
  unfold setPropertyOf
  simp only
  split
  · exact .refl
  · rename_i g hread
    simp only [bind_eq_ok] at hread
    obtain ⟨ref, -, graph, hgraph, result, -, opened, hopened, hset⟩ := hread
    obtain ⟨hopen, rfl⟩ := Graph.acquire_eq_ok.1 hopened
    unfold World.graphOf at hgraph
    split at hgraph
    · rename_i hid
      cases hgraph
      split at hset
      · rename_i hset'
        cases hset
        exact .single (.assign hid hopen hset')
      · cases hset
    · cases hgraph

theorem forEach_changes {env : Environment} {action : Value → Stores → Outcome (List Value)}
    (h : ∀ v stores, Changes env stores (action v stores).2) (vs : List Value) (stores : Stores) :
    Changes env stores (forEach action vs stores).2 := by
  induction vs generalizing stores with
  | nil => exact .refl
  | cons v vs ih =>
    have hhead := h v stores
    rw [forEach]
    split
    · rename_i hv
      rw [hv] at hhead
      exact hhead
    · rename_i stores' hv
      rw [hv] at hhead
      have hrest := hhead.trans (ih stores')
      split
      · rename_i hvs
        rw [hvs] at hrest
        exact hrest
      · rename_i hvs
        rw [hvs] at hrest
        exact hrest

theorem runStep_changes (env : Environment) (scope : Scope) (name : String) (arguments : List Term)
    (stream : List Value) (stores : Stores) :
    Changes env stores (runStep env scope name arguments stream stores).2 := by
  unfold runStep
  simp only
  split
  · exact .refl
  · exact addVertex_changes ⟨env, stores⟩ scope name _ _
  · split
    · exact .refl
    · exact forEach_changes (fun v stores => setPropertyOf_changes env scope name _ _ v stores) stream stores
  · exact .refl

theorem outcome_changes {env : Environment} {stores : Stores} {out : Outcome (List Value)} (kind : ClosureKind)
    (v : Value) : Changes env stores out.2 → Changes env stores (match out with
      | (.error e, stores) => (.error e, stores)
      | (.ok result, stores) => (kind.outcome v result, stores) : Outcome (List Value)).2 := by
  intro h
  split <;> exact h

mutual
theorem runInstruction_changes (env : Environment) : (i : Instruction) → ∀ (scope : Scope) (stream : List Value)
    (stores : Stores), Changes env stores (runInstruction env scope i stream stores).2
  | .step name arguments, scope, stream, stores => by
    rw [runInstruction]
    exact runStep_changes env scope name arguments stream stores
  | .closure name parameter body, scope, stream, stores => by
    rw [runInstruction]
    split
    · exact .refl
    · apply forEach_changes
      intro v stores
      exact outcome_changes _ v (runBlock_changes env body ((boundName parameter, v) :: scope) [v] stores)
  | .statement term, scope, stream, stores => by
    rw [runInstruction]

theorem runBlock_changes (env : Environment) : (is : List Instruction) → ∀ (scope : Scope)
    (stream : List Value) (stores : Stores), Changes env stores (runBlock env scope is stream stores).2
  | [], scope, stream, stores => by
    rw [runBlock]
  | i :: is, scope, stream, stores => by
    have hhead := runInstruction_changes env i scope stream stores
    rw [runBlock]
    split
    · rename_i hrun
      rw [hrun] at hhead
      exact hhead
    · rename_i stream' stores' hrun
      rw [hrun] at hhead
      exact hhead.trans (runBlock_changes env is scope stream' stores')
end

theorem run_changes (env : Environment) (s : Script) (stores : Stores) :
    Changes env stores (run env s stores).2 :=
  runBlock_changes env s.instructions [] [] stores

theorem Change.poisoned_get {env : Environment} {stores stores' : Stores} (h : Change env stores stores')
    (id : StoreId) : (stores'.get id).poisoned = (stores.get id).poisoned := by
  cases h with
  | @create name h label hname =>
    apply Stores.apply_get_put
    rw [Graph.poisoned_create, Graph.id_create, Stores.id_get]
  | assign hid hopen hset =>
    obtain ⟨position, rfl⟩ := Graph.setProperty_eq_ok hset
    apply Stores.apply_get_put
    rw [Stores.id_get]

theorem Changes.poisoned_get {env : Environment} {stores stores' : Stores} (h : Changes env stores stores')
    (id : StoreId) : (stores'.get id).poisoned = (stores.get id).poisoned := by
  induction h with
  | refl => rfl
  | tail _ hchange ih => exact (hchange.poisoned_get id).trans ih

theorem Change.consistent {env : Environment} {stores stores' : Stores} (h : Change env stores stores')
    (hs : stores.Consistent) : stores'.Consistent := by
  cases h with
  | create label hname => exact hs.put ((hs.get _).create _ [label] ∅)
  | assign hid hopen hset => exact hs.put ((hs.get _).setProperty hset)

theorem Changes.consistent {env : Environment} {stores stores' : Stores} (h : Changes env stores stores')
    (hs : stores.Consistent) : stores'.Consistent := by
  induction h with
  | refl => exact hs
  | tail _ hchange ih => exact hchange.consistent ih

theorem run_consistent (env : Environment) (s : Script) {stores : Stores} (hs : stores.Consistent) :
    (run env s stores).2.Consistent :=
  Changes.consistent (run_changes env s stores) hs

end GraphQuery.Machine
