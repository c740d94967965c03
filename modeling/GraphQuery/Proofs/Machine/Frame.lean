import GraphQuery.Proofs.Graph.Operations
import GraphQuery.Proofs.Machine.Reading

/-!
What a run leaves alone: the stores that no name denotes, the edges, and of the elements all but their properties. A
script without a step that writes leaves everything alone.
-/

namespace GraphQuery

def Environment.handles (env : Environment) : List Handle :=
  (Dict.values env).filterMap Binding.handle?

theorem Environment.mem_handles_of_store? {env : Environment} {name : String} {h : Handle}
    (hname : env.store? name = some h) : h ∈ env.handles := by
  obtain ⟨b, hb, hh⟩ := Option.bind_eq_some_iff.1 hname
  exact List.mem_filterMap.2 ⟨b, Machine.mem_values_of_get? hb, hh⟩

theorem Environment.mem_handles_of_storeById? {env : Environment} {id : StoreId} {h : Handle}
    (hid : env.storeById? id = some h) : h ∈ env.handles ∧ h.id = id := by
  obtain ⟨b, hb, hh⟩ := List.exists_of_findSome?_eq_some hid
  obtain ⟨hh, htest⟩ := Option.filter_eq_some_iff.1 hh
  exact ⟨List.mem_filterMap.2 ⟨b, hb, hh⟩, by simpa using htest⟩

namespace Graph

structure Grown (g g' : Graph) : Prop where
  id : g'.id = g.id
  name : g'.name = g.name
  edges : g'.edges = g.edges
  kept : ∀ (k : Nat) (e : Element), g.elements[k]? = some e →
    ∃ e', g'.elements[k]? = some e' ∧ e'.ref = e.ref ∧ e'.labels = e.labels
  added : ∀ (k : Nat) (e : Element), g.elements.size ≤ k → g'.elements[k]? = some e →
    e.ref = ⟨g.id, ⟨k + 1⟩⟩ ∧ ∃ label, e.labels = [label]

theorem Grown.refl (g : Graph) : g.Grown g := by
  refine ⟨rfl, rfl, rfl, fun k e hk => ⟨e, hk, rfl, rfl⟩, fun k e hle hk => ?_⟩
  rw [Array.getElem?_eq_none hle] at hk
  cases hk

theorem Grown.trans {g g' g'' : Graph} (h : g.Grown g') (h' : g'.Grown g'') : g.Grown g'' := by
  refine ⟨h'.id.trans h.id, h'.name.trans h.name, h'.edges.trans h.edges, fun k e hk => ?_, fun k e hle hk => ?_⟩
  · obtain ⟨e', hk', href, hlabels⟩ := h.kept k e hk
    obtain ⟨e'', hk'', href', hlabels'⟩ := h'.kept k e' hk'
    exact ⟨e'', hk'', href'.trans href, hlabels'.trans hlabels⟩
  · by_cases hk' : g'.elements.size ≤ k
    · rw [← h.id]
      exact h'.added k e hk' hk
    · -- it was added before, and has been kept since
      have hmiddle := Array.getElem?_eq_getElem (Nat.lt_of_not_le hk')
      obtain ⟨e', he', href, hlabels⟩ := h'.kept k _ hmiddle
      rw [hk] at he'
      cases he'
      rw [href, hlabels]
      exact h.added k _ hle hmiddle

theorem Consistent.grown_add {g : Graph} (h : g.Consistent) (hopen : g.poisoned = false) (label : String)
    (properties : Properties) : g.Grown (g.add [label] properties).2 := by
  refine ⟨rfl, rfl, rfl, fun k e hk => ?_, fun k e hle hk => ?_⟩
  · refine ⟨e, ?_, rfl, rfl⟩
    have hlt := (Array.getElem?_eq_some_iff.1 hk).1
    simp only [Graph.add, Array.getElem?_push, Nat.ne_of_lt hlt, if_false]
    exact hk
  · simp only [Graph.add, Array.getElem?_push] at hk
    split at hk
    · rename_i hlast
      cases hk
      refine ⟨?_, label, rfl⟩
      rw [hlast]
      simp [IdSource.fresh, Element.ref_withLabels, h.next hopen]
    · rw [Array.getElem?_eq_none hle] at hk
      cases hk

theorem Consistent.grown_create {ε : Type} {g : Graph} (h : g.Consistent) (failure : ε) (label : String)
    (properties : Properties) : g.Grown (g.create failure [label] properties).2 := by
  cases hopen : g.poisoned with
  | false =>
    rw [create_of_open hopen]
    exact h.grown_add hopen label properties
  | true =>
    rw [create_of_poisoned hopen]
    obtain ⟨hid, hname, hedges, hkept, hadded⟩ := Grown.refl g
    exact ⟨hid, hname, hedges, hkept, hadded⟩

theorem grown_setProperty {g g' : Graph} {id : ElementId} {key : String} {value : Value}
    (h : g.setProperty id key value = .ok g') : g.Grown g' := by
  obtain ⟨position, rfl⟩ := setProperty_eq_ok h
  refine ⟨rfl, rfl, rfl, fun k e hk => ?_, fun k e hle hk => ?_⟩
  · simp only [Array.getElem?_modify, hk]
    split
    · exact ⟨e.set key value, rfl, rfl, rfl⟩
    · exact ⟨e, rfl, rfl, rfl⟩
  · rw [Array.getElem?_eq_none (by simpa using hle)] at hk
    cases hk

theorem Consistent.increasing {g : Graph} (h : g.Consistent) :
    g.elements.toList.Pairwise (fun a b => a.id.val < b.id.val) := by
  have hid : ∀ (k : Nat) (hk : k < g.elements.toList.length), g.elements.toList[k].id.val = k + 1 := by
    intro k hk
    rw [Element.id, h.refs k _ (by rw [← Array.getElem?_toList, List.getElem?_eq_getElem hk])]
  apply List.pairwise_iff_getElem.2
  intro i j hi hj hij
  rw [hid i hi, hid j hj]
  omega

end Graph

namespace Machine

theorem Change.exists_put {env : Environment} {stores stores' : Stores} (h : Change env stores stores')
    (hs : stores.Consistent) :
    ∃ store ∈ env.handles, ∃ g, stores' = stores.put g ∧ (stores.get store.id).Grown g := by
  cases h with
  | @create name store label hname =>
    exact ⟨store, Environment.mem_handles_of_store? hname, _, rfl, (hs.get store.id).grown_create _ label ∅⟩
  | @assign id store element key value g hid _ hset =>
    exact ⟨store, (Environment.mem_handles_of_storeById? hid).1, g, rfl, Graph.grown_setProperty hset⟩

structure Frame (env : Environment) (stores stores' : Stores) : Prop where
  unbound : ∀ id, (∀ store ∈ env.handles, store.id ≠ id) → stores'.get id = stores.get id
  grown : ∀ id, (stores.get id).Grown (stores'.get id)

theorem Change.frame {env : Environment} {stores stores' : Stores} (h : Change env stores stores')
    (hs : stores.Consistent) : Frame env stores stores' := by
  obtain ⟨store, hstore, g, rfl, hgrown⟩ := h.exists_put hs
  have hid : g.id = store.id := hgrown.id.trans (stores.id_get store.id)
  constructor
  · intro id hunbound
    rw [Stores.get_put, if_neg]
    rintro rfl
    exact hunbound store hstore hid.symm
  · intro id
    rw [Stores.get_put]
    split
    · rename_i heq
      rw [heq, hid]
      exact hgrown
    · exact .refl _

theorem Changes.frame {env : Environment} {stores stores' : Stores} (h : Changes env stores stores')
    (hs : stores.Consistent) : Frame env stores stores' := by
  induction h with
  | refl => exact ⟨fun _ _ => rfl, fun _ => .refl _⟩
  | tail hchanges hchange ih =>
    have hlast := hchange.frame (Changes.consistent hchanges hs)
    constructor
    · intro id hunbound
      exact (hlast.unbound id hunbound).trans (ih.unbound id hunbound)
    · intro id
      exact (ih.grown id).trans (hlast.grown id)

end Machine

inductive Instruction.Writes : Instruction → Prop
  | step {name : String} (arguments : List Term) (h : name = "addV" ∨ name = "property") :
      Writes (.step name arguments)
  | closure (name : String) (parameter : Option String) {body : List Instruction} {i : Instruction} (hi : i ∈ body)
      (h : Writes i) : Writes (.closure name parameter body)

def Script.Writes (s : Script) : Prop :=
  ∃ i ∈ s.instructions, i.Writes

namespace Machine

theorem writes_of_ofName? {name : String} (arguments : List Term)
    (h : Step.ofName? name = some .addVertex ∨ Step.ofName? name = some .setProperty) :
    (Instruction.step name arguments).Writes := by
  apply Instruction.Writes.step
  unfold Step.ofName? at h
  split at h <;> simp at h
  · exact .inl rfl
  · exact .inr rfl

section Reading

variable {env : Environment} {stores : Stores}

theorem runStep_reads {name : String} {arguments : List Term} (h : ¬ (Instruction.step name arguments).Writes)
    (scope : Scope) (stream : List Value) : (runStep env scope name arguments stream stores).2 = stores := by
  unfold runStep
  dsimp only
  split
  · rfl
  · rename_i hname
    exact absurd (writes_of_ofName? _ (.inl hname)) h
  · rename_i hname
    exact absurd (writes_of_ofName? _ (.inr hname)) h
  · rfl

theorem forEach_reads {action : Value → Stores → Outcome (List Value)} (h : ∀ v, (action v stores).2 = stores)
    (vs : List Value) : (forEach action vs stores).2 = stores := by
  induction vs with
  | nil => rfl
  | cons v vs ih =>
    have hv := h v
    rw [forEach]
    split
    · rename_i heq
      rw [heq] at hv
      exact hv
    · rename_i heq
      rw [heq] at hv
      obtain rfl : _ = stores := hv
      split
      · rename_i hvs
        rw [hvs] at ih
        exact ih
      · rename_i hvs
        rw [hvs] at ih
        exact ih

mutual
theorem runInstruction_reads : (i : Instruction) → ¬ i.Writes → ∀ (scope : Scope) (stream : List Value),
    (runInstruction env scope i stream stores).2 = stores
  | .step name arguments, h, scope, stream => by
    rw [runInstruction]
    exact runStep_reads h scope stream
  | .closure name parameter body, h, scope, stream => by
    have hreads : ∀ i ∈ body, ¬ i.Writes := fun i hi hwrites => h (.closure name parameter hi hwrites)
    rw [runInstruction]
    split
    · rfl
    · apply forEach_reads
      intro v
      have hbody := runBlock_reads body hreads ((boundName parameter, v) :: scope) [v]
      split
      · rename_i heq
        rw [heq] at hbody
        exact hbody
      · rename_i heq
        rw [heq] at hbody
        exact hbody
  | .statement term, _, scope, stream => by
    rw [runInstruction]

theorem runBlock_reads : (is : List Instruction) → (∀ i ∈ is, ¬ i.Writes) →
    ∀ (scope : Scope) (stream : List Value), (runBlock env scope is stream stores).2 = stores
  | [], _, scope, stream => by
    rw [runBlock]
  | i :: is, h, scope, stream => by
    have hhead := runInstruction_reads i (h i List.mem_cons_self) scope stream
    rw [runBlock]
    split
    · rename_i heq
      rw [heq] at hhead
      exact hhead
    · rename_i stream' stores' heq
      rw [heq] at hhead
      rw [show stores' = stores from hhead]
      exact runBlock_reads is (fun j hj => h j (List.mem_cons_of_mem _ hj)) scope stream'
end

theorem run_reads {s : Script} (h : ¬ s.Writes) : (run env s stores).2 = stores := by
  apply runBlock_reads s.instructions
  intro i hi hwrites
  exact h ⟨i, hi, hwrites⟩

end Reading

/-- A run over the stores that any operations left behind, whether it succeeds or fails, changes no store that the
environment does not bind. In the others the edges stay, every element keeps its place, reference and labels, and the
new elements follow with increasing identifiers and one label each. Only a script that writes changes anything. -/
theorem run_frame (ops : List Stores.Op) (env : Environment) (s : Script) :
    let stores := Stores.afterAll ops
    let stores' := (run env s stores).2
    (∀ id, (∀ store ∈ env.handles, store.id ≠ id) → stores'.get id = stores.get id) ∧
      (∀ id, (stores.get id).Grown (stores'.get id) ∧
        (stores'.get id).elements.toList.Pairwise (fun a b => a.id.val < b.id.val)) ∧
      (¬ s.Writes → stores' = stores) := by
  intro stores stores'
  have hs : stores.Consistent := Stores.consistent_afterAll ops
  have hframe : Frame env stores stores' := Changes.frame (run_changes env s stores) hs
  have hs' : stores'.Consistent := run_consistent env s hs
  exact ⟨hframe.unbound, fun id => ⟨hframe.grown id, (hs'.get id).increasing⟩, run_reads⟩

end Machine

end GraphQuery
