import GraphQuery.Error
import GraphQuery.Proofs.Machine.Changes

/-!
Sequences of operations on stores, runs of scripts among them. Whatever is done, and whatever fails, the elements of
a store, its index, its edges and its counter stay in step.
-/

namespace GraphQuery

namespace Graph

def Has (g : Graph) (id : ElementId) : Prop :=
  ∃ e ∈ g.elements, e.id = id

namespace Consistent

variable {g : Graph} (h : g.Consistent)

include h

theorem find?_id {e : Element} (he : e ∈ g.elements) : g.find? e.id = some e :=
  (h.find?_of_mem (Array.mem_toList_iff.2 he)).2

theorem mem_of_find? {id : ElementId} {e : Element} (hfind : g.find? id = some e) : e ∈ g.elements ∧ e.id = id := by
  obtain ⟨k, rfl, hk⟩ := h.find?_eq_some.1 hfind
  refine ⟨Array.mem_of_getElem? hk, ?_⟩
  rw [Element.id, h.refs k e hk]

theorem index_iff {id : ElementId} {k : Nat} :
    g.index[id]? = some k ↔ ∃ e, g.elements[k]? = some e ∧ e.id = id := by
  rw [h.index]
  constructor
  · rintro ⟨rfl, hlt⟩
    have he := Array.getElem?_eq_getElem hlt
    exact ⟨g.elements[k], he, by rw [Element.id, h.refs k _ he]⟩
  · rintro ⟨e, he, rfl⟩
    exact ⟨by rw [Element.id, h.refs k e he], (Array.getElem?_eq_some_iff.1 he).1⟩

theorem contains_iff_has {id : ElementId} : g.index.contains id = true ↔ g.Has id := by
  rw [Std.HashMap.contains_eq_isSome_getElem?, Option.isSome_iff_exists]
  constructor
  · rintro ⟨k, hk⟩
    obtain ⟨e, he, hid⟩ := h.index_iff.1 hk
    exact ⟨e, Array.mem_of_getElem? he, hid⟩
  · rintro ⟨e, he, hid⟩
    obtain ⟨k, hk⟩ := Array.mem_iff_getElem?.1 he
    exact ⟨k, h.index_iff.2 ⟨e, hk, hid⟩⟩

theorem find?_eq_search (id : ElementId) : g.find? id = g.elements.toList.find? (·.id == id) := by
  -- what the search finds has the identifier, and the index knows it
  have hsearch : ∀ e, g.elements.toList.find? (·.id == id) = some e → g.find? id = some e := by
    intro e he
    have hid : e.id = id := by simpa using List.find?_some he
    rw [← hid]
    exact h.find?_id (Array.mem_toList_iff.1 (List.mem_of_find?_eq_some he))
  cases hfind : g.elements.toList.find? (·.id == id) with
  | some e => exact hsearch e hfind
  | none =>
    apply Option.eq_none_iff_forall_ne_some.2
    intro e he
    obtain ⟨hmem, hid⟩ := h.mem_of_find? he
    have hno := List.find?_eq_none.1 hfind e (Array.mem_toList_iff.2 hmem)
    simp [hid] at hno

theorem has_ends {e : Edge} (he : e ∈ g.edges) : g.Has e.source ∧ g.Has e.target := by
  rw [← h.contains_iff_has, ← h.contains_iff_has]
  exact h.edges e he

theorem addEdge_fails (source : ElementId) (label : String) (target : ElementId) :
    (∃ cause, g.addEdge source label target = .error cause) ↔ ¬ (g.Has source ∧ g.Has target) := by
  rw [← h.contains_iff_has, ← h.contains_iff_has, Graph.addEdge]
  cases g.index.contains source <;> cases g.index.contains target <;> simp

theorem setProperty_fails (id : ElementId) (key : String) (value : Value) :
    (∃ cause, g.setProperty id key value = .error cause) ↔ ¬ g.Has id := by
  rw [← h.contains_iff_has, Std.HashMap.contains_eq_isSome_getElem?, Graph.setProperty]
  cases g.index[id]? <;> simp

end Consistent

end Graph

namespace Stores

/-- What can be done with stores. A clone is a handle with the identifier of its store, so that an operation may go
through any handle; an element that is created without properties is added with none. -/
inductive Op where
  | new (store : Handle)
  | add (store : Handle) (labels : List String) (properties : Properties)
  | addEdge (store : Handle) (source : ElementId) (label : String) (target : ElementId)
  | setProperty (store : Handle) (id : ElementId) (key : String) (value : Value)
  | run (environment : Environment) (script : Script)

/-- A computation on the stores in place. A failure does not undo what was done before it. -/
abbrev Edit := EStateM Error Stores

namespace Edit

def acquire (store : Handle) : Edit Graph := do
  ofExcept (((← getThe Stores).get store.id).acquire Error.poisoned)

def require (g : Graph) (id : ElementId) : Edit Unit :=
  if g.index.contains id then pure () else throw (.missing ⟨id, g.name⟩)

def add (store : Handle) (labels : List String) (properties : Properties) : Edit Unit := do
  let id ← modifyGet fun s =>
    let (id, ids) := (s.get store.id).ids.fresh
    (id, s.put { s.get store.id with ids })
  let g ← acquire store
  let element := { Element.withLabels ⟨g.id, id⟩ labels with properties }
  modify (·.put { g with index := g.index.insert id g.elements.size, elements := g.elements.push element })

def addEdge (store : Handle) (source : ElementId) (label : String) (target : ElementId) : Edit Unit := do
  let g ← acquire store
  require g source
  require g target
  modify (·.put { g with edges := g.edges.push ⟨source, label, target⟩ })

def setProperty (store : Handle) (id : ElementId) (key : String) (value : Value) : Edit Unit := do
  let g ← acquire store
  match g.index[id]? with
  | none => throw (.missing ⟨id, g.name⟩)
  | some position => modify (·.put { g with elements := g.elements.modify position (·.set key value) })

def perform : Op → Edit Unit
  -- distinct stores have distinct identifiers, so that a new one does not take that of another
  | .new store => modify fun s =>
    if s.graphs.any (·.id == store.id) then s else s.put (Graph.empty store.id store.name)
  | .add store labels properties => add store labels properties
  | .addEdge store source label target => addEdge store source label target
  | .setProperty store id key value => setProperty store id key value
  | .run environment script => do
    let (result, s) := Machine.run environment script (← getThe Stores)
    set s
    ofExcept ((result.mapError .run).map fun _ => ())

end Edit

def perform (s : Stores) (op : Op) : Except Error Unit × Stores :=
  match (Edit.perform op).run s with
  | .ok r s' => (.ok r, s')
  | .error e s' => (.error e, s')

def after (s : Stores) (op : Op) : Stores :=
  (s.perform op).2

def afterAll (ops : List Op) : Stores :=
  ops.foldl after {}

def settle (s : Stores) : Except Graph.Missing Graph → Except Error Unit × Stores
  | .ok g => (.ok (), s.put g)
  | .error cause => (.error (.missing cause), s)

def Open (s : Stores) : Prop :=
  ∀ id, (s.get id).poisoned = false

theorem Open.put {s : Stores} {g : Graph} (h : s.Open) (hg : g.poisoned = false) : (s.put g).Open := by
  intro id
  rw [get_put]
  split
  · exact hg
  · exact h id

theorem Open.later {s s' : Stores} {env : Environment} (h : s.Open) (hchanges : Machine.Changes env s s') :
    s'.Open := by
  intro id
  rw [hchanges.poisoned_get id]
  exact h id

section InPlace

variable {s : Stores} {store : Handle}

theorem Edit.run_acquire (h : (s.get store.id).poisoned = false) :
    (acquire store).run s = .ok (s.get store.id) s := by
  have hacquire : (s.get store.id).acquire Error.poisoned = .ok (s.get store.id) := Graph.acquire_eq_ok.2 ⟨h, rfl⟩
  change (ofExcept ((s.get store.id).acquire Error.poisoned) : Edit Graph).run s = _
  rw [hacquire]
  rfl

theorem Edit.run_require (g : Graph) (id : ElementId) :
    (require g id).run s = if g.index.contains id then .ok () s else .error (.missing ⟨id, g.name⟩) s := by
  unfold require
  split <;> rfl

theorem perform_add (h : (s.get store.id).poisoned = false) (labels : List String) (properties : Properties) :
    s.perform (.add store labels properties) = (.ok (), s.put ((s.get store.id).add labels properties).2) := by
  let drawn := s.put { s.get store.id with ids := (s.get store.id).ids.fresh.2 }
  have hget : drawn.get store.id = { s.get store.id with ids := (s.get store.id).ids.fresh.2 } := by
    rw [get_put, if_pos (s.id_get store.id).symm]
  have hopen : (drawn.get store.id).poisoned = false := by
    rw [hget]
    exact h
  have hrun : (Edit.add store labels properties).run s =
      .ok () (drawn.put ((s.get store.id).add labels properties).2) := by
    rw [Edit.add, EStateM.run_bind, EStateM.run_modifyGet]
    change EStateM.run (Edit.acquire store >>= _) drawn = _
    rw [EStateM.run_bind, Edit.run_acquire hopen, hget]
    rfl
  rw [perform, Edit.perform, hrun, put_put]
  rfl

theorem perform_addEdge (h : (s.get store.id).poisoned = false) (source : ElementId) (label : String)
    (target : ElementId) : s.perform (.addEdge store source label target) =
      s.settle (((s.get store.id).addEdge source label target).map (·.2)) := by
  rw [perform, Edit.perform, Edit.addEdge, EStateM.run_bind, Edit.run_acquire h, Graph.addEdge]
  simp only [EStateM.run_bind, Edit.run_require]
  cases (s.get store.id).index.contains source with
  | false => rfl
  | true => cases (s.get store.id).index.contains target <;> rfl

theorem perform_setProperty (h : (s.get store.id).poisoned = false) (id : ElementId) (key : String) (value : Value) :
    s.perform (.setProperty store id key value) = s.settle ((s.get store.id).setProperty id key value) := by
  rw [perform, Edit.perform, Edit.setProperty, EStateM.run_bind, Edit.run_acquire h, Graph.setProperty]
  dsimp only
  cases (s.get store.id).index[id]? <;> rfl

theorem perform_run (env : Environment) (script : Script) : s.perform (.run env script) =
    (((Machine.run env script s).1.mapError .run).map fun _ => (), (Machine.run env script s).2) := by
  change (match EStateM.run (do
    set (Machine.run env script s).2
    ofExcept (((Machine.run env script s).1.mapError .run).map fun _ => ()) : Edit Unit) s with
    | .ok r s' => (Except.ok r, s')
    | .error e s' => (Except.error e, s')) = _
  cases ((Machine.run env script s).1.mapError Error.run).map fun _ => () <;> rfl

end InPlace

structure Intact (s : Stores) : Prop where
  locks : s.Open
  graphs : s.Consistent

theorem Intact.put {s : Stores} {g : Graph} (h : s.Intact) (hopen : g.poisoned = false) (hg : g.Consistent) :
    (s.put g).Intact :=
  ⟨h.locks.put hopen, h.graphs.put hg⟩

theorem Intact.settle {s : Stores} (h : s.Intact) {r : Except Graph.Missing Graph}
    (hr : ∀ g, r = .ok g → g.poisoned = false ∧ g.Consistent) : (s.settle r).2.Intact := by
  cases r with
  | error cause => exact h
  | ok g => exact h.put (hr g rfl).1 (hr g rfl).2

theorem Intact.after {s : Stores} (h : s.Intact) (op : Op) : (s.after op).Intact := by
  unfold Stores.after
  cases op with
  | new store =>
    change (if _ then s else s.put _).Intact
    split
    · exact h
    · exact h.put rfl (Graph.consistent_empty store.id store.name)
  | add store labels properties =>
    have hopen := h.locks store.id
    rw [perform_add hopen]
    exact h.put hopen ((h.graphs.get store.id).add hopen labels properties)
  | addEdge store source label target =>
    rw [perform_addEdge (h.locks store.id)]
    apply h.settle
    intro g hg
    obtain ⟨⟨edge, g'⟩, hadd, rfl⟩ := map_eq_ok.1 hg
    refine ⟨?_, (h.graphs.get store.id).addEdge hadd⟩
    rw [Graph.addEdge_eq_ok hadd]
    exact h.locks store.id
  | setProperty store id key value =>
    rw [perform_setProperty (h.locks store.id)]
    apply h.settle
    intro g hg
    refine ⟨?_, (h.graphs.get store.id).setProperty hg⟩
    obtain ⟨position, rfl⟩ := Graph.setProperty_eq_ok hg
    exact h.locks store.id
  | run environment script =>
    rw [perform_run]
    exact ⟨h.locks.later (Machine.run_changes environment script s), Machine.run_consistent environment script h.graphs⟩

theorem intact_empty : ({} : Stores).Intact :=
  ⟨fun _ => rfl, fun _ hg => absurd hg List.not_mem_nil⟩

theorem intact_afterAll (ops : List Op) : (afterAll ops).Intact := by
  apply List.foldlRecOn ops after (motive := Intact)
  · exact intact_empty
  · intro s hs op _
    exact hs.after op

theorem consistent_afterAll (ops : List Op) : (afterAll ops).Consistent :=
  (intact_afterAll ops).graphs

def FailsIff (s : Stores) (op : Op) (condition : Prop) : Prop :=
  ((∃ e, (s.perform op).1 = .error e) ↔ condition) ∧
    ((∃ e, (s.perform op).1 = .error e) → (s.perform op).2 = s)

theorem settle_fails (s : Stores) (r : Except Graph.Missing Graph) :
    ((∃ e, (s.settle r).1 = .error e) ↔ ∃ cause, r = .error cause) ∧
      ((∃ e, (s.settle r).1 = .error e) → (s.settle r).2 = s) := by
  cases r <;> simp [settle]

theorem Intact.failsIff_addEdge {s : Stores} (h : s.Intact) (store : Handle) (source : ElementId)
    (label : String) (target : ElementId) : s.FailsIff (.addEdge store source label target)
      ¬ ((s.get store.id).Has source ∧ (s.get store.id).Has target) := by
  rw [FailsIff, perform_addEdge (h.locks store.id), ← (h.graphs.get store.id).addEdge_fails source label target]
  have hfails := s.settle_fails (((s.get store.id).addEdge source label target).map (·.2))
  refine ⟨hfails.1.trans ?_, hfails.2⟩
  simp only [map_eq_error]

theorem Intact.failsIff_setProperty {s : Stores} (h : s.Intact) (store : Handle) (id : ElementId)
    (key : String) (value : Value) :
    s.FailsIff (.setProperty store id key value) ¬ (s.get store.id).Has id := by
  rw [FailsIff, perform_setProperty (h.locks store.id), ← (h.graphs.get store.id).setProperty_fails id key value]
  exact s.settle_fails ((s.get store.id).setProperty id key value)

/-- After any operations, the `k`-th element of a store has the identifier `k` and no label twice, the index gives
exactly the positions of the elements, looking an element up is searching for it, edges join elements, and the
counter is one ahead, so that it never leaves 64 bits as long as the elements are fewer. An edge or a property that is
refused changes nothing, and the operations, which change the stores in place, do what the functions of a store say. -/
theorem afterAll_represents (ops : List Op) (store : Handle) :
    let s := afterAll ops
    let g := s.get store.id
    (∀ (k : Nat) (e : Element), g.elements[k]? = some e → e.ref = ⟨store.id, ⟨k + 1⟩⟩ ∧ e.labels.Nodup) ∧
      (∀ (id : ElementId) (k : Nat), g.index[id]? = some k ↔ ∃ e, g.elements[k]? = some e ∧ e.id = id) ∧
      (∀ id, g.find? id = g.elements.toList.find? (·.id == id)) ∧
      (∀ (id : ElementId) (k : Nat), g.index[id]? = some k → k < g.elements.size) ∧
      (∀ e ∈ g.edges, g.Has e.source ∧ g.Has e.target) ∧
      g.ids.next = g.elements.size + 1 ∧
      (g.elements.size < UInt64.size - 1 → g.ids.next < UInt64.size) ∧
      (∀ source label target,
        s.FailsIff (.addEdge store source label target) ¬ (g.Has source ∧ g.Has target)) ∧
      (∀ id key value, s.FailsIff (.setProperty store id key value) ¬ g.Has id) ∧
      (∀ labels properties,
        s.perform (.add store labels properties) = (.ok (), s.put (g.add labels properties).2)) ∧
      (∀ source label target, s.perform (.addEdge store source label target) =
        s.settle ((g.addEdge source label target).map (·.2))) ∧
      ∀ id key value, s.perform (.setProperty store id key value) = s.settle (g.setProperty id key value) := by
  intro s g
  have hs : s.Intact := intact_afterAll ops
  have hopen := hs.locks store.id
  have hg : g.Consistent := hs.graphs.get store.id
  have hid : g.id = store.id := s.id_get store.id
  refine ⟨fun k e hk => ⟨?_, hg.labels k e hk⟩, fun id k => hg.index_iff, hg.find?_eq_search, fun id k hk => ?_,
    fun e he => hg.has_ends he, hg.next hopen, fun hlt => ?_, hs.failsIff_addEdge store,
    hs.failsIff_setProperty store, perform_add hopen, perform_addEdge hopen, perform_setProperty hopen⟩
  · rw [hg.refs k e hk, hid]
  · exact ((hg.index id k).1 hk).2
  · rw [hg.next hopen]
    omega

end Stores

end GraphQuery
