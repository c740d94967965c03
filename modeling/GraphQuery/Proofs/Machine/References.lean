import GraphQuery.Proofs.Machine.Frame

/-!
References to elements: where they stand in values, environments and stores, and when they resolve. What a term or a
reading step computes over a closed environment refers to elements only that are there.
-/

namespace GraphQuery

namespace Value

mutual
def refs : Value → List ElementRef
  | .element ref => [ref]
  | .list items => refsAll items
  | .null | .boolean _ | .integer _ | .float _ | .string _ => []

def refsAll : List Value → List ElementRef
  | [] => []
  | v :: vs => v.refs ++ refsAll vs
end

theorem mem_refsAll {ref : ElementRef} {vs : List Value} : ref ∈ refsAll vs ↔ ∃ v ∈ vs, ref ∈ v.refs := by
  induction vs with
  | nil => simp [refsAll]
  | cons v vs ih => simp [refsAll, ih]

def Holds (P : ElementRef → Prop) (v : Value) : Prop :=
  ∀ ref ∈ v.refs, P ref

def HoldAll (P : ElementRef → Prop) (vs : List Value) : Prop :=
  ∀ v ∈ vs, v.Holds P

variable {P Q : ElementRef → Prop}

theorem Holds.mono {v : Value} (h : v.Holds P) (hPQ : ∀ ref, P ref → Q ref) : v.Holds Q :=
  fun ref href => hPQ ref (h ref href)

theorem HoldAll.mono {vs : List Value} (h : HoldAll P vs) (hPQ : ∀ ref, P ref → Q ref) : HoldAll Q vs :=
  fun v hv => (h v hv).mono hPQ

@[simp] theorem holdAll_nil : HoldAll P [] := by simp [HoldAll]

@[simp] theorem holdAll_cons {v : Value} {vs : List Value} : HoldAll P (v :: vs) ↔ v.Holds P ∧ HoldAll P vs := by
  simp [HoldAll]

theorem holdAll_singleton {v : Value} : HoldAll P [v] ↔ v.Holds P := by
  rw [holdAll_cons, and_iff_left holdAll_nil]

theorem HoldAll.append {us vs : List Value} (hu : HoldAll P us) (hv : HoldAll P vs) : HoldAll P (us ++ vs) := by
  intro w hw
  rcases List.mem_append.1 hw with hw | hw
  · exact hu w hw
  · exact hv w hw

@[simp] theorem holds_element {ref : ElementRef} : (element ref).Holds P ↔ P ref := by
  simp [Holds, refs]

@[simp] theorem holds_list {vs : List Value} : (list vs).Holds P ↔ HoldAll P vs := by
  simp only [HoldAll, Holds, refs, mem_refsAll]
  constructor
  · intro h v hv ref href
    exact h ref ⟨v, hv, href⟩
  · rintro h ref ⟨v, hv, href⟩
    exact h v hv ref href

@[simp] theorem holds_null : null.Holds P := by simp [Holds, refs]

@[simp] theorem holds_boolean (b : Bool) : (boolean b).Holds P := by simp [Holds, refs]

@[simp] theorem holds_integer (n : Int64) : (integer n).Holds P := by simp [Holds, refs]

@[simp] theorem holds_float (x : Float) : (float x).Holds P := by simp [Holds, refs]

@[simp] theorem holds_string (s : String) : (string s).Holds P := by simp [Holds, refs]

theorem holds_ofLiteral (l : Literal) : (ofLiteral l).Holds P := by
  cases l <;> simp [ofLiteral]

theorem mem_of_mem_dedup {v : Value} {vs : List Value} (h : v ∈ dedup vs) : v ∈ vs := by
  have hkept : ∀ u ∈ dedup vs, u ∈ vs := by
    apply List.foldlRecOn vs _ (motive := fun kept : List Value => ∀ u ∈ kept, u ∈ vs)
    · intro u hu
      cases hu
    · intro kept hkept w hw u hu
      split at hu
      · exact hkept u hu
      · rcases List.mem_append.1 hu with hu | hu
        · exact hkept u hu
        · rw [List.mem_singleton.1 hu]
          exact hw
  exact hkept v h

end Value

def RunError.BlamesReference : RunError → Prop
  | .unboundStore _ | .unknownElement _ | .missing _ => True
  | _ => False

namespace Machine

section Safe

variable {α β : Type} {Q : α → Prop} {R : β → Prop}

/-- A result is as told, and a failure does not blame a reference. -/
def Safe (Q : α → Prop) : Except RunError α → Prop
  | .ok a => Q a
  | .error e => ¬ e.BlamesReference

@[simp] theorem safe_ok {a : α} : Safe Q (.ok a) ↔ Q a := Iff.rfl

@[simp] theorem safe_error {e : RunError} : Safe Q (.error e : Except RunError α) ↔ ¬ e.BlamesReference := Iff.rfl

theorem Safe.of_ok {r : Except RunError α} {a : α} (h : Safe Q r) (hr : r = .ok a) : Q a := by
  rwa [hr] at h

theorem Safe.of_error {r : Except RunError α} {e : RunError} (h : Safe Q r) (hr : r = .error e) :
    ¬ e.BlamesReference := by
  rwa [hr] at h

theorem Safe.bind {r : Except RunError α} {f : α → Except RunError β} (h : Safe Q r) (hf : ∀ a, Q a → Safe R (f a)) :
    Safe R (r >>= f) := by
  cases r with
  | error e => exact h
  | ok a => exact hf a h

theorem Safe.map {r : Except RunError α} {f : α → β} (h : Safe Q r) (hf : ∀ a, Q a → R (f a)) : Safe R (r.map f) := by
  cases r with
  | error e => exact h
  | ok a => exact hf a h

end Safe

section Operators

variable {P : ElementRef → Prop}

theorem truth_safe (op : Term.BinaryOp) (v : Value) : Safe (fun _ => True) (Value.truth op v) := by
  unfold Value.truth
  split <;> simp [RunError.BlamesReference]

theorem ofInt_safe (n : Int) : Safe (Value.Holds P) (Value.ofInt n) := by
  unfold Value.ofInt
  split <;> simp [RunError.BlamesReference]

theorem applyUnary_safe (op : Term.UnaryOp) (v : Value) : Safe (Value.Holds P) (Value.applyUnary op v) := by
  unfold Value.applyUnary
  split
  · simp
  · exact ofInt_safe _
  · simp
  · simp [RunError.BlamesReference]

theorem arithmetic_safe (op : Term.BinaryOp) (exact : Int → Int → Int) (rounded : Float → Float → Float)
    (left right : Value) : Safe (Value.Holds P) (Value.arithmetic op exact rounded left right) := by
  unfold Value.arithmetic
  split
  · exact ofInt_safe _
  · split <;> simp [RunError.BlamesReference]

theorem ordered_safe (op : Term.BinaryOp) (holds : Ordering → Bool) (left right : Value) :
    Safe (Value.Holds P) (Value.ordered op holds left right) := by
  unfold Value.ordered
  split
  · simp
  · split <;> simp [RunError.BlamesReference]

theorem add_safe {left right : Value} (hl : left.Holds P) (hr : right.Holds P) :
    Safe (Value.Holds P) (Value.add left right) := by
  unfold Value.add
  split
  · simp
  · simp
  · rw [Value.holds_list] at hl hr
    rw [safe_ok, Value.holds_list]
    exact hl.append hr
  · exact arithmetic_safe _ _ _ _ _

theorem divide_safe (left right : Value) : Safe (Value.Holds P) (Value.divide left right) := by
  unfold Value.divide
  split
  · split <;> simp [RunError.BlamesReference]
  · simp [RunError.BlamesReference]

theorem union_safe {left right : Value} (hl : left.Holds P) (hr : right.Holds P) :
    Safe (Value.Holds P) (Value.union left right) := by
  unfold Value.union
  split
  · rw [Value.holds_list] at hl hr
    rw [safe_ok, Value.holds_list]
    intro v hv
    exact hl.append hr v (Value.mem_of_mem_dedup hv)
  · simp [RunError.BlamesReference]

theorem intersection_safe {left : Value} (hl : left.Holds P) (right : Value) :
    Safe (Value.Holds P) (Value.intersection left right) := by
  unfold Value.intersection
  split
  · rw [Value.holds_list] at hl
    rw [safe_ok, Value.holds_list]
    intro v hv
    exact hl v (List.mem_filter.1 (Value.mem_of_mem_dedup hv)).1
  · simp [RunError.BlamesReference]

theorem applyBinary_safe (op : Term.BinaryOp) {left right : Value} (hl : left.Holds P) (hr : right.Holds P) :
    Safe (Value.Holds P) (Value.applyBinary op left right) := by
  cases op with
  | equality | difference => simp [Value.applyBinary]
  | less | lessOrEqual | greater | greaterOrEqual => exact ordered_safe _ _ _ _
  | and | or =>
    exact (truth_safe _ _).bind fun _ _ => (truth_safe _ _).bind fun _ _ => safe_ok.2 (Value.holds_boolean _)
  | add => exact add_safe hl hr
  | subtract | multiply => exact arithmetic_safe _ _ _ _ _
  | divide => exact divide_safe _ _
  | union => exact union_safe hl hr
  | intersection => exact intersection_safe hl _

theorem spread_holds {v : Value} (h : v.Holds P) : Value.HoldAll P (spread v) := by
  unfold spread
  split
  · exact Value.holds_list.1 h
  · simpa using h

end Operators

end Machine

def Element.refs (e : Element) : List ElementRef :=
  e.properties.values.flatMap Value.refs

def Graph.refs (g : Graph) : List ElementRef :=
  g.elements.toList.flatMap Element.refs

def Binding.refs : Binding → List ElementRef
  | store _ => []
  | value v => v.refs

def Environment.refs (env : Environment) : List ElementRef :=
  (Dict.values env).flatMap Binding.refs

theorem Element.holds_of_get? {P : ElementRef → Prop} {e : Element} {key : String} {v : Value}
    (h : ∀ ref ∈ e.refs, P ref) (hv : e.get? key = some v) : v.Holds P :=
  fun ref href => h ref (List.mem_flatMap.2 ⟨v, Machine.mem_values_of_get? hv, href⟩)

theorem Graph.Consistent.has_adjacent {g : Graph} (h : g.Consistent) {id id' : ElementId} {direction : Direction}
    {label : Option String} (hid : id' ∈ g.adjacent id direction label) : g.Has id' := by
  obtain ⟨e, he, hnext⟩ := List.mem_filterMap.1 hid
  have hedge : e ∈ g.edges := Array.mem_toList_iff.1 (List.mem_filter.1 (List.mem_filter.1 he).1).1
  obtain ⟨hsource, htarget⟩ := h.has_ends hedge
  cases direction with
  | outgoing =>
    cases hnext
    exact htarget
  | incoming =>
    cases hnext
    exact hsource
  | both =>
    simp only [Edge.neighbour?, Edge.other?] at hnext
    split at hnext
    · cases hnext
      exact htarget
    · split at hnext
      · cases hnext
        exact hsource
      · cases hnext

namespace Machine

def Resolves (env : Environment) (stores : Stores) (ref : ElementRef) : Prop :=
  ∃ store ∈ env.handles, store.id = ref.store ∧ (stores.get store.id).Has ref.element

/-- The references in the bound values and in the properties of the bound stores resolve. -/
structure Closed (env : Environment) (stores : Stores) : Prop where
  values : ∀ ref ∈ env.refs, Resolves env stores ref
  properties : ∀ store ∈ env.handles, ∀ ref ∈ (stores.get store.id).refs, Resolves env stores ref

instance (env : Environment) (stores : Stores) (ref : ElementRef) : Decidable (Resolves env stores ref) :=
  decidable_of_iff (∃ store ∈ env.handles, store.id = ref.store ∧
    ∃ e ∈ (stores.get store.id).elements.toList, e.id = ref.element) (by simp [Resolves, Graph.Has])

instance (env : Environment) (stores : Stores) : Decidable (Closed env stores) :=
  decidable_of_iff ((∀ ref ∈ env.refs, Resolves env stores ref) ∧
    ∀ store ∈ env.handles, ∀ ref ∈ (stores.get store.id).refs, Resolves env stores ref)
    ⟨fun h => ⟨h.1, h.2⟩, fun h => ⟨h.values, h.properties⟩⟩

section Resolves

variable {env : Environment} {stores : Stores} {ref : ElementRef}

theorem Resolves.bound (h : Resolves env stores ref) : ∃ store ∈ env.handles, store.id = ref.store := by
  obtain ⟨store, hstore, hid, -⟩ := h
  exact ⟨store, hstore, hid⟩

theorem Resolves.has (h : Resolves env stores ref) : (stores.get ref.store).Has ref.element := by
  obtain ⟨store, -, hid, hhas⟩ := h
  rw [← hid]
  exact hhas

theorem resolves_of_has {id : StoreId} {element : ElementId} (hbound : ∃ store ∈ env.handles, store.id = id)
    (hhas : (stores.get id).Has element) : Resolves env stores ⟨id, element⟩ := by
  obtain ⟨store, hstore, rfl⟩ := hbound
  exact ⟨store, hstore, rfl, hhas⟩

theorem exists_storeById? {id : StoreId} (hbound : ∃ store ∈ env.handles, store.id = id) :
    ∃ store, env.storeById? id = some store ∧ store.id = id := by
  obtain ⟨store, hstore, hid⟩ := hbound
  cases hfind : env.storeById? id with
  | some found => exact ⟨found, rfl, (Environment.mem_handles_of_storeById? hfind).2⟩
  | none =>
    obtain ⟨b, hb, hh⟩ := List.mem_filterMap.1 hstore
    have hnone := List.findSome?_eq_none_iff.1 hfind b hb
    simp [hh, hid] at hnone

theorem Resolves.graphOf_eq (h : Resolves env stores ref) :
    World.graphOf ⟨env, stores⟩ ref = .ok (stores.get ref.store) := by
  obtain ⟨store, hfind, hid⟩ := exists_storeById? h.bound
  simp only [World.graphOf, hfind, hid]

theorem Resolves.find?_eq (h : Resolves env stores ref) (hs : stores.Consistent) :
    ∃ e ∈ (stores.get ref.store).elements, (stores.get ref.store).find? ref.element = some e ∧ e.ref = ref := by
  obtain ⟨e, he, hid⟩ := h.has
  obtain ⟨hstore, hfind⟩ := (hs.get ref.store).find?_of_mem (Array.mem_toList_iff.2 he)
  refine ⟨e, he, ?_, ?_⟩
  · rw [← hid, Element.id, hfind]
  · rw [Stores.id_get] at hstore
    calc e.ref
      _ = ⟨e.ref.store, e.id⟩ := rfl
      _ = ref := by rw [hstore, hid]

theorem acquire_safe (g : Graph) : Safe (· = g) (g.acquire RunError.poisoned) := by
  unfold Graph.acquire
  split <;> simp [RunError.BlamesReference]

theorem Resolves.contents_safe (h : Resolves env stores ref) :
    Safe (· = stores.get ref.store) (World.contents ⟨env, stores⟩ ref) := by
  rw [World.contents, h.graphOf_eq, ok_bind]
  exact acquire_safe _

end Resolves

structure Ready (env : Environment) (stores : Stores) (scope : Scope) : Prop where
  consistent : stores.Consistent
  closed : Closed env stores
  scope : ∀ entry ∈ scope, entry.2.Holds (Resolves env stores)

section Evaluation

variable {env : Environment} {stores : Stores} {scope : Scope}

theorem Ready.bind (h : Ready env stores scope) (name : String) {v : Value} (hv : v.Holds (Resolves env stores)) :
    Ready env stores ((name, v) :: scope) := by
  refine ⟨h.consistent, h.closed, ?_⟩
  intro entry hentry
  rcases List.mem_cons.1 hentry with rfl | hentry
  · exact hv
  · exact h.scope entry hentry

theorem valueOf_safe (h : Ready env stores scope) (name : String) :
    Safe (Value.Holds (Resolves env stores)) (World.valueOf ⟨env, stores⟩ scope name) := by
  unfold World.valueOf
  cases hfind : scope.find? (·.1 == name) with
  | some entry => exact h.scope entry (List.mem_of_find?_eq_some hfind)
  | none =>
    cases hget : Dict.get? env name with
    | none => simp [RunError.BlamesReference]
    | some b =>
      cases b with
      | store handle => simp [RunError.BlamesReference]
      | value v =>
        intro ref href
        exact h.closed.values ref (List.mem_flatMap.2 ⟨.value v, mem_values_of_get? hget, href⟩)

theorem lookup_safe (h : Ready env stores scope) {ref : ElementRef} (href : Resolves env stores ref) :
    Safe (fun e => ∀ r ∈ e.refs, Resolves env stores r) (World.lookup ⟨env, stores⟩ ref) := by
  apply href.contents_safe.bind
  rintro g rfl
  obtain ⟨e, he, hfind, -⟩ := href.find?_eq h.consistent
  rw [hfind, safe_ok]
  intro r hr
  obtain ⟨store, hstore, hid⟩ := href.bound
  apply h.closed.properties store hstore r
  rw [hid]
  exact List.mem_flatMap.2 ⟨e, Array.mem_toList_iff.2 he, hr⟩

theorem adjacent_safe (h : Ready env stores scope) {ref : ElementRef} (href : Resolves env stores ref)
    (direction : Direction) (label : Option String) :
    Safe (Value.HoldAll (Resolves env stores)) (World.adjacent ⟨env, stores⟩ ref direction label) := by
  apply href.contents_safe.bind
  rintro g rfl
  intro v hv
  obtain ⟨id, hid, rfl⟩ := List.mem_map.1 hv
  rw [Value.holds_element]
  exact resolves_of_has href.bound ((h.consistent.get ref.store).has_adjacent hid)

theorem feature_safe (h : Ready env stores scope) {ref : ElementRef} (href : Resolves env stores ref) (name : String) :
    Safe (Value.Holds (Resolves env stores)) (World.feature ⟨env, stores⟩ ref name) := by
  apply (lookup_safe h href).bind
  intro e he
  split
  · rename_i hv
    exact Element.holds_of_get? he hv
  · apply (adjacent_safe h href _ _).bind
    intro targets htargets
    split
    · exact Value.holds_null
    · exact htargets _ List.mem_cons_self
    · exact Value.holds_list.2 htargets

mutual
theorem navigate_safe (h : Ready env stores scope) (name : String) : (v : Value) → v.Holds (Resolves env stores) →
    Safe (Value.Holds (Resolves env stores)) (navigate ⟨env, stores⟩ name v)
  | .element ref, hv => by
    rw [navigate]
    exact feature_safe h (Value.holds_element.1 hv) name
  | .list items, hv => by
    rw [navigate]
    exact (navigateAll_safe h name items (Value.holds_list.1 hv)).bind fun mapped => Value.holds_list.2
  | .null, _ => by
    rw [navigate]
    exact Value.holds_null
  | .boolean _, _ | .integer _, _ | .float _, _ | .string _, _ => by simp [navigate, RunError.BlamesReference]

theorem navigateAll_safe (h : Ready env stores scope) (name : String) : (vs : List Value) →
    Value.HoldAll (Resolves env stores) vs →
    Safe (Value.HoldAll (Resolves env stores)) (navigateAll ⟨env, stores⟩ name vs)
  | [], _ => by simp [navigateAll]
  | v :: vs, hvs => by
    rw [navigateAll]
    rw [Value.holdAll_cons] at hvs
    apply (navigate_safe h name v hvs.1).bind
    intro first hfirst
    apply (navigateAll_safe h name vs hvs.2).bind
    intro rest hrest
    exact (spread_holds hfirst).append hrest
end

mutual
theorem evaluate_safe (h : Ready env stores scope) : (t : Term) →
    Safe (Value.Holds (Resolves env stores)) (evaluate ⟨env, stores⟩ scope t)
  | .literal l => by
    rw [evaluate]
    exact Value.holds_ofLiteral l
  | .var x => by
    rw [evaluate]
    exact valueOf_safe h x
  | .property target name => by
    rw [evaluate]
    exact (evaluate_safe h target).bind fun v hv => navigate_safe h name v hv
  | .list items => by
    rw [evaluate]
    exact (evaluateAll_safe h items).bind fun vs => Value.holds_list.2
  | .unary op operand => by
    rw [evaluate]
    exact (evaluate_safe h operand).bind fun v _ => applyUnary_safe op v
  | .binary op left right => by
    have hboolean : ∀ b : Bool, Safe (Value.Holds (Resolves env stores)) (.ok (.boolean b)) := Value.holds_boolean
    cases op with
    | and =>
      rw [evaluate]
      apply (evaluate_safe h left).bind
      intro l _
      apply (truth_safe .and l).bind
      intro b _
      split
      · exact (evaluate_safe h right).bind fun r _ => (truth_safe .and r).bind fun b _ => hboolean b
      · exact hboolean false
    | or =>
      rw [evaluate]
      apply (evaluate_safe h left).bind
      intro l _
      apply (truth_safe .or l).bind
      intro b _
      split
      · exact hboolean true
      · exact (evaluate_safe h right).bind fun r _ => (truth_safe .or r).bind fun b _ => hboolean b
    | _ =>
      simp only [evaluate]
      exact (evaluate_safe h left).bind fun l hl => (evaluate_safe h right).bind fun r hr => applyBinary_safe _ hl hr

theorem evaluateAll_safe (h : Ready env stores scope) : (ts : List Term) →
    Safe (Value.HoldAll (Resolves env stores)) (evaluateAll ⟨env, stores⟩ scope ts)
  | [] => by simp [evaluateAll]
  | t :: ts => by
    rw [evaluateAll]
    apply (evaluate_safe h t).bind
    intro v hv
    exact (evaluateAll_safe h ts).bind fun vs hvs => Value.holdAll_cons.2 ⟨hv, hvs⟩
end

end Evaluation

end Machine

end GraphQuery
