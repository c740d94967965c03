import GraphQuery.Execution
import GraphQuery.Proofs.Machine.References

namespace GraphQuery

namespace Graph

theorem Grown.has {g g' : Graph} (h : g.Grown g') {id : ElementId} (hid : g.Has id) : g'.Has id := by
  obtain ⟨e, he, rfl⟩ := hid
  obtain ⟨k, hk, rfl⟩ := Array.getElem_of_mem he
  obtain ⟨e', he', href, -⟩ := h.kept k _ (Array.getElem?_eq_getElem hk)
  exact ⟨e', Array.mem_of_getElem? he', by rw [Element.id, href, Element.id]⟩

theorem refs_add (g : Graph) (labels : List String) : (g.add labels ∅).2.refs = g.refs := by
  simp only [refs, add, Array.toList_push, List.flatMap_append, List.flatMap_singleton]
  exact List.append_nil _

theorem refs_create {ε : Type} (g : Graph) (failure : ε) (labels : List String) :
    (g.create failure labels ∅).2.refs = g.refs := by
  cases hopen : g.poisoned with
  | false =>
    rw [create_of_open hopen]
    exact g.refs_add labels
  | true =>
    rw [create_of_poisoned hopen]
    rfl

theorem has_add (g : Graph) (labels : List String) (properties : Properties) :
    (g.add labels properties).2.Has (g.add labels properties).1.id :=
  ⟨_, Array.mem_push_self, rfl⟩

theorem mem_refs_of_setProperty {g g' : Graph} {id : ElementId} {key : String} {value : Value}
    (h : g.setProperty id key value = .ok g') {ref : ElementRef} (href : ref ∈ g'.refs) :
    ref ∈ value.refs ∨ ref ∈ g.refs := by
  obtain ⟨position, rfl⟩ := setProperty_eq_ok h
  obtain ⟨e, he, href⟩ := List.mem_flatMap.1 href
  obtain ⟨k, hk⟩ := List.mem_iff_getElem?.1 he
  rw [Array.getElem?_toList, Array.getElem?_modify] at hk
  -- an element of the store, or the one with the property set
  have hold : ∀ e : Element, g.elements[k]? = some e → ref ∈ e.refs → ref ∈ g.refs := by
    intro e he href
    exact List.mem_flatMap.2 ⟨e, Array.mem_toList_iff.2 (Array.mem_of_getElem? he), href⟩
  split at hk
  · obtain ⟨e₀, he₀, rfl⟩ := Option.map_eq_some_iff.1 hk
    obtain ⟨v, hv, href⟩ := List.mem_flatMap.1 href
    obtain ⟨entry, hentry, rfl⟩ := List.mem_map.1 hv
    rcases Dict.mem_insertEntry hentry with rfl | hentry
    · exact .inl href
    · exact .inr (hold e₀ he₀ (List.mem_flatMap.2 ⟨_, List.mem_map.2 ⟨entry, hentry, rfl⟩, href⟩))
  · exact .inr (hold e hk href)

end Graph

namespace Machine

section Steps

variable {env : Environment} {stores : Stores} {scope : Scope}

theorem stringArgument_safe (h : Ready env stores scope) (step : String) (t : Term) :
    Safe (fun _ => True) (stringArgument ⟨env, stores⟩ scope step t) := by
  apply (evaluate_safe h t).bind
  intro v _
  cases v <;> simp [RunError.BlamesReference]

theorem stringArguments_safe (h : Ready env stores scope) (step : String) (ts : List Term) :
    Safe (fun _ => True) (stringArguments ⟨env, stores⟩ scope step ts) := by
  induction ts with
  | nil => trivial
  | cons t ts ih => exact (stringArgument_safe h step t).bind fun _ _ => ih.bind fun _ _ => trivial

theorem limitArgument_safe (h : Ready env stores scope) (t : Term) :
    Safe (fun _ => True) (limitArgument ⟨env, stores⟩ scope t) := by
  apply (evaluate_safe h t).bind
  intro v _
  cases v with
  | integer n =>
    dsimp only
    split <;> simp [RunError.BlamesReference]
  | _ => simp [RunError.BlamesReference]

theorem storeArgument_safe (step : String) (position : Nat) (t : Term) :
    Safe (· ∈ env.handles) (storeArgument ⟨env, stores⟩ step position t) := by
  unfold storeArgument
  split
  · split
    · rename_i hname
      exact Environment.mem_handles_of_store? hname
    · simp [RunError.BlamesReference]
  · simp [RunError.BlamesReference]

theorem elementRef_safe {P : ElementRef → Prop} (step : String) {v : Value} (hv : v.Holds P) :
    Safe P (elementRef step v) := by
  cases v with
  | element ref => exact Value.holds_element.1 hv
  | _ => simp [elementRef, RunError.BlamesReference]

theorem resolve_safe (h : Ready env stores scope) (step : String) {v : Value} (hv : v.Holds (Resolves env stores)) :
    Safe (fun e => ∀ ref ∈ e.refs, Resolves env stores ref) (resolve ⟨env, stores⟩ step v) :=
  (elementRef_safe step hv).bind fun _ href => lookup_safe h href

theorem keepElements_safe (h : Ready env stores scope) (step : String) (test : Element → Bool) {vs : List Value}
    (hvs : Value.HoldAll (Resolves env stores) vs) :
    Safe (Value.HoldAll (Resolves env stores)) (keepElements ⟨env, stores⟩ step test vs) := by
  induction vs with
  | nil => exact Value.holdAll_nil
  | cons v vs ih =>
    obtain ⟨hv, hvs⟩ := Value.holdAll_cons.1 hvs
    apply (resolve_safe h step hv).bind
    intro e _
    apply (ih hvs).bind
    intro rest hrest
    rw [safe_ok]
    split
    · exact Value.holdAll_cons.2 ⟨hv, hrest⟩
    · exact hrest

theorem flatMapElements_safe {P : ElementRef → Prop} {f : Value → Except RunError (List Value)}
    (hf : ∀ v, v.Holds P → Safe (Value.HoldAll P) (f v)) {vs : List Value} (hvs : Value.HoldAll P vs) :
    Safe (Value.HoldAll P) (flatMapElements f vs) := by
  induction vs with
  | nil => exact Value.holdAll_nil
  | cons v vs ih =>
    obtain ⟨hv, hvs⟩ := Value.holdAll_cons.1 hvs
    exact (hf v hv).bind fun out hout => (ih hvs).bind fun rest hrest => hout.append hrest

theorem neighbours_safe (h : Ready env stores scope) (step : String) (direction : Direction) (label : Option String)
    {v : Value} (hv : v.Holds (Resolves env stores)) :
    Safe (Value.HoldAll (Resolves env stores)) (neighbours ⟨env, stores⟩ step direction label v) :=
  (elementRef_safe step hv).bind fun _ href => adjacent_safe h href direction label

theorem propertyValues_safe (h : Ready env stores scope) (step key : String) {v : Value}
    (hv : v.Holds (Resolves env stores)) :
    Safe (Value.HoldAll (Resolves env stores)) (propertyValues ⟨env, stores⟩ step key v) := by
  apply (resolve_safe h step hv).bind
  intro e he
  rw [safe_ok]
  cases hget : e.get? key with
  | none => exact Value.holdAll_nil
  | some u => exact spread_holds (Element.holds_of_get? he hget)

theorem elements_hold (hs : stores.Consistent) {store : Handle} (hstore : store ∈ env.handles) :
    Value.HoldAll (Resolves env stores) ((stores.get store.id).elements.toList.map fun e => .element e.ref) := by
  intro v hv
  obtain ⟨e, he, rfl⟩ := List.mem_map.1 hv
  rw [Value.holds_element]
  obtain ⟨hid, -⟩ := (hs.get store.id).find?_of_mem he
  rw [Stores.id_get] at hid
  exact ⟨store, hstore, hid.symm, e, Array.mem_toList_iff.1 he, rfl⟩

theorem readStep_safe (h : Ready env stores scope) (name : String) (step : Step) (arguments : List Term)
    {stream : List Value} (hstream : Value.HoldAll (Resolves env stores) stream) :
    Safe (Value.HoldAll (Resolves env stores)) (readStep ⟨env, stores⟩ scope name step arguments stream) := by
  unfold readStep
  split
  · apply (storeArgument_safe name 1 _).bind
    intro store hstore
    apply (acquire_safe _).bind
    rintro g rfl
    exact elements_hold h.consistent hstore
  · exact (evaluateAll_safe h _).bind fun vs hvs => hstream.append hvs
  · exact (stringArguments_safe h name _).bind fun _ _ => keepElements_safe h name _ hstream
  · exact (stringArgument_safe h name _).bind fun _ _ => (evaluate_safe h _).bind fun _ _ =>
      keepElements_safe h name _ hstream
  · exact flatMapElements_safe (fun v => neighbours_safe h name _ _) hstream
  · exact (stringArgument_safe h name _).bind fun _ _ =>
      flatMapElements_safe (fun v => neighbours_safe h name _ _) hstream
  · exact (stringArgument_safe h name _).bind fun _ _ =>
      flatMapElements_safe (fun v => propertyValues_safe h name _) hstream
  · exact fun v hv => hstream v (Value.mem_of_mem_dedup hv)
  · simp
  · exact (limitArgument_safe h _).bind fun count _ => fun v hv => hstream v (List.mem_of_mem_take hv)
  · simp
  · simp
  all_goals simp [RunError.BlamesReference]

end Steps

section Running

variable {env : Environment} {stores stores' : Stores} {scope : Scope}

theorem Frame.resolves (h : Frame env stores stores') {ref : ElementRef} (href : Resolves env stores ref) :
    Resolves env stores' ref := by
  obtain ⟨store, hstore, hid, hhas⟩ := href
  exact ⟨store, hstore, hid, (h.grown store.id).has hhas⟩

theorem Closed.put (h : Closed env stores) {g : Graph} (hframe : Frame env stores (stores.put g))
    (hg : ∀ ref ∈ g.refs, Resolves env stores ref) : Closed env (stores.put g) := by
  constructor
  · intro ref href
    exact hframe.resolves (h.values ref href)
  · intro store hstore ref href
    apply hframe.resolves
    rw [Stores.get_put] at href
    split at href
    · exact hg ref href
    · exact h.properties store hstore ref href

theorem Ready.later (h : Ready env stores scope) (hchanges : Changes env stores stores')
    (hclosed : Closed env stores') : Ready env stores' scope := by
  have hframe := Changes.frame hchanges h.consistent
  refine ⟨Changes.consistent hchanges h.consistent, hclosed, ?_⟩
  intro entry hentry
  exact (h.scope entry hentry).mono fun _ => hframe.resolves

structure Sound (env : Environment) (stores : Stores) (out : Outcome (List Value)) : Prop where
  changes : Changes env stores out.2
  closed : Closed env out.2
  safe : Safe (Value.HoldAll (Resolves env out.2)) out.1

theorem Ready.sound (h : Ready env stores scope) {r : Except RunError (List Value)}
    (hr : Safe (Value.HoldAll (Resolves env stores)) r) : Sound env stores (r, stores) :=
  ⟨.refl, h.closed, hr⟩

theorem Sound.after {out : Outcome (List Value)} (h : Sound env stores' out) (hchanges : Changes env stores stores') :
    Sound env stores out :=
  ⟨hchanges.trans h.changes, h.closed, h.safe⟩

theorem addVertex_sound (h : Ready env stores scope) (name : String) (g label : Term) :
    Sound env stores (addVertex ⟨env, stores⟩ scope name g label) := by
  have hchanges := addVertex_changes ⟨env, stores⟩ scope name g label
  have harguments : Safe (fun p => p.1 ∈ env.handles) (do
      let store ← storeArgument ⟨env, stores⟩ name 1 g
      let label ← stringArgument ⟨env, stores⟩ scope name label
      .ok (store, label) : Except RunError (Handle × String)) :=
    (storeArgument_safe name 1 g).bind fun _ hstore => (stringArgument_safe h name label).bind fun _ _ => hstore
  unfold addVertex at hchanges ⊢
  split
  · rename_i e heq
    rw [heq] at harguments
    exact h.sound harguments
  · rename_i store label heq
    simp only [heq] at harguments hchanges
    have hframe := Changes.frame hchanges h.consistent
    refine ⟨hchanges, h.closed.put hframe fun ref href => ?_, ?_⟩
    · rw [Graph.refs_create] at href
      exact h.closed.properties store harguments ref href
    · cases hopen : (stores.get store.id).poisoned with
      | true =>
        rw [Graph.create_of_poisoned hopen]
        exact not_false
      | false =>
        rw [Graph.create_of_open hopen]
        dsimp only
        rw [map_ok, safe_ok, Value.holdAll_singleton, Value.holds_element]
        refine ⟨store, harguments, ?_, ?_⟩
        · simp [Graph.add, Element.ref_withLabels]
        · have hhas := (stores.get store.id).has_add [label] ∅
          rw [Stores.get_put, if_pos (by simp [Graph.add])]
          exact hhas

theorem setPropertyOf_sound (h : Ready env stores scope) (name key : String) (value : Term) {v : Value}
    (hv : v.Holds (Resolves env stores)) : Sound env stores (setPropertyOf env scope name key value v stores) := by
  have hchanges := setPropertyOf_changes env scope name key value v stores
  unfold setPropertyOf at hchanges ⊢
  dsimp only at hchanges ⊢
  split
  · rename_i e heq
    refine h.sound (Safe.of_error (Q := fun _ => True) ?_ heq)
    apply (elementRef_safe name hv).bind
    intro ref href
    rw [href.graphOf_eq, ok_bind]
    apply (evaluate_safe (h.bind implicitName hv) value).bind
    intro result _
    apply (acquire_safe _).bind
    rintro g rfl
    split
    · trivial
    · rename_i hset
      have hfails := (h.consistent.get ref.store).setProperty_fails ref.element key result
      exact absurd href.has (hfails.1 ⟨_, hset⟩)
  · rename_i g heq
    simp only [heq] at hchanges
    have hframe := Changes.frame hchanges h.consistent
    refine ⟨hchanges, h.closed.put hframe ?_, ?_⟩
    · obtain ⟨ref, href, hrest⟩ := bind_eq_ok.1 heq
      replace href := (elementRef_safe name hv).of_ok href
      rw [href.graphOf_eq, ok_bind] at hrest
      obtain ⟨result, hresult, hset⟩ := bind_eq_ok.1 hrest
      obtain ⟨opened, hopened, hset⟩ := bind_eq_ok.1 hset
      obtain ⟨-, rfl⟩ := Graph.acquire_eq_ok.1 hopened
      replace hresult := (evaluate_safe (h.bind implicitName hv) value).of_ok hresult
      split at hset
      · rename_i hset'
        cases hset
        intro r hr
        rcases Graph.mem_refs_of_setProperty hset' hr with hr | hr
        · exact hresult r hr
        · obtain ⟨store, hstore, hid⟩ := href.bound
          rw [← hid] at hr
          exact h.closed.properties store hstore r hr
      · cases hset
    · rw [safe_ok, Value.holdAll_singleton]
      exact hv.mono fun _ => hframe.resolves

theorem forEach_sound {action : Value → Stores → Outcome (List Value)}
    (haction : ∀ v stores, Ready env stores scope → v.Holds (Resolves env stores) →
      Sound env stores (action v stores))
    (vs : List Value) (h : Ready env stores scope) (hvs : Value.HoldAll (Resolves env stores) vs) :
    Sound env stores (forEach action vs stores) := by
  induction vs generalizing stores with
  | nil => exact h.sound Value.holdAll_nil
  | cons v vs ih =>
    obtain ⟨hv, hvs⟩ := Value.holdAll_cons.1 hvs
    have hhead := haction v stores h hv
    rw [forEach]
    split
    · rename_i heq
      rw [heq] at hhead
      exact hhead
    · rename_i out stores₁ heq
      rw [heq] at hhead
      obtain ⟨hchanges, hclosed, hout⟩ := hhead
      have hframe := Changes.frame hchanges h.consistent
      have hrest := ih (h.later hchanges hclosed) (hvs.mono fun _ => hframe.resolves)
      split
      · rename_i heq'
        rw [heq'] at hrest
        exact hrest.after hchanges
      · rename_i rest stores₂ heq'
        rw [heq'] at hrest
        obtain ⟨hchanges', hclosed', hrest⟩ := hrest
        have hframe' := Changes.frame hchanges' (Changes.consistent hchanges h.consistent)
        have hkept := Value.HoldAll.mono hout fun _ => hframe'.resolves
        exact ⟨hchanges.trans hchanges', hclosed', hkept.append hrest⟩

theorem runStep_sound (h : Ready env stores scope) (name : String) (arguments : List Term) {stream : List Value}
    (hstream : Value.HoldAll (Resolves env stores) stream) :
    Sound env stores (runStep env scope name arguments stream stores) := by
  unfold runStep
  dsimp only
  split
  · exact h.sound (by simp [RunError.BlamesReference])
  · exact addVertex_sound h name _ _
  · rename_i key value _
    have hkey := stringArgument_safe h name key
    split
    · rename_i heq
      exact h.sound (hkey.of_error heq)
    · exact forEach_sound (fun v stores h hv => setPropertyOf_sound h name _ value hv) stream h hstream
  · exact h.sound (readStep_safe h name _ _ hstream)

theorem outcome_safe {P : ElementRef → Prop} (kind : ClosureKind) {v : Value} {stream : List Value} (hv : v.Holds P)
    (hstream : Value.HoldAll P stream) : Safe (Value.HoldAll P) (kind.outcome v stream) := by
  cases kind with
  | filter =>
    unfold ClosureKind.outcome
    dsimp only
    split
    · exact Value.holdAll_nil
    · rw [safe_ok]
      split
      · exact Value.holdAll_singleton.2 hv
      · exact Value.holdAll_nil
    · simp [RunError.BlamesReference]
  | transform =>
    intro u hu
    obtain ⟨w, hw, hu⟩ := List.mem_flatMap.1 hu
    exact spread_holds (hstream w hw) u hu
  | sideEffect => exact Value.holdAll_singleton.2 hv

mutual
theorem runInstruction_sound : (i : Instruction) → ∀ {scope : Scope} {stream : List Value} {stores : Stores},
    Ready env stores scope → Value.HoldAll (Resolves env stores) stream →
    Sound env stores (runInstruction env scope i stream stores)
  | .step name arguments, scope, stream, stores, h, hstream => by
    rw [runInstruction]
    exact runStep_sound h name arguments hstream
  | .closure name parameter body, scope, stream, stores, h, hstream => by
    rw [runInstruction]
    split
    · exact h.sound (by simp [RunError.BlamesReference])
    · apply forEach_sound _ stream h hstream
      intro v stores h hv
      have hbody := runBlock_sound body (h.bind (boundName parameter) hv)
        (Value.holdAll_singleton.2 hv)
      split
      · rename_i heq
        rw [heq] at hbody
        exact hbody
      · rename_i heq
        rw [heq] at hbody
        obtain ⟨hchanges, hclosed, hresult⟩ := hbody
        have hframe := Changes.frame hchanges h.consistent
        exact ⟨hchanges, hclosed, outcome_safe _ (hv.mono fun _ => hframe.resolves) hresult⟩
  | .statement term, scope, stream, stores, h, hstream => by
    rw [runInstruction]
    exact h.sound ((evaluate_safe h term).map fun v hv => Value.holdAll_singleton.2 hv)

theorem runBlock_sound : (is : List Instruction) → ∀ {scope : Scope} {stream : List Value} {stores : Stores},
    Ready env stores scope → Value.HoldAll (Resolves env stores) stream →
    Sound env stores (runBlock env scope is stream stores)
  | [], scope, stream, stores, h, hstream => by
    rw [runBlock]
    exact h.sound hstream
  | i :: is, scope, stream, stores, h, hstream => by
    have hhead := runInstruction_sound i h hstream
    rw [runBlock]
    split
    · rename_i heq
      rw [heq] at hhead
      exact hhead
    · rename_i heq
      rw [heq] at hhead
      obtain ⟨hchanges, hclosed, hout⟩ := hhead
      have hrest := runBlock_sound is (h.later hchanges hclosed) hout
      exact hrest.after hchanges
end

theorem run_sound (s : Script) (hs : stores.Consistent) (h : Closed env stores) :
    Sound env stores (run env s stores) :=
  runBlock_sound s.instructions ⟨hs, h, fun _ hentry => absurd hentry List.not_mem_nil⟩ Value.holdAll_nil

end Running

section Results

variable {env : Environment} {stores : Stores}

theorem Resolves.resolve_eq {ref : ElementRef} (h : Resolves env stores ref) (hs : stores.Consistent)
    (hopen : stores.Open) : ∃ e, QueryResult.resolve env stores ref = .ok e ∧ e.ref = ref := by
  obtain ⟨store, hstore, hid⟩ := exists_storeById? h.bound
  obtain ⟨e, -, hfind, href⟩ := h.find?_eq hs
  have hacquire : (stores.get ref.store).acquire ResultError.poisoned = .ok (stores.get ref.store) :=
    Graph.acquire_eq_ok.2 ⟨hopen ref.store, rfl⟩
  refine ⟨e, ?_, href⟩
  simp only [QueryResult.resolve, hstore, hid, hacquire, ok_bind, hfind]

mutual
theorem mapValue_succeeds (hs : stores.Consistent) (hopen : stores.Open) : (v : Value) → v.Holds (Resolves env stores) →
    ∃ r, QueryResult.mapValue env stores v = .ok r
  | .element ref, hv => by
    obtain ⟨e, he, -⟩ := (Value.holds_element.1 hv).resolve_eq hs hopen
    exact ⟨.element e, by rw [QueryResult.mapValue, he]; rfl⟩
  | .list items, hv => by
    obtain ⟨rs, hrs⟩ := mapValues_succeeds hs hopen items (Value.holds_list.1 hv)
    exact ⟨.list rs, by rw [QueryResult.mapValue, hrs]; rfl⟩
  | .null, _ | .boolean _, _ | .integer _, _ | .float _, _ | .string _, _ =>
    ⟨_, by rw [QueryResult.mapValue] <;> simp⟩

theorem mapValues_succeeds (hs : stores.Consistent) (hopen : stores.Open) : (vs : List Value) →
    Value.HoldAll (Resolves env stores) vs → ∃ rs, QueryResult.mapValues env stores vs = .ok rs
  | [], _ => ⟨[], by rw [QueryResult.mapValues]⟩
  | v :: vs, hvs => by
    obtain ⟨hv, hvs⟩ := Value.holdAll_cons.1 hvs
    obtain ⟨r, hr⟩ := mapValue_succeeds hs hopen v hv
    obtain ⟨rs, hrs⟩ := mapValues_succeeds hs hopen vs hvs
    exact ⟨r :: rs, by rw [QueryResult.mapValues, hr, hrs]; rfl⟩
end

def runs (env : Environment) (scripts : List Script) (stores : Stores) : Stores :=
  scripts.foldl (fun stores s => (run env s stores).2) stores

theorem runs_changes (scripts : List Script) (stores : Stores) : Changes env stores (runs env scripts stores) := by
  induction scripts generalizing stores with
  | nil => exact .refl
  | cons s scripts ih => exact (run_changes env s stores).trans (ih _)

theorem execute_eq_ok {x : Executor} {s : Script} {parameters : Parameters} {r : QueryResult}
    (henv : x.prepare s parameters = .ok env) (hr : (x.execute s parameters stores).1 = .ok r) :
    run env s stores = (.ok r.raw, (x.execute s parameters stores).2) ∧ r.environment = env := by
  unfold Executor.execute at hr ⊢
  rw [henv] at hr ⊢
  dsimp only at hr ⊢
  split at hr
  · cases hr
  · rename_i heq
    cases hr
    exact ⟨heq, rfl⟩

end Results

/-- Over a closed environment, a run never fails for a reference without its store or its element, the references in
its results resolve, and the environment is closed again when it ends, also by a failure. The results of an execution
can be mapped, at once or after any further runs. -/
theorem run_closed (ops : List Stores.Op) (env : Environment) (s : Script)
    (hclosed : Closed env (Stores.afterAll ops)) :
    let stores := Stores.afterAll ops
    let out := run env s stores
    (∀ e, out.1 = .error e → ¬ e.BlamesReference) ∧
      (∀ vs, out.1 = .ok vs → ∀ ref ∈ Value.refsAll vs,
        ∃ e, QueryResult.resolve env out.2 ref = .ok e ∧ e.ref = ref) ∧
      Closed env out.2 ∧
      ∀ (x : Executor) (parameters : Parameters) (r : QueryResult), x.prepare s parameters = .ok env →
        (x.execute s parameters stores).1 = .ok r →
        ∀ further, ∃ rs, r.values (runs env further (x.execute s parameters stores).2) = .ok rs := by
  intro stores out
  have hs : stores.Consistent := Stores.consistent_afterAll ops
  have hs' : out.2.Consistent := run_consistent env s hs
  have hopen' : out.2.Open := (Stores.intact_afterAll ops).locks.later (run_changes env s stores)
  have hsound : Sound env stores out := run_sound s hs hclosed
  refine ⟨fun e he => hsound.safe.of_error he, ?_, hsound.closed, ?_⟩
  · intro vs hvs ref href
    obtain ⟨v, hv, href⟩ := Value.mem_refsAll.1 href
    exact (hsound.safe.of_ok hvs v hv ref href).resolve_eq hs' hopen'
  · intro x parameters r henv hr further
    obtain ⟨hout, hrenv⟩ := execute_eq_ok henv hr
    have hraw : out.1 = .ok r.raw := congrArg Prod.fst hout
    have hleft : out.2 = (x.execute s parameters stores).2 := congrArg Prod.snd hout
    rw [← hleft, QueryResult.values, hrenv]
    -- what resolves at the end of the run still does, for stores only grow
    have hchanges : Changes env out.2 (runs env further out.2) := runs_changes further out.2
    apply mapValues_succeeds (Changes.consistent hchanges hs') (hopen'.later hchanges)
    intro v hv
    have hholds := hsound.safe.of_ok hraw v (List.mem_of_mem_take hv)
    exact hholds.mono fun _ => (Changes.frame hchanges hs').resolves

def acquainted : List Stores.Op :=
  [.add ⟨⟨1⟩, "people"⟩ ["Person"] ∅,
    .add ⟨⟨2⟩, "pets"⟩ ["Pet"] (Dict.empty.insert "knows" (.list [.element ⟨⟨1⟩, ⟨1⟩⟩, .list [.element ⟨⟨2⟩, ⟨1⟩⟩]]))]

def acquaintances : Environment :=
  ((Dict.empty.insert "input" (.store ⟨⟨1⟩, "people"⟩)).insert "output" (.store ⟨⟨2⟩, "pets"⟩)).insert "pet"
    (.value (.element ⟨⟨2⟩, ⟨1⟩⟩))

def acquaint : Script :=
  ⟨[.step "V" [.var "input"],
    .closure "sideEffect" (some "p")
      [.step "addV" [.var "output", .literal (.string "Pet")], .step "property" [.literal (.string "knows"), .var "p"]],
    .step "property" [.literal (.string "knows"), .property (.var "pet") "knows"],
    .step "values" [.literal (.string "knows")]]⟩

theorem run_closed_acquainted : Closed acquaintances (Stores.afterAll acquainted) ∧
    Closed acquaintances (run acquaintances acquaint (Stores.afterAll acquainted)).2 := by
  have hclosed : Closed acquaintances (Stores.afterAll acquainted) := by decide +kernel
  exact ⟨hclosed, (run_closed acquainted acquaintances acquaint hclosed).2.2.1⟩

end Machine

end GraphQuery
