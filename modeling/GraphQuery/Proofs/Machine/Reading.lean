import GraphQuery.Proofs.Compile.Meaning
import GraphQuery.Proofs.Except
import GraphQuery.Proofs.Graph.Consistency

namespace GraphQuery.Machine

open Meaning

theorem concat_cons (f : Value → Except RunError (List Value)) (v : Value) (vs : List Value) :
    concat f (v :: vs) = (do
      let out ← f v
      let rest ← concat f vs
      .ok (out ++ rest)) := by
  simp only [concat, List.mapM_cons]
  cases f v with
  | error e => rfl
  | ok out => cases vs.mapM f <;> rfl

theorem concat_map {α : Type} (f : Value → Except RunError α) (g : α → List Value) (vs : List Value) :
    concat (fun v => (f v).map g) vs = (vs.mapM f).map (·.flatMap g) := by
  induction vs with
  | nil => rfl
  | cons v vs ih =>
    rw [concat_cons, ih, List.mapM_cons]
    cases f v with
    | error e => rfl
    | ok a => cases vs.mapM f <;> rfl

theorem flatMap_ite (test : Value × Bool → Bool) (judged : List (Value × Bool)) :
    judged.flatMap (fun p => if test p then [p.1] else []) = (judged.filter test).map (·.1) := by
  induction judged with
  | nil => rfl
  | cons p judged ih =>
    rw [List.flatMap_cons, ih, List.filter_cons]
    split <;> rfl

theorem flatMapElements_eq (f : Value → Except RunError (List Value)) (vs : List Value) :
    flatMapElements f vs = concat f vs := by
  induction vs with
  | nil => rfl
  | cons v vs ih => rw [flatMapElements, ih, concat_cons]

theorem forEach_eq {action : Value → Stores → Outcome (List Value)} {f : Value → Except RunError (List Value)}
    {stores : Stores} (h : ∀ v, action v stores = (f v, stores)) (vs : List Value) :
    forEach action vs stores = (concat f vs, stores) := by
  induction vs with
  | nil => rfl
  | cons v vs ih =>
    rw [forEach, h, concat_cons]
    cases f v with
    | error e => rfl
    | ok out =>
      simp only [ih]
      cases concat f vs <;> rfl

theorem mem_values_of_get? {α : Type} {d : Dict α} {key : String} {value : α} (h : d.get? key = some value) :
    value ∈ d.values := by
  have hentries : ∀ entries : List (String × α), Dict.findEntry key entries = some value →
      value ∈ entries.map (·.2) := by
    intro entries
    induction entries with
    | nil => simp [Dict.findEntry]
    | cons entry entries ih =>
      rw [Dict.findEntry]
      split
      · rintro ⟨⟩
        exact List.mem_cons_self
      · exact fun hfind => List.mem_cons_of_mem _ (ih hfind)
  exact hentries d.entries h

theorem graphOf_eq {w : World} {name : String} {h : Handle} (hname : w.environment.store? name = some h)
    {ref : ElementRef} (href : ref.store = h.id) : w.graphOf ref = .ok (w.stores.get h.id) := by
  unfold World.graphOf
  cases hfind : w.environment.storeById? ref.store with
  | none =>
    obtain ⟨b, hb, hh⟩ := Option.bind_eq_some_iff.1 hname
    have hnone := List.findSome?_eq_none_iff.1 hfind b (mem_values_of_get? hb)
    simp [hh, href] at hnone
  | some h' =>
    obtain ⟨b, -, hb⟩ := List.exists_of_findSome?_eq_some hfind
    have hid : h'.id = ref.store := by simpa using (Option.filter_eq_some_iff.1 hb).2
    simp only [hid, href]

theorem lookup_of_mem {w : World} {name : String} {h : Handle} {e : Element} (hs : w.stores.Consistent)
    (hname : w.environment.store? name = some h) (hopen : (w.stores.get h.id).poisoned = false)
    (he : e ∈ (w.stores.get h.id).elements.toList) : w.lookup e.ref = .ok e := by
  obtain ⟨hstore, hfind⟩ := (hs.get h.id).find?_of_mem he
  have hcontents : w.contents e.ref = .ok (w.stores.get h.id) := by
    rw [World.contents, graphOf_eq hname (by simpa using hstore), ok_bind]
    exact Graph.acquire_eq_ok.2 ⟨hopen, rfl⟩
  rw [World.lookup, hcontents, ok_bind, hfind]

theorem keepElements_eq {w : World} (step : String) (test : Element → Bool) (es : List Element)
    (hes : ∀ e ∈ es, w.lookup e.ref = .ok e) :
    keepElements w step test (es.map (fun e => .element e.ref)) =
      .ok ((es.filter test).map (fun e => .element e.ref)) := by
  induction es with
  | nil => rfl
  | cons e es ih =>
    have hhead := hes e List.mem_cons_self
    rw [List.map_cons, keepElements, ih (fun e he => hes e (List.mem_cons_of_mem _ he))]
    simp only [resolve, elementRef, ok_bind, hhead, List.filter_cons]
    split <;> rfl

theorem runBlock_append (env : Environment) (scope : Scope) (is js : List Instruction) (stream : List Value)
    (stores : Stores) :
    runBlock env scope (is ++ js) stream stores =
      match runBlock env scope is stream stores with
      | (.error e, stores) => (.error e, stores)
      | (.ok stream, stores) => runBlock env scope js stream stores := by
  induction is generalizing stream stores with
  | nil => simp only [List.nil_append, runBlock]
  | cons i is ih =>
    simp only [List.cons_append, runBlock]
    cases runInstruction env scope i stream stores with
    | mk result stores' =>
      cases result with
      | error e => rfl
      | ok stream' => exact ih stream' stores'

theorem runBlock_singleton (env : Environment) (scope : Scope) (i : Instruction) (stream : List Value)
    (stores : Stores) : runBlock env scope [i] stream stores = runInstruction env scope i stream stores := by
  simp only [runBlock]
  cases runInstruction env scope i stream stores with
  | mk result stores' => cases result <;> rfl

theorem runBlock_readStep {name : String} {step : Step} (hname : Step.ofName? name = some step)
    (hreads : step ≠ .addVertex ∧ step ≠ .setProperty) (arguments : List Term) (env : Environment)
    (stream : List Value) (stores : Stores) :
    runBlock env [] [.step name arguments] stream stores =
      (readStep ⟨env, stores⟩ [] name step arguments stream, stores) := by
  rw [runBlock_singleton, runInstruction]
  unfold runStep
  rw [hname]
  cases step with
  | addVertex => exact absurd rfl hreads.1
  | setProperty => exact absurd rfl hreads.2
  | _ => rfl

theorem runBlock_closure {name : String} {kind : ClosureKind} (hname : ClosureKind.ofName? name = some kind)
    (parameter : Option String) (t : Term) (env : Environment) (stream : List Value) (stores : Stores) :
    runBlock env [] [.closure name parameter [.statement t]] stream stores = (concat (fun v => do
      kind.outcome v [← evaluate ⟨env, stores⟩ [(boundName parameter, v)] t]) stream, stores) := by
  rw [runBlock_singleton, runInstruction, hname]
  apply forEach_eq
  intro v
  rw [runBlock_singleton, runInstruction]
  cases evaluate ⟨env, stores⟩ [(boundName parameter, v)] t <;> rfl

/-- Outside closures and over consistent stores, the instructions only read and turn the stream as told. -/
def Turns (is : List Instruction) (g : World → List Value → Except RunError (List Value)) : Prop :=
  ∀ (env : Environment) (stores : Stores) (stream : List Value), stores.Consistent →
    runBlock env [] is stream stores = (g ⟨env, stores⟩ stream, stores)

namespace Turns

variable {is js : List Instruction} {g k : World → List Value → Except RunError (List Value)}

theorem append (h : Turns is g) (h' : Turns js k) : Turns (is ++ js) (fun w stream => g w stream >>= k w) := by
  intro env stores stream hs
  rw [runBlock_append, h env stores stream hs]
  simp only
  cases g ⟨env, stores⟩ stream with
  | error e => rfl
  | ok stream' => exact h' env stores stream' hs

theorem congr (h : Turns is g)
    (heq : ∀ w stream, w.stores.Consistent → g w stream = k w stream) : Turns is k := by
  intro env stores stream hs
  rw [h env stores stream hs, heq ⟨env, stores⟩ stream hs]

theorem readStep {name : String} {step : Step} (arguments : List Term) (hname : Step.ofName? name = some step)
    (hreads : step ≠ .addVertex ∧ step ≠ .setProperty) :
    Turns [.step name arguments] (fun w stream => Machine.readStep w [] name step arguments stream) :=
  fun env stores stream _ => runBlock_readStep hname hreads arguments env stream stores

theorem closure {name : String} {kind : ClosureKind} (parameter : Option String) (t : Term)
    (hname : ClosureKind.ofName? name = some kind) :
    Turns [.closure name parameter [.statement t]] (fun w stream => concat (fun v => do
      kind.outcome v [← evaluate w [(boundName parameter, v)] t]) stream) :=
  fun env stores stream _ => runBlock_closure hname parameter t env stream stores

theorem extent (className : String) :
    Turns [.step "V" [.var inputName], .step "hasLabel" [.literal (.string className)]]
      (fun w _ => Meaning.extent className w) := by
  have hsteps := (readStep [.var inputName] (rfl : Step.ofName? "V" = _) (by decide)).append
    (readStep [.literal (.string className)] (rfl : Step.ofName? "hasLabel" = _) (by decide))
  apply hsteps.congr
  intro w stream hs
  simp only [Machine.readStep, storeArgument, Meaning.extent]
  cases hname : w.environment.store? inputName with
  | none => rfl
  | some h =>
    cases hopen : (w.stores.get h.id).poisoned with
    | true => simp [Graph.acquire, hopen]
    | false =>
      have hkeep := keepElements_eq "hasLabel" (fun e => [className].any e.hasLabel) _
        (fun e he => lookup_of_mem hs hname hopen he)
      simpa [stringArguments, stringArgument, evaluate, Value.ofLiteral, Graph.withLabel, Graph.acquire, hopen]
        using hkeep

theorem out (feature : String) :
    Turns [.step "out" [.literal (.string feature)]] (fun w stream => concat (targets w feature) stream) := by
  apply (readStep [.literal (.string feature)] (rfl : Step.ofName? "out" = _) (by decide)).congr
  intro w stream _
  have htargets : neighbours w "out" .outgoing (some feature) = targets w feature := by
    funext v
    cases v with
    | element ref => exact (leadsTo_eq w feature ref).symm
    | _ => rfl
  rw [← htargets, ← flatMapElements_eq]
  rfl

theorem values (feature : String) :
    Turns [.step "values" [.literal (.string feature)]]
      (fun w stream => concat (attributes w feature) stream) := by
  apply (readStep [.literal (.string feature)] (rfl : Step.ofName? "values" = _) (by decide)).congr
  intro w stream _
  have hattributes : propertyValues w "values" feature = attributes w feature := by
    funext v
    cases v <;> rfl
  rw [← hattributes, ← flatMapElements_eq]
  rfl

theorem transform {body : Reading Value} {parameter : Option String} {t : Term}
    (h : ∀ w v, evaluate w [(boundName parameter, v)] t = body w v) :
    Turns [.closure "transform" parameter [.statement t]]
      (fun w stream => concat (fun v => return spread (← body w v)) stream) := by
  apply (closure parameter t (rfl : ClosureKind.ofName? "transform" = _)).congr
  intro w stream _
  congr 1
  funext v
  rw [h]
  cases body w v with
  | error e => rfl
  | ok x => exact congrArg Except.ok (List.append_nil (spread x))

theorem filter {body : Reading Value} {blame : Value → RunError} {parameter : Option String} {t : Term}
    (keeps : Bool → Bool)
    (h : ∀ w v, (do ClosureKind.filter.outcome v [← evaluate w [(boundName parameter, v)] t]) =
      (verdict body blame w v).map (fun p => if keeps p.2 then [p.1] else [])) :
    Turns [.closure "filter" parameter [.statement t]]
      (fun w stream => return ((← verdicts body blame w stream).filter (fun p => keeps p.2)).map (·.1)) := by
  apply (closure parameter t (rfl : ClosureKind.ofName? "filter" = _)).congr
  intro w stream _
  simp only [h, concat_map, flatMap_ite, verdicts]
  cases stream.mapM (verdict body blame w) <;> rfl

theorem select {body : Reading Value} {parameter : Option String} {t : Term}
    (h : ∀ w v, evaluate w [(boundName parameter, v)] t = body w v) :
    Turns [.closure "filter" parameter [.statement t]] (fun w stream => do
      let judged ← verdicts body (fun v => .badFilter [v]) w stream
      return (judged.filter (·.2)).map (·.1)) := by
  apply filter id
  intro w v
  rw [h, verdict]
  rcases body w v with _ | (_ | _ | _ | _ | _ | _ | _) <;> rfl

theorem reject {body : Reading Value} {parameter : Option String} {t : Term}
    (h : ∀ w v, evaluate w [(boundName parameter, v)] t = body w v) :
    Turns [.closure "filter" parameter [.statement (.unary .not t)]] (fun w stream => do
      let judged ← verdicts body (.unaryMismatch .not) w stream
      return (judged.filter (!·.2)).map (·.1)) := by
  apply filter not
  intro w v
  rw [evaluate, h, verdict]
  rcases body w v with _ | (_ | _ | _ | _ | _ | _ | _) <;> rfl

end Turns

end GraphQuery.Machine
