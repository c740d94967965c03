import GraphQuery.Machine.Evaluate

/-!
Running scripts. Every instruction turns a stream of values into the next one; only the steps that create an
element or set a property change a store. A run that fails keeps the changes made before.
-/

namespace GraphQuery.Machine

inductive Step where
  | vertices | inject | hasLabel | has
  | adjacent (direction : Direction)
  | values | dedup | count | limit | hasNext | isEmpty
  | addVertex | setProperty
deriving Repr, DecidableEq

def Step.ofName? : String → Option Step
  | "V" => some .vertices
  | "inject" => some .inject
  | "hasLabel" => some .hasLabel
  | "has" => some .has
  | "out" => some (.adjacent .outgoing)
  | "in" => some (.adjacent .incoming)
  | "both" => some (.adjacent .both)
  | "values" => some .values
  | "dedup" => some .dedup
  | "count" => some .count
  | "limit" => some .limit
  | "hasNext" => some .hasNext
  | "isEmpty" => some .isEmpty
  | "addV" => some .addVertex
  | "property" => some .setProperty
  | _ => none

inductive ClosureKind where
  | filter | transform | sideEffect
deriving Repr, DecidableEq

def ClosureKind.ofName? : String → Option ClosureKind
  | "filter" => some .filter
  | "transform" => some .transform
  | "sideEffect" => some .sideEffect
  | _ => none

def ClosureKind.outcome (kind : ClosureKind) (v : Value) (stream : List Value) :
    Except RunError (List Value) :=
  match kind with
  | .filter =>
    match stream with
    | [] => .ok []
    | [.boolean b] => .ok (if b then [v] else [])
    | other => .error (.badFilter other)
  | .transform => .ok (stream.flatMap spread)
  | .sideEffect => .ok [v]

def elementRef (step : String) : Value → Except RunError ElementRef
  | .element ref => .ok ref
  | v => .error (.notElement step v)

def stringArgument (w : World) (scope : Scope) (step : String) (t : Term) : Except RunError String := do
  match ← evaluate w scope t with
  | .string s => .ok s
  | v => .error (.notString step v)

def stringArguments (w : World) (scope : Scope) (step : String) : List Term → Except RunError (List String)
  | [] => .ok []
  | t :: ts => do
    let s ← stringArgument w scope step t
    let ss ← stringArguments w scope step ts
    .ok (s :: ss)

/-- A store handle is named by a variable, which is looked up in the environment only. -/
def storeArgument (w : World) (step : String) (position : Nat) : Term → Except RunError Handle
  | .var name =>
    match w.environment.store? name with
    | some h => .ok h
    | none => .error (.notHandle step name)
  | _ => .error (.handleArgument step position)

def resolve (w : World) (step : String) (v : Value) : Except RunError Element := do
  let ref ← elementRef step v
  w.lookup ref

def keepElements (w : World) (step : String) (test : Element → Bool) :
    List Value → Except RunError (List Value)
  | [] => .ok []
  | v :: vs => do
    let e ← resolve w step v
    let rest ← keepElements w step test vs
    .ok (if test e then v :: rest else rest)

def flatMapElements (f : Value → Except RunError (List Value)) : List Value → Except RunError (List Value)
  | [] => .ok []
  | v :: vs => do
    let out ← f v
    let rest ← flatMapElements f vs
    .ok (out ++ rest)

def neighbours (w : World) (step : String) (direction : Direction) (label : Option String) (v : Value) :
    Except RunError (List Value) := do
  let ref ← elementRef step v
  w.adjacent ref direction label

def propertyValues (w : World) (step key : String) (v : Value) : Except RunError (List Value) := do
  let e ← resolve w step v
  .ok ((e.get? key).elim [] spread)

def limitArgument (w : World) (scope : Scope) (t : Term) : Except RunError Nat := do
  match ← evaluate w scope t with
  | .integer n => if 0 ≤ n.toInt then .ok n.toInt.toNat else .error (.badLimit (.integer n))
  | v => .error (.badLimit v)

abbrev Outcome (α : Type) := Except RunError α × Stores

def readStep (w : World) (scope : Scope) (name : String) (step : Step) (arguments : List Term)
    (stream : List Value) : Except RunError (List Value) :=
  match step, arguments with
  | .vertices, [g] => do
    let h ← storeArgument w name 1 g
    let g ← (w.stores.get h.id).acquire .poisoned
    .ok (g.elements.toList.map (fun e => .element e.ref))
  | .inject, arguments => do
    let vs ← evaluateAll w scope arguments
    .ok (stream ++ vs)
  | .hasLabel, arguments => do
    let labels ← stringArguments w scope name arguments
    keepElements w name (fun e => labels.any e.hasLabel) stream
  | .has, [key, expected] => do
    let key ← stringArgument w scope name key
    let expected ← evaluate w scope expected
    keepElements w name (fun e => (e.get? key).any (·.looseEq expected)) stream
  | .adjacent direction, [] => flatMapElements (neighbours w name direction none) stream
  | .adjacent direction, [label] => do
    let label ← stringArgument w scope name label
    flatMapElements (neighbours w name direction (some label)) stream
  | .values, [key] => do
    let key ← stringArgument w scope name key
    flatMapElements (propertyValues w name key) stream
  | .dedup, [] => .ok (Value.dedup stream)
  | .count, [] => .ok [.integer (Int64.ofNat stream.length)]
  | .limit, [count] => do
    let count ← limitArgument w scope count
    .ok (stream.take count)
  | .hasNext, [] => .ok [.boolean !stream.isEmpty]
  | .isEmpty, [] => .ok [.boolean stream.isEmpty]
  | .adjacent _, arguments => .error (.arity name 0 1 arguments.length)
  | .has, arguments | .addVertex, arguments | .setProperty, arguments =>
    .error (.arity name 2 2 arguments.length)
  | .vertices, arguments | .values, arguments | .limit, arguments =>
    .error (.arity name 1 1 arguments.length)
  | .dedup, arguments | .count, arguments | .hasNext, arguments | .isEmpty, arguments =>
    .error (.arity name 0 0 arguments.length)

def addVertex (w : World) (scope : Scope) (name : String) (g label : Term) : Outcome (List Value) :=
  match (do
    let h ← storeArgument w name 1 g
    let label ← stringArgument w scope name label
    .ok (h, label) : Except RunError (Handle × String)) with
  | .error e => (.error e, w.stores)
  | .ok (h, label) =>
    let (result, graph) := (w.stores.get h.id).create .poisoned [label] ∅
    (result.map (fun element => [.element element.ref]), w.stores.put graph)

def setPropertyOf (environment : Environment) (scope : Scope) (name key : String) (value : Term) (v : Value)
    (stores : Stores) : Outcome (List Value) :=
  let w : World := ⟨environment, stores⟩
  match (do
    let ref ← elementRef name v
    let result := evaluate w ((implicitName, v) :: scope) value
    -- a store without a name is blamed before the value
    let graph ← w.graphOf ref
    let result ← result
    let graph ← graph.acquire .poisoned
    match graph.setProperty ref.element key result with
    | .ok graph => .ok graph
    | .error cause => .error (.missing cause) : Except RunError Graph) with
  | .error e => (.error e, stores)
  | .ok graph => (.ok [v], stores.put graph)

def forEach (action : Value → Stores → Outcome (List Value)) : List Value → Stores → Outcome (List Value)
  | [], stores => (.ok [], stores)
  | v :: vs, stores =>
    match action v stores with
    | (.error e, stores) => (.error e, stores)
    | (.ok out, stores) =>
      match forEach action vs stores with
      | (.error e, stores) => (.error e, stores)
      | (.ok rest, stores) => (.ok (out ++ rest), stores)

def runStep (environment : Environment) (scope : Scope) (name : String) (arguments : List Term)
    (stream : List Value) (stores : Stores) : Outcome (List Value) :=
  let w : World := ⟨environment, stores⟩
  match Step.ofName? name, arguments with
  | none, _ => (.error (.unsupportedStep name), stores)
  | some .addVertex, [g, label] => addVertex w scope name g label
  | some .setProperty, [key, value] =>
    match stringArgument w scope name key with
    | .error e => (.error e, stores)
    | .ok key => forEach (setPropertyOf environment scope name key value) stream stores
  | some step, arguments => (readStep w scope name step arguments stream, stores)

mutual
def runInstruction (environment : Environment) (scope : Scope) :
    Instruction → List Value → Stores → Outcome (List Value)
  | .step name arguments, stream, stores => runStep environment scope name arguments stream stores
  | .closure name parameter body, stream, stores =>
    match ClosureKind.ofName? name with
    | none => (.error (.unsupportedClosure name), stores)
    | some kind =>
      forEach (fun v stores =>
        match runBlock environment ((boundName parameter, v) :: scope) body [v] stores with
        | (.error e, stores) => (.error e, stores)
        | (.ok result, stores) => (kind.outcome v result, stores)) stream stores
  | .statement term, _, stores =>
    ((evaluate ⟨environment, stores⟩ scope term).map (fun v => [v]), stores)

def runBlock (environment : Environment) (scope : Scope) :
    List Instruction → List Value → Stores → Outcome (List Value)
  | [], stream, stores => (.ok stream, stores)
  | i :: is, stream, stores =>
    match runInstruction environment scope i stream stores with
    | (.error e, stores) => (.error e, stores)
    | (.ok stream, stores) => runBlock environment scope is stream stores
end

def run (environment : Environment) (s : Script) (stores : Stores) : Outcome (List Value) :=
  runBlock environment [] s.instructions [] stores

end GraphQuery.Machine
