import GraphQuery.Machine.Operators
import GraphQuery.Stores

namespace GraphQuery

namespace Machine

abbrev Scope := List (String × Value)

structure World where
  environment : Environment
  stores : Stores

namespace World

def graphOf (w : World) (ref : ElementRef) : Except RunError Graph :=
  match w.environment.storeById? ref.store with
  | some h => .ok (w.stores.get h.id)
  | none => .error (.unboundStore ref)

def contents (w : World) (ref : ElementRef) : Except RunError Graph := do
  let g ← w.graphOf ref
  g.acquire .poisoned

def lookup (w : World) (ref : ElementRef) : Except RunError Element := do
  let g ← w.contents ref
  match g.find? ref.element with
  | some e => .ok e
  | none => .error (.unknownElement ref)

def adjacent (w : World) (ref : ElementRef) (direction : Direction) (label : Option String) :
    Except RunError (List Value) := do
  let g ← w.contents ref
  .ok ((g.adjacent ref.element direction label).map (fun id => .element ⟨ref.store, id⟩))

def valueOf (w : World) (scope : Scope) (name : String) : Except RunError Value :=
  match scope.find? (·.1 == name) with
  | some (_, v) => .ok v
  | none =>
    match w.environment.get? name with
    | some (.value v) => .ok v
    | some (.store _) => .error (.handleAsValue name)
    | none => .error (.unbound name)

def feature (w : World) (ref : ElementRef) (name : String) : Except RunError Value := do
  let e ← w.lookup ref
  match e.get? name with
  | some v => .ok v
  | none =>
    match ← w.adjacent ref .outgoing (some name) with
    | [] => .ok .null
    | [target] => .ok target
    | targets => .ok (.list targets)

end World

def spread : Value → List Value
  | .list items => items
  | v => [v]

mutual
def navigate (w : World) (name : String) : Value → Except RunError Value
  | .null => .ok .null
  | .list items => do
    let mapped ← navigateAll w name items
    .ok (.list mapped)
  | .element ref => w.feature ref name
  | v => .error (.cannotNavigate name v)

def navigateAll (w : World) (name : String) : List Value → Except RunError (List Value)
  | [] => .ok []
  | v :: vs => do
    let first ← navigate w name v
    let rest ← navigateAll w name vs
    .ok (spread first ++ rest)
end

mutual
def evaluate (w : World) (scope : Scope) : Term → Except RunError Value
  | .literal value => .ok (.ofLiteral value)
  | .var name => w.valueOf scope name
  | .property target name => do
    let v ← evaluate w scope target
    navigate w name v
  | .list items => do
    let vs ← evaluateAll w scope items
    .ok (.list vs)
  | .unary op operand => do
    let v ← evaluate w scope operand
    Value.applyUnary op v
  | .binary .and left right => do
    let l ← evaluate w scope left
    if ← Value.truth .and l then
      let r ← evaluate w scope right
      let b ← Value.truth .and r
      .ok (.boolean b)
    else .ok (.boolean false)
  | .binary .or left right => do
    let l ← evaluate w scope left
    if ← Value.truth .or l then .ok (.boolean true)
    else
      let r ← evaluate w scope right
      let b ← Value.truth .or r
      .ok (.boolean b)
  | .binary op left right => do
    let l ← evaluate w scope left
    let r ← evaluate w scope right
    Value.applyBinary op l r

def evaluateAll (w : World) (scope : Scope) : List Term → Except RunError (List Value)
  | [] => .ok []
  | t :: ts => do
    let v ← evaluate w scope t
    let vs ← evaluateAll w scope ts
    .ok (v :: vs)
end

end Machine

end GraphQuery
