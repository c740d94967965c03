import GraphQuery.Stores

namespace GraphQuery

inductive ResultValue where
  | element (element : Element)
  | scalar (value : Value)
  | list (items : List ResultValue)

inductive ResultError where
  | unboundStore (id : ElementId)
  | missing (cause : Graph.Missing)
  | poisoned
deriving Repr, DecidableEq

def ResultError.message : ResultError → String
  | unboundStore id => "element " ++ id.describe ++ " belongs to no bound store"
  | missing cause => cause.message
  | poisoned => Graph.lockMessage

structure QueryResult where
  raw : List Value
  environment : Environment
  limit : Option Nat

namespace QueryResult

def size (r : QueryResult) : Nat :=
  match r.limit with
  | some limit => min r.raw.length limit
  | none => r.raw.length

def isEmpty (r : QueryResult) : Bool :=
  r.size == 0

def resolve (environment : Environment) (stores : Stores) (ref : ElementRef) : Except ResultError Element :=
  match environment.storeById? ref.store with
  | none => .error (.unboundStore ref.element)
  | some h => do
    let g ← (stores.get h.id).acquire .poisoned
    match g.find? ref.element with
    | some e => .ok e
    | none => .error (.missing ⟨ref.element, h.name⟩)

mutual
def mapValue (environment : Environment) (stores : Stores) : Value → Except ResultError ResultValue
  | .element ref => (resolve environment stores ref).map .element
  | .list items => (mapValues environment stores items).map .list
  | v => .ok (.scalar v)

def mapValues (environment : Environment) (stores : Stores) :
    List Value → Except ResultError (List ResultValue)
  | [] => .ok []
  | v :: vs => do
    let first ← mapValue environment stores v
    let rest ← mapValues environment stores vs
    .ok (first :: rest)
end

def items (r : QueryResult) (stores : Stores) : List (Except ResultError ResultValue) :=
  (r.raw.take r.size).map (mapValue r.environment stores)

def values (r : QueryResult) (stores : Stores) : Except ResultError (List ResultValue) :=
  mapValues r.environment stores (r.raw.take r.size)

def elements (r : QueryResult) (stores : Stores) : Except ResultError (List Element) :=
  (r.values stores).map (fun vs => vs.filterMap (fun v =>
    match v with
    | .element e => some e
    | _ => none))

end QueryResult

end GraphQuery
