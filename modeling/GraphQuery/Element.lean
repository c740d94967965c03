import GraphQuery.Dict
import GraphQuery.Value.Basic

namespace GraphQuery

abbrev Properties := Dict Value

structure IdSource where
  next : Nat := 1
deriving Repr, DecidableEq, Inhabited

def IdSource.fresh (s : IdSource) : ElementId × IdSource :=
  (⟨s.next⟩, ⟨s.next + 1⟩)

structure Element where
  ref : ElementRef
  labels : List String
  properties : Properties
deriving Inhabited

namespace Element

def id (e : Element) : ElementId := e.ref.element

def addLabel (e : Element) (label : String) : Element :=
  if label ∈ e.labels then e else { e with labels := e.labels ++ [label] }

def withLabels (ref : ElementRef) (labels : List String) : Element :=
  labels.foldl addLabel ⟨ref, [], ∅⟩

def hasLabel (e : Element) (label : String) : Bool :=
  e.labels.contains label

def set (e : Element) (key : String) (value : Value) : Element :=
  { e with properties := e.properties.insert key value }

def get? (e : Element) (key : String) : Option Value :=
  e.properties.get? key

end Element

inductive Direction where
  | outgoing | incoming | both
deriving Repr, DecidableEq

structure Edge where
  source : ElementId
  label : String
  target : ElementId
deriving Repr, DecidableEq

namespace Edge

def other? (e : Edge) (id : ElementId) : Option ElementId :=
  if e.source = id then some e.target
  else if e.target = id then some e.source
  else none

def touches (e : Edge) (id : ElementId) : Direction → Bool
  | .outgoing => e.source == id
  | .incoming => e.target == id
  | .both => e.source == id || e.target == id

def neighbour? (e : Edge) (id : ElementId) : Direction → Option ElementId
  | .outgoing => some e.target
  | .incoming => some e.source
  | .both => e.other? id

end Edge

end GraphQuery
