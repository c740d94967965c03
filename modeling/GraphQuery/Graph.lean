import GraphQuery.Element
import Std.Data.HashMap

/-!
A store of elements and edges in the order of their creation, with an index from identifiers to positions.
-/

namespace GraphQuery

structure Graph where
  id : StoreId
  name : String
  ids : IdSource := {}
  elements : Array Element := #[]
  index : Std.HashMap ElementId Nat := {}
  edges : Array Edge := #[]
  /-- Someone failed while holding the lock for writing, as the code of a caller that makes a label may. Nobody gets the
  lock from then on. -/
  poisoned : Bool := false

structure Graph.Missing where
  id : ElementId
  store : String
deriving Repr, DecidableEq

def Graph.Missing.message (m : Graph.Missing) : String :=
  "element " ++ m.id.describe ++ " not found in store " ++ m.store

namespace Graph

instance : Inhabited Graph := ⟨{ id := ⟨0⟩, name := "" }⟩

def empty (id : StoreId) (name : String) : Graph := { id, name }

def lockMessage : String := "Failed to acquire graph lock"

def acquire {ε : Type} (g : Graph) (failure : ε) : Except ε Graph :=
  if g.poisoned then .error failure else .ok g

def add (g : Graph) (labels : List String) (properties : Properties) : Element × Graph :=
  let (id, ids) := g.ids.fresh
  let element := { Element.withLabels ⟨g.id, id⟩ labels with properties }
  (element, { g with
    ids
    index := g.index.insert id g.elements.size
    elements := g.elements.push element })

/-- Creates an element as callers see it. The identifier is drawn before the lock is taken, so that one is used up even
if there is no lock to get. -/
def create {ε : Type} (g : Graph) (failure : ε) (labels : List String) (properties : Properties) :
    Except ε Element × Graph :=
  if g.poisoned then (.error failure, { g with ids := g.ids.fresh.2 })
  else
    let (element, g) := g.add labels properties
    (.ok element, g)

def find? (g : Graph) (id : ElementId) : Option Element :=
  match g.index[id]? with
  | some position => g.elements[position]?
  | none => none

def withLabel (g : Graph) (label : String) : List Element :=
  g.elements.toList.filter (·.hasLabel label)

def addEdge (g : Graph) (source : ElementId) (label : String) (target : ElementId) :
    Except Missing (Edge × Graph) :=
  if !g.index.contains source then .error ⟨source, g.name⟩
  else if !g.index.contains target then .error ⟨target, g.name⟩
  else
    let edge : Edge := ⟨source, label, target⟩
    .ok (edge, { g with edges := g.edges.push edge })

def edgesAt (g : Graph) (id : ElementId) (direction : Direction) : List Edge :=
  g.edges.toList.filter (·.touches id direction)

def adjacent (g : Graph) (id : ElementId) (direction : Direction) (label : Option String) : List ElementId :=
  ((g.edgesAt id direction).filter (fun e => label.all (e.label == ·))).filterMap
    (·.neighbour? id direction)

def setProperty (g : Graph) (id : ElementId) (key : String) (value : Value) : Except Missing Graph :=
  match g.index[id]? with
  | some position => .ok { g with elements := g.elements.modify position (·.set key value) }
  | none => .error ⟨id, g.name⟩

end Graph

end GraphQuery
