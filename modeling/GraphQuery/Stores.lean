import GraphQuery.Graph

namespace GraphQuery

structure Stores where
  graphs : List Graph := []
deriving Inhabited

namespace Stores

def get (s : Stores) (id : StoreId) : Graph :=
  (s.graphs.find? (·.id == id)).getD (Graph.empty id "")

def put (s : Stores) (g : Graph) : Stores :=
  if s.graphs.any (·.id == g.id) then ⟨s.graphs.map (fun h => if h.id == g.id then g else h)⟩
  else ⟨s.graphs ++ [g]⟩

end Stores

structure Handle where
  id : StoreId
  name : String
deriving Repr, DecidableEq, Inhabited

def Graph.handle (g : Graph) : Handle := ⟨g.id, g.name⟩

inductive Binding where
  | store (handle : Handle)
  | value (value : Value)
deriving Repr

namespace Binding

def display : Binding → String
  | store h => "Store(" ++ h.name ++ ")"
  | value v => "Value(" ++ v.display ++ ")"

def handle? : Binding → Option Handle
  | store h => some h
  | value _ => none

end Binding

abbrev Environment := Dict Binding

namespace Environment

def store? (env : Environment) (name : String) : Option Handle :=
  (Dict.get? env name).bind Binding.handle?

def storeById? (env : Environment) (id : StoreId) : Option Handle :=
  (Dict.values env).findSome? (fun b => b.handle?.filter (·.id == id))

end Environment

end GraphQuery
