namespace GraphQuery

inductive Literal where
  | null
  | boolean (value : Bool)
  | integer (value : Int64)
  | real (value : Float)
  | string (value : String)
deriving Repr, BEq, Inhabited

def integerText (n : Int64) : String :=
  toString n.toInt

def booleanText (b : Bool) : String :=
  if b then "true" else "false"

end GraphQuery
