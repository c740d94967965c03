import GraphQuery.Decimal.Notation
import GraphQuery.Literal
import GraphQuery.Text.Quoted

namespace GraphQuery

structure StoreId where
  val : Nat
deriving Repr, DecidableEq, Hashable, Inhabited

structure ElementId where
  val : Nat
deriving Repr, DecidableEq, Hashable, Inhabited

namespace ElementId

def display (id : ElementId) : String :=
  toString id.val

def describe (id : ElementId) : String :=
  "ElementId(" ++ toString id.val ++ ")"

end ElementId

structure ElementRef where
  store : StoreId
  element : ElementId
deriving Repr, DecidableEq, Inhabited

namespace ElementRef

def display (r : ElementRef) : String :=
  toString r.store.val ++ "#" ++ toString r.element.val

def describe (r : ElementRef) : String :=
  "ElementRef \x7b store: StoreId(" ++ toString r.store.val ++ "), element: " ++ r.element.describe ++ " \x7d"

end ElementRef

inductive Value where
  | null
  | boolean (value : Bool)
  | integer (value : Int64)
  | float (value : Float)
  | string (value : String)
  | list (items : List Value)
  | element (ref : ElementRef)
deriving Repr, Inhabited

def realOfInteger (n : Int64) : Float :=
  Float.ofInt n.toInt

namespace Value

def ofLiteral : Literal → Value
  | .null => null
  | .boolean b => boolean b
  | .integer n => integer n
  | .real x => float x
  | .string s => string s

def typeName : Value → String
  | null => "null"
  | boolean _ => "boolean"
  | integer _ => "integer"
  | float _ => "float"
  | string _ => "string"
  | list _ => "list"
  | element _ => "element"

def isNull : Value → Bool
  | null => true
  | _ => false

def isBoolean : Value → Bool
  | boolean _ => true
  | _ => false

def isNumber : Value → Bool
  | integer _ | float _ => true
  | _ => false

def isList : Value → Bool
  | list _ => true
  | _ => false

def isElement : Value → Bool
  | element _ => true
  | _ => false

def boolean? : Value → Option Bool
  | boolean b => some b
  | _ => none

def integer? : Value → Option Int64
  | integer n => some n
  | _ => none

def float? : Value → Option Float
  | float x => some x
  | integer n => some (realOfInteger n)
  | _ => none

def string? : Value → Option String
  | string s => some s
  | _ => none

def list? : Value → Option (List Value)
  | list items => some items
  | _ => none

def element? : Value → Option ElementRef
  | element r => some r
  | _ => none

mutual
def display : Value → String
  | null => "null"
  | boolean b => booleanText b
  | integer n => integerText n
  | float x => Decimal.Notation.tagged.write x
  | string s => Text.quoted s
  | list items => "[" ++ displayItems items ++ "]"
  | element r => r.display

def displayItems : List Value → String
  | [] => ""
  | [v] => v.display
  | v :: vs => v.display ++ ", " ++ displayItems vs
end

mutual
/-- Equality of values of the same kind, with that of doubles for floats: `NaN` differs from itself and the
two zeros are equal. -/
def sameAs : Value → Value → Bool
  | null, null => true
  | boolean a, boolean b => a == b
  | integer a, integer b => a == b
  | float a, float b => a == b
  | string a, string b => a == b
  | list as, list bs => sameItems as bs
  | element a, element b => a == b
  | _, _ => false

def sameItems : List Value → List Value → Bool
  | [], [] => true
  | a :: as, b :: bs => sameAs a b && sameItems as bs
  | _, _ => false
end

instance : BEq Value := ⟨sameAs⟩

mutual
def looseEq : Value → Value → Bool
  | null, null => true
  | boolean a, boolean b => a == b
  | integer a, integer b => a == b
  | integer a, float b => realOfInteger a == b
  | float a, integer b => realOfInteger b == a
  | float a, float b => a == b
  | string a, string b => a == b
  | list as, list bs => looseEqItems as bs
  | element a, element b => a == b
  | _, _ => false

def looseEqItems : List Value → List Value → Bool
  | [], [] => true
  | a :: as, b :: bs => looseEq a b && looseEqItems as bs
  | _, _ => false
end

def compareFloats (a b : Float) : Option Ordering :=
  if a < b then some .lt else if a == b then some .eq else if b < a then some .gt else none

def compare? : Value → Value → Option Ordering
  | integer a, integer b => some (compare a.toInt b.toInt)
  | integer a, float b => compareFloats (realOfInteger a) b
  | float a, integer b => compareFloats a (realOfInteger b)
  | float a, float b => compareFloats a b
  | string a, string b => some (compare a b)
  | boolean a, boolean b => some (compare a b)
  | _, _ => none

def dedup (values : List Value) : List Value :=
  values.foldl (fun kept v => if kept.any (·.looseEq v) then kept else kept ++ [v]) []

end Value

end GraphQuery
