import GraphQuery.Graph
import GraphQuery.Script.Basic

namespace GraphQuery

inductive RunError where
  | unsupportedClosure (name : String)
  | unsupportedStep (name : String)
  | arity (step : String) (least most given : Nat)
  | notHandle (step name : String)
  | handleArgument (step : String) (position : Nat)
  | notString (step : String) (found : Value)
  | notElement (step : String) (found : Value)
  | badLimit (found : Value)
  | badFilter (found : List Value)
  | unboundStore (ref : ElementRef)
  | unknownElement (ref : ElementRef)
  | missing (cause : Graph.Missing)
  | poisoned
  | unbound (name : String)
  | handleAsValue (name : String)
  | cannotNavigate (feature : String) (found : Value)
  | notBoolean (op : Term.BinaryOp) (found : Value)
  | unaryMismatch (op : Term.UnaryOp) (found : Value)
  | mismatch (op : Term.BinaryOp) (left right : Value)
  | overflow
  | divisionByZero
deriving Repr

namespace RunError

def typed (v : Value) : String :=
  v.typeName ++ " value " ++ v.display

def range (least most : Nat) : String :=
  if least = most then toString least else toString least ++ " to " ++ toString most

def message : RunError → String
  | unsupportedClosure name => "unsupported closure " ++ name ++ "\x7b\x7d"
  | unsupportedStep name => "unsupported step " ++ name ++ "()"
  | arity step least most given =>
    step ++ "() takes " ++ range least most ++ " arguments, got " ++ toString given
  | notHandle step name => step ++ "() expects a store handle, `" ++ name ++ "` is not one"
  | handleArgument step position => step ++ "() expects a store handle as argument " ++ toString position
  | notString step found => step ++ "() expects a string argument, got " ++ found.display
  | notElement step found => step ++ "() expects elements, got " ++ typed found
  | badLimit found => "limit() expects a non-negative integer, got " ++ found.display
  | badFilter found => "filter closure must yield a boolean, got " ++ (Value.list found).display
  | unboundStore ref => "element " ++ ref.display ++ " belongs to no bound store"
  | unknownElement ref => "element " ++ ref.display ++ " not found"
  | missing cause => cause.message
  | poisoned => Graph.lockMessage
  | unbound name => "unbound variable `" ++ name ++ "`"
  | handleAsValue name => "store handle `" ++ name ++ "` cannot be used as a value"
  | cannotNavigate feature found => "cannot navigate `" ++ feature ++ "` on " ++ typed found
  | notBoolean op found => "`" ++ op.spelling ++ "` expects booleans, got " ++ typed found
  | unaryMismatch op found => "`" ++ op.spelling ++ "` cannot be applied to " ++ typed found
  | mismatch op left right =>
    "`" ++ op.spelling ++ "` cannot be applied to " ++ left.typeName ++ " and " ++ right.typeName
  | overflow => "integer overflow"
  | divisionByZero => "division by zero"

end RunError

end GraphQuery
