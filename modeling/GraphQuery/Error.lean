import GraphQuery.Execution
import GraphQuery.Expr.Parser
import GraphQuery.Script.JsonForm

namespace GraphQuery

inductive Category where
  | structural | ownership | parse | compilation | unboundVariable | execution | resultMapping
  | serialization | deserialization | configuration | internal
deriving Repr, DecidableEq

namespace Category

def all : List Category :=
  [structural, ownership, parse, compilation, unboundVariable, execution, resultMapping, serialization,
   deserialization, configuration, internal]

def display (c : Category) (node message : String) : String :=
  match c with
  | structural => "Structural error: " ++ message
  | ownership => "Ownership error: " ++ message
  | parse => "Parse error: " ++ message
  | compilation => "Translation error at " ++ node ++ ": " ++ message
  | unboundVariable => "Unbound variable: " ++ message
  | execution => "Execution error: " ++ message
  | resultMapping => "Result mapping error: " ++ message
  | serialization => "Serialization error: " ++ message
  | deserialization => "Deserialization error: " ++ message
  | configuration => "Configuration error: " ++ message
  | internal => "Internal error: " ++ message

def isConstruction : Category → Bool
  | structural | ownership => true
  | _ => false

def isStoreFailure : Category → Bool
  | execution | resultMapping => true
  | _ => false

/-- All other failures. They arise before any store is touched, except for a lock that cannot be taken. -/
def isStatic (c : Category) : Bool :=
  !c.isStoreFailure

end Category

inductive Error where
  | parse (cause : ParseError)
  | refused (node : Expr) (reason : Compile.Refusal)
  | arena (cause : Arena.Error)
  | invalid (cause : Script.Invalid)
  | malformedScript
  | malformedSettings
  | binding (cause : BindError)
  | missing (cause : Graph.Missing)
  | poisoned
  | run (cause : RunError)
  | result (cause : ResultError)

/-- Only a lock that cannot be taken is not the script's fault. -/
def RunError.category : RunError → Category
  | poisoned => .internal
  | unsupportedClosure _ | unsupportedStep _ | arity .. | notHandle .. | handleArgument .. | notString ..
  | notElement .. | badLimit _ | badFilter _ | unboundStore _ | unknownElement _ | missing _ | unbound _
  | handleAsValue _ | cannotNavigate .. | notBoolean .. | unaryMismatch .. | mismatch .. | overflow
  | divisionByZero => .execution

def ResultError.category : ResultError → Category
  | poisoned => .internal
  | unboundStore _ | missing _ => .resultMapping

namespace Error

def ofCompile : Compile.Error → Error
  | .refused node reason => refused node reason
  | .arena cause => arena cause
  | .invalid cause => invalid cause

def ofLoad : Script.LoadError → Error
  | .malformed => malformedScript
  | .invalid cause => invalid cause

def ofExecution : ExecutionError → Error
  | .invalid cause => invalid cause
  | .binding cause => binding cause
  | .run cause => run cause

def category : Error → Category
  | parse _ => .parse
  | refused .. => .compilation
  | arena cause => if cause.isOwnership then .ownership else .structural
  | invalid _ => .structural
  | malformedScript => .deserialization
  | malformedSettings => .configuration
  | binding (.unbound _) => .unboundVariable
  | binding _ => .configuration
  | missing _ => .execution
  | poisoned => .internal
  | run cause => cause.category
  | result cause => cause.category

def message : Error → String
  | parse cause => cause.message
  | refused _ reason => reason.message
  | arena cause => cause.message
  | invalid cause => cause.message
  | malformedScript => "malformed script"
  | malformedSettings => "malformed settings"
  | binding cause => cause.message
  | missing cause => cause.message
  | poisoned => Graph.lockMessage
  | run cause => cause.message
  | result cause => cause.message

def node? : Error → Option Expr
  | refused node _ => some node
  | _ => none

def display (e : Error) : String :=
  e.category.display ((e.node?.map Expr.describe).getD "") e.message

end Error

end GraphQuery
