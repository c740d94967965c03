import GraphQuery.Binding
import GraphQuery.Machine.Run
import GraphQuery.Result

namespace GraphQuery

inductive ExecutionError where
  | invalid (cause : Script.Invalid)
  | binding (cause : BindError)
  | run (cause : RunError)
deriving Repr

def ExecutionError.isStatic : ExecutionError → Bool
  | invalid _ | binding _ => true
  | run _ => false

structure Executor where
  input : Handle
  output : Option Handle := none
  limit : Option Nat := none
deriving Repr

namespace Executor

def prepare (x : Executor) (s : Script) (parameters : Parameters) : Except ExecutionError Environment :=
  match s.validate with
  | .error e => .error (.invalid e)
  | .ok () => (s.bind x.input x.output parameters).mapError .binding

def execute (x : Executor) (s : Script) (parameters : Parameters) (stores : Stores) :
    Except ExecutionError QueryResult × Stores :=
  match x.prepare s parameters with
  | .error e => (.error e, stores)
  | .ok environment =>
    match Machine.run environment s stores with
    | (.error e, stores) => (.error (.run e), stores)
    | (.ok raw, stores) => (.ok ⟨raw, environment, x.limit⟩, stores)

end Executor

end GraphQuery
