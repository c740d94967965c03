import GraphQuery.Compile
import GraphQuery.Script.Scope
import GraphQuery.Stores

namespace GraphQuery

abbrev Parameters := Dict Value

inductive BindError where
  | shadowsHandle (name : String)
  | outputIsInput (store : String)
  | unbound (name : String)
deriving Repr, DecidableEq

def BindError.message : BindError → String
  | shadowsHandle name => "parameter `" ++ name ++ "` shadows a store handle"
  | outputIsInput store => "output store `" ++ store ++ "` is the input store"
  | unbound name => name

namespace Script

def bindStores (input : Handle) : Option Handle → Except BindError Environment
  | none => .ok (Dict.empty.insert inputName (.store input))
  | some output =>
    if output.id = input.id then .error (.outputIsInput output.name)
    else .ok ((Dict.empty.insert inputName (.store input)).insert outputName (.store output))

def bindNames (parameters : Parameters) : List String → Environment → Except BindError Environment
  | [], env => .ok env
  | name :: names, env =>
    if Dict.contains env name then bindNames parameters names env
    else
      match parameters.get? name with
      | some v => bindNames parameters names (Dict.insert env name (.value v))
      | none => .error (.unbound name)

def bind (s : Script) (input : Handle) (output : Option Handle) (parameters : Parameters) :
    Except BindError Environment :=
  if parameters.contains inputName then .error (.shadowsHandle inputName)
  else if parameters.contains outputName then .error (.shadowsHandle outputName)
  else
    match bindStores input output with
    | .error e => .error e
    | .ok env => bindNames parameters s.freeVariables env

end Script

end GraphQuery
