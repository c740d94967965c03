import GraphQuery.Script.Basic

namespace GraphQuery

namespace Term

mutual
def collectFree (scope found : List String) : Term → List String
  | literal _ => found
  | var name => if name ∈ scope ∨ name ∈ found then found else found ++ [name]
  | property target _ => collectFree scope found target
  | list items => collectFreeAll scope found items
  | unary _ operand => collectFree scope found operand
  | binary _ left right => collectFree scope (collectFree scope found left) right

def collectFreeAll (scope found : List String) : List Term → List String
  | [] => found
  | t :: ts => collectFreeAll scope (collectFree scope found t) ts
end

end Term

namespace Instruction

mutual
def collectFree (scope found : List String) : Instruction → List String
  | step _ arguments => Term.collectFreeAll scope found arguments
  | closure _ parameter body => collectFreeAll (boundName parameter :: scope) found body
  | statement term => term.collectFree scope found

def collectFreeAll (scope found : List String) : List Instruction → List String
  | [] => found
  | i :: is => collectFreeAll scope (collectFree scope found i) is
end

end Instruction

def Script.freeVariables (s : Script) : List String :=
  Instruction.collectFreeAll [] [] s.instructions

end GraphQuery
