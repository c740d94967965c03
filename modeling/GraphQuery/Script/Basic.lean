import GraphQuery.Script.Term

/-!
Traversal scripts: a sequence of steps, of closures with a body of their own, and of value computations.
-/

namespace GraphQuery

inductive Instruction where
  | step (name : String) (arguments : List Term)
  | closure (name : String) (parameter : Option String) (body : List Instruction)
  | statement (term : Term)
deriving Repr, BEq, Inhabited

structure Script where
  instructions : List Instruction
deriving Repr, BEq, Inhabited

def implicitName : String := "it"

def boundName (parameter : Option String) : String :=
  parameter.getD implicitName

namespace Instruction

def terms : Instruction → List Term
  | step _ arguments => arguments
  | closure .. => []
  | statement term => [term]

def children : Instruction → List Instruction
  | closure _ _ body => body
  | _ => []

mutual
def nodeCount : Instruction → Nat
  | step _ arguments => 1 + Term.nodeCounts arguments
  | closure _ _ body => 1 + nodeCounts body
  | statement term => 1 + term.nodeCount

def nodeCounts : List Instruction → Nat
  | [] => 0
  | i :: is => i.nodeCount + nodeCounts is
end

mutual
def depth : Instruction → Nat
  | closure _ _ body => 1 + depths body
  | _ => 0

def depths : List Instruction → Nat
  | [] => 0
  | i :: is => max i.depth (depths is)
end

theorem nodeCount_eq (i : Instruction) :
    i.nodeCount = 1 + (Term.nodeCounts i.terms + nodeCounts i.children) := by
  cases i <;> simp [nodeCount, nodeCounts, terms, children, Term.nodeCounts]

end Instruction

namespace Script

def nodeCount (s : Script) : Nat :=
  Instruction.nodeCounts s.instructions

def depth (s : Script) : Nat :=
  Instruction.depths s.instructions

end Script

end GraphQuery
