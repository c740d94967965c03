import GraphQuery.Script.Basic

namespace GraphQuery.Script

inductive Node where
  | instruction (i : Instruction)
  | term (t : Term)
deriving Repr

namespace Node

def below : Node → List Node
  | instruction i => i.terms.map term ++ i.children.map instruction
  | term t => t.operands.map term

def nodeCount : Node → Nat
  | instruction i => i.nodeCount
  | term t => t.nodeCount

def nodeCounts : List Node → Nat
  | [] => 0
  | n :: nodes => n.nodeCount + nodeCounts nodes

theorem nodeCounts_terms (ts : List Term) : nodeCounts (ts.map term) = Term.nodeCounts ts := by
  induction ts with
  | nil => rfl
  | cons t ts ih => simp only [List.map_cons, nodeCounts, nodeCount, Term.nodeCounts, ih]

theorem nodeCounts_instructions (is : List Instruction) :
    nodeCounts (is.map instruction) = Instruction.nodeCounts is := by
  induction is with
  | nil => rfl
  | cons i is ih => simp only [List.map_cons, nodeCounts, nodeCount, Instruction.nodeCounts, ih]

theorem nodeCounts_cons (n : Node) (nodes : List Node) :
    nodeCounts (n :: nodes) = n.nodeCount + nodeCounts nodes := rfl

theorem nodeCounts_append (as bs : List Node) : nodeCounts (as ++ bs) = nodeCounts as + nodeCounts bs := by
  induction as with
  | nil => simp [nodeCounts]
  | cons n nodes ih => simp [nodeCounts, ih, Nat.add_assoc]

theorem nodeCount_eq (n : Node) : n.nodeCount = 1 + nodeCounts n.below := by
  cases n with
  | instruction i =>
    rw [below, nodeCounts_append, nodeCounts_terms, nodeCounts_instructions]
    exact i.nodeCount_eq
  | term t =>
    rw [below, nodeCounts_terms]
    exact t.nodeCount_eq

end Node

def walkFrom : List Node → List Node
  | [] => []
  | n :: stack => n :: walkFrom (n.below ++ stack)
termination_by stack => Node.nodeCounts stack
decreasing_by
  rw [Node.nodeCounts_append, Node.nodeCounts_cons, Node.nodeCount_eq n]
  omega

def walk (s : Script) : List Node :=
  walkFrom (s.instructions.map .instruction)

end GraphQuery.Script
