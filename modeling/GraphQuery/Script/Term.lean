import GraphQuery.Literal

namespace GraphQuery

inductive Term.BinaryOp where
  | equality | difference | less | lessOrEqual | greater | greaterOrEqual
  | and | or
  | add | subtract | multiply | divide
  | union | intersection
deriving Repr, DecidableEq, Inhabited

inductive Term.UnaryOp where
  | not | negate
deriving Repr, DecidableEq, Inhabited

inductive Term where
  | literal (value : Literal)
  | var (name : String)
  | property (target : Term) (name : String)
  | list (items : List Term)
  | unary (op : Term.UnaryOp) (operand : Term)
  | binary (op : Term.BinaryOp) (left right : Term)
deriving Repr, BEq, Inhabited

namespace Term

namespace BinaryOp

def all : List BinaryOp :=
  [equality, difference, less, lessOrEqual, greater, greaterOrEqual, and, or, add, subtract, multiply, divide,
   union, intersection]

def name : BinaryOp → String
  | equality => "Equality"
  | difference => "Difference"
  | less => "Less"
  | lessOrEqual => "LessOrEqual"
  | greater => "Greater"
  | greaterOrEqual => "GreaterOrEqual"
  | and => "And"
  | or => "Or"
  | add => "Add"
  | subtract => "Subtract"
  | multiply => "Multiply"
  | divide => "Divide"
  | union => "Union"
  | intersection => "Intersection"

def spelling : BinaryOp → String
  | equality => "=="
  | difference => "!="
  | less => "<"
  | lessOrEqual => "<="
  | greater => ">"
  | greaterOrEqual => ">="
  | and => "&&"
  | or => "||"
  | add => "+"
  | subtract => "-"
  | multiply => "*"
  | divide => "/"
  | union => "|"
  | intersection => "&"

def precedence : BinaryOp → Nat
  | or => 1
  | and => 2
  | union => 3
  | intersection => 4
  | equality | difference => 5
  | less | lessOrEqual | greater | greaterOrEqual => 6
  | add | subtract => 7
  | multiply | divide => 8

def ofName? (name : String) : Option BinaryOp :=
  all.find? (·.name == name)

def ofSpelling? (spelling : String) : Option BinaryOp :=
  all.find? (·.spelling == spelling)

end BinaryOp

namespace UnaryOp

def all : List UnaryOp := [not, negate]

def name : UnaryOp → String
  | not => "Not"
  | negate => "Negate"

def spelling : UnaryOp → String
  | not => "!"
  | negate => "-"

def ofName? (name : String) : Option UnaryOp :=
  all.find? (·.name == name)

def ofSpelling? (spelling : String) : Option UnaryOp :=
  all.find? (·.spelling == spelling)

end UnaryOp

def operands : Term → List Term
  | literal _ | var _ => []
  | property target _ => [target]
  | list items => items
  | unary _ operand => [operand]
  | binary _ left right => [left, right]

mutual
def nodeCount : Term → Nat
  | literal _ | var _ => 1
  | property target _ => 1 + target.nodeCount
  | list items => 1 + nodeCounts items
  | unary _ operand => 1 + operand.nodeCount
  | binary _ left right => 1 + (left.nodeCount + right.nodeCount)

def nodeCounts : List Term → Nat
  | [] => 0
  | t :: ts => t.nodeCount + nodeCounts ts
end

theorem nodeCount_eq (t : Term) : t.nodeCount = 1 + nodeCounts t.operands := by
  cases t <;> simp [nodeCount, nodeCounts, operands]

end Term

end GraphQuery
