import GraphQuery.Expr.Basic

namespace GraphQuery.Expr

def children : Expr → List Expr
  | literal .. | var .. | typeName .. | extent .. => []
  | navigation _ source _ => [source]
  | operation _ source _ arguments | collectionCall _ source _ arguments => source :: arguments
  | iterator _ source _ _ body => [source, body]
  | binary _ _ left right => [left, right]
  | unary _ _ operand => [operand]
  | collection _ _ items => items
  | conditional _ condition yes no => [condition, yes, no]
  | letIn _ _ value body => [value, body]

inductive Occurs (n : Expr) : Expr → Prop
  | here : Occurs n n
  | inside {c e : Expr} (hc : c ∈ e.children) (h : Occurs n c) : Occurs n e

end GraphQuery.Expr
