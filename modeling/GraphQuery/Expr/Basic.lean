import GraphQuery.Literal
import GraphQuery.Span

/-!
Query expressions in the style of the Object Constraint Language: navigation, class extents, iterators and
operators. Every node records its place in the text.
-/

namespace GraphQuery

inductive Expr.BinaryOp where
  | equal | notEqual | less | lessOrEqual | greater | greaterOrEqual
  | and | or | implies
  | add | subtract | multiply | divide
deriving Repr, DecidableEq

inductive Expr.UnaryOp where
  | not | minus
deriving Repr, DecidableEq

inductive Expr.CollectionKind where
  | set | bag | sequence | orderedSet
deriving Repr, DecidableEq

inductive Expr.IteratorKind where
  | select | reject | collect | exist | forAll
deriving Repr, DecidableEq

inductive Expr where
  | literal (span : Span) (value : Literal)
  | var (span : Span) (name : String)
  | typeName (span : Span) (metamodel : Option String) (name : String)
  | extent (span : Span) (metamodel : Option String) (className : String)
  | navigation (span : Span) (source : Expr) (feature : String)
  | operation (span : Span) (source : Expr) (name : String) (arguments : List Expr)
  | collectionCall (span : Span) (source : Expr) (name : String) (arguments : List Expr)
  | iterator (span : Span) (source : Expr) (kind : Expr.IteratorKind) (declared : Option String)
      (body : Expr)
  | binary (span : Span) (op : Expr.BinaryOp) (left right : Expr)
  | unary (span : Span) (op : Expr.UnaryOp) (operand : Expr)
  | collection (span : Span) (kind : Expr.CollectionKind) (items : List Expr)
  | conditional (span : Span) (condition yes no : Expr)
  | letIn (span : Span) (name : String) (value body : Expr)
deriving Repr, Inhabited

namespace Expr

namespace BinaryOp

def all : List BinaryOp :=
  [equal, notEqual, less, lessOrEqual, greater, greaterOrEqual, and, or, implies, add, subtract, multiply,
   divide]

def spelling : BinaryOp → String
  | equal => "="
  | notEqual => "<>"
  | less => "<"
  | lessOrEqual => "<="
  | greater => ">"
  | greaterOrEqual => ">="
  | and => "and"
  | or => "or"
  | implies => "implies"
  | add => "+"
  | subtract => "-"
  | multiply => "*"
  | divide => "/"

def precedence : BinaryOp → Nat
  | implies => 1
  | or => 2
  | and => 3
  | equal | notEqual => 4
  | less | lessOrEqual | greater | greaterOrEqual => 5
  | add | subtract => 6
  | multiply | divide => 7

end BinaryOp

namespace UnaryOp

def all : List UnaryOp := [not, minus]

def spelling : UnaryOp → String
  | not => "not "
  | minus => "-"

end UnaryOp

namespace CollectionKind

def all : List CollectionKind := [set, bag, sequence, orderedSet]

def name : CollectionKind → String
  | set => "Set"
  | bag => "Bag"
  | sequence => "Sequence"
  | orderedSet => "OrderedSet"

def ofName? (name : String) : Option CollectionKind :=
  all.find? (·.name == name)

end CollectionKind

namespace IteratorKind

def all : List IteratorKind := [select, reject, collect, exist, forAll]

def name : IteratorKind → String
  | select => "select"
  | reject => "reject"
  | collect => "collect"
  | exist => "exists"
  | forAll => "forAll"

def ofName? (name : String) : Option IteratorKind :=
  all.find? (·.name == name)

end IteratorKind

def span : Expr → Span
  | literal s .. | var s .. | typeName s .. | extent s .. | navigation s .. | operation s ..
  | collectionCall s .. | iterator s .. | binary s .. | unary s .. | collection s .. | conditional s ..
  | letIn s .. => s

def withSpan (s : Span) : Expr → Expr
  | literal _ value => literal s value
  | var _ name => var s name
  | typeName _ metamodel name => typeName s metamodel name
  | extent _ metamodel className => extent s metamodel className
  | navigation _ source feature => navigation s source feature
  | operation _ source name arguments => operation s source name arguments
  | collectionCall _ source name arguments => collectionCall s source name arguments
  | iterator _ source kind declared body => iterator s source kind declared body
  | binary _ op left right => binary s op left right
  | unary _ op operand => unary s op operand
  | collection _ kind items => collection s kind items
  | conditional _ condition yes no => conditional s condition yes no
  | letIn _ name value body => letIn s name value body

@[simp] theorem span_withSpan (s : Span) (e : Expr) : (e.withSpan s).span = s := by
  cases e <;> rfl

end Expr

end GraphQuery
