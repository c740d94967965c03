import GraphQuery.Decimal.Notation
import GraphQuery.Expr.Basic

namespace GraphQuery

namespace Expr

def escapeChar (c : Char) : List Char :=
  if c == '\\' || c == '\'' then ['\\', c] else [c]

def literalText : Literal → String
  | .null => "null"
  | .boolean b => booleanText b
  | .integer n => integerText n
  | .real x => Decimal.Notation.tagged.write x
  | .string s => String.ofList ('\'' :: s.toList.flatMap escapeChar ++ ['\''])

def qualified (metamodel : Option String) (name : String) : String :=
  match metamodel with
  | some m => m ++ "!" ++ name
  | none => name

def isCompound : Expr → Bool
  | binary .. | conditional .. | letIn .. => true
  | _ => false

def parenthesized (grouped : Bool) (text : String) : String :=
  if grouped then "(" ++ text ++ ")" else text

mutual
def display : Expr → String
  | literal _ value => literalText value
  | var _ name => name
  | typeName _ metamodel name => qualified metamodel name
  | extent _ metamodel className => qualified metamodel className ++ ".allInstances()"
  | navigation _ source feature =>
    parenthesized source.isCompound source.display ++ "." ++ feature
  | operation _ source name arguments =>
    parenthesized source.isCompound source.display ++ "." ++ name ++ "(" ++ displayList arguments ++ ")"
  | collectionCall _ source name arguments =>
    parenthesized source.isCompound source.display ++ "->" ++ name ++ "(" ++ displayList arguments ++ ")"
  | iterator _ source kind declared body =>
    let head := match declared with
      | some v => v ++ " | "
      | none => ""
    parenthesized source.isCompound source.display ++ "->" ++ kind.name ++ "(" ++ head ++ body.display ++ ")"
  | binary _ op left right =>
    parenthesized left.isCompound left.display ++ " " ++ op.spelling ++ " " ++
      parenthesized right.isCompound right.display
  | unary _ op operand => op.spelling ++ parenthesized operand.isCompound operand.display
  | collection _ kind items => kind.name ++ "\x7b" ++ displayList items ++ "\x7d"
  | conditional _ condition yes no =>
    "if " ++ condition.display ++ " then " ++ yes.display ++ " else " ++ no.display ++ " endif"
  | letIn _ name value body => "let " ++ name ++ " = " ++ value.display ++ " in " ++ body.display

def displayList : List Expr → String
  | [] => ""
  | [e] => e.display
  | e :: es => e.display ++ ", " ++ displayList es
end

def describe (e : Expr) : String :=
  "`" ++ e.display ++ "` (" ++ e.span.display ++ ")"

end Expr

end GraphQuery
