import GraphQuery.Decimal.Notation
import GraphQuery.Script.Basic

namespace GraphQuery

structure PrintOptions where
  separator : String := ";"
  lineBreak : String := "\n"
  trailing : Bool := true
deriving Repr, DecidableEq, Inhabited

namespace Term

def decimal : Decimal.Notation :=
  { Decimal.Notation.plain with wholeFraction := true }

def escapeChar (c : Char) : List Char :=
  match c with
  | '\\' => ['\\', '\\']
  | '"' => ['\\', '"']
  | '\n' => ['\\', 'n']
  | '\t' => ['\\', 't']
  | '\r' => ['\\', 'r']
  | c => [c]

def literalText : Literal → String
  | .null => "null"
  | .boolean b => booleanText b
  | .integer n => integerText n
  | .real x => decimal.write x
  | .string s => String.ofList ('"' :: s.toList.flatMap escapeChar ++ ['"'])

def isGrouped : Term → Bool
  | binary .. | unary .. => true
  | literal (.integer n) => n < 0
  | literal (.real x) => Decimal.isNegative x
  | _ => false

def precedence? : Term → Option Nat
  | binary op .. => some op.precedence
  | _ => none

def parenthesized (grouped : Bool) (text : String) : String :=
  if grouped then "(" ++ text ++ ")" else text

mutual
def print : Term → String
  | literal value => literalText value
  | var name => name
  | property target name => parenthesized target.isGrouped target.print ++ "." ++ name
  | list items => "[" ++ printAll items ++ "]"
  | unary op operand => op.spelling ++ parenthesized operand.isGrouped operand.print
  | binary op left right =>
    -- a left operand is grouped if it binds weaker, a right one also if it binds equally
    parenthesized (left.precedence?.any (· < op.precedence)) left.print ++ " " ++ op.spelling ++ " " ++
      parenthesized (right.precedence?.any (· ≤ op.precedence)) right.print

def printAll : List Term → String
  | [] => ""
  | [t] => t.print
  | t :: ts => t.print ++ ", " ++ printAll ts
end

end Term

namespace Instruction

mutual
def print (options : PrintOptions) : Instruction → String
  | step name arguments => name ++ "(" ++ Term.printAll arguments ++ ")"
  | closure name _ body => name ++ "\x7b" ++ printBody options body ++ " \x7d"
  | statement term => term.print

def printBody (options : PrintOptions) : List Instruction → String
  | [] => ""
  | i :: is => " " ++ i.print options ++ options.separator ++ printBody options is
end

end Instruction

namespace Script

def printLines (options : PrintOptions) : List Instruction → String
  | [] => ""
  | [i] => i.print options ++ (if options.trailing then options.separator ++ options.lineBreak else "")
  | i :: is => i.print options ++ options.separator ++ options.lineBreak ++ printLines options is

def print (options : PrintOptions) (s : Script) : String :=
  printLines options s.instructions

end Script

end GraphQuery
