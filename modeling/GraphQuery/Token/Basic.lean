import GraphQuery.Decimal.Notation
import GraphQuery.Literal
import GraphQuery.Span
import GraphQuery.Text.Quoted

namespace GraphQuery

inductive Mark where
  | andWord | orWord | notWord | impliesWord
  | ifWord | thenWord | elseWord | endifWord | letWord | inWord
  | trueWord | falseWord | nullWord
  | leftParen | rightParen | leftBrace | rightBrace
  | comma | dot | arrow | pipe | bang | colon
  | equals | notEquals | less | lessEquals | greater | greaterEquals
  | plus | minus | star | slash
deriving Repr, DecidableEq

namespace Mark

def name : Mark → String
  | andWord => "And"
  | orWord => "Or"
  | notWord => "Not"
  | impliesWord => "Implies"
  | ifWord => "If"
  | thenWord => "Then"
  | elseWord => "Else"
  | endifWord => "Endif"
  | letWord => "Let"
  | inWord => "In"
  | trueWord => "True"
  | falseWord => "False"
  | nullWord => "Null"
  | leftParen => "LParen"
  | rightParen => "RParen"
  | leftBrace => "LBrace"
  | rightBrace => "RBrace"
  | comma => "Comma"
  | dot => "Dot"
  | arrow => "Arrow"
  | pipe => "Pipe"
  | bang => "Bang"
  | colon => "Colon"
  | equals => "Equals"
  | notEquals => "NotEquals"
  | less => "LessThan"
  | lessEquals => "LessEquals"
  | greater => "GreaterThan"
  | greaterEquals => "GreaterEquals"
  | plus => "Plus"
  | minus => "Minus"
  | star => "Star"
  | slash => "Slash"

def words : List (String × Mark) :=
  [("and", andWord), ("or", orWord), ("not", notWord), ("implies", impliesWord), ("if", ifWord),
   ("then", thenWord), ("else", elseWord), ("endif", endifWord), ("let", letWord), ("in", inWord),
   ("true", trueWord), ("false", falseWord), ("null", nullWord), ("OclUndefined", nullWord)]

end Mark

inductive Token where
  | mark (mark : Mark)
  | integer (value : Int64)
  | real (value : Float)
  | string (value : String)
  | identifier (name : String)
deriving Repr, BEq

namespace Token

def isWordStart (c : Char) : Bool :=
  c.isAlpha || c == '_'

def isWordPart (c : Char) : Bool :=
  c.isAlphanum || c == '_'

def ofWord (word : String) : Token :=
  match Mark.words.lookup word with
  | some m => .mark m
  | none => .identifier word

def describe : Token → String
  | mark m => m.name
  | integer n => "integer " ++ integerText n
  | real x => "real " ++ Decimal.Notation.plain.write x
  | string s => "string " ++ Text.quoted s
  | identifier name => "identifier `" ++ name ++ "`"

end Token

structure Located where
  token : Token
  span : Span
deriving Repr

def isIdentifier (name : String) : Bool :=
  match name.toList with
  | [] => false
  | c :: cs => Token.isWordStart c && cs.all Token.isWordPart

end GraphQuery
