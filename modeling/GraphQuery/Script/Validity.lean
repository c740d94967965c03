import GraphQuery.Decimal.Notation
import GraphQuery.Script.Basic
import GraphQuery.Token.Basic

namespace GraphQuery

inductive Script.NameRole where
  | step | closure | parameter | var | property
deriving Repr, DecidableEq

def Script.NameRole.describe : Script.NameRole → String
  | step => "step"
  | closure => "closure"
  | parameter => "closure parameter"
  | var => "variable"
  | property => "property"

inductive Script.Invalid where
  | name (role : Script.NameRole) (name : String)
  | real (value : Float)
deriving Repr

def Script.Invalid.message : Script.Invalid → String
  | name role text => "invalid " ++ role.describe ++ " name " ++ Text.quoted text
  | real x => "float literal " ++ Decimal.Notation.plain.write x ++ " has no script form"

namespace Script

def checkName (role : NameRole) (name : String) : Except Invalid Unit :=
  if isIdentifier name then .ok () else .error (.name role name)

end Script

namespace Term

mutual
def check : Term → Except Script.Invalid Unit
  | literal (.real x) => if x.isFinite then .ok () else .error (.real x)
  | literal _ => .ok ()
  | var name => Script.checkName .var name
  | property target name => do
    Script.checkName .property name
    check target
  | list items => checkAll items
  | unary _ operand => check operand
  | binary _ left right => do
    check left
    check right

def checkAll : List Term → Except Script.Invalid Unit
  | [] => .ok ()
  | t :: ts => do
    check t
    checkAll ts
end

end Term

namespace Instruction

mutual
def check : Instruction → Except Script.Invalid Unit
  | step name arguments => do
    Script.checkName .step name
    Term.checkAll arguments
  | closure name parameter body => do
    Script.checkName .closure name
    match parameter with
    | some p => Script.checkName .parameter p
    | none => .ok ()
    checkAll body
  | statement term => term.check

def checkAll : List Instruction → Except Script.Invalid Unit
  | [] => .ok ()
  | i :: is => do
    check i
    checkAll is
end

end Instruction

def Script.validate (s : Script) : Except Script.Invalid Unit :=
  Instruction.checkAll s.instructions

end GraphQuery
