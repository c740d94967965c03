import GraphQuery.Json.Record
import GraphQuery.Script.BinaryForm

namespace GraphQuery

namespace Literal

def toJson : Literal → Json
  | null => Json.ofText "Null"
  | boolean b => .object [("Boolean", .boolean b)]
  | integer n => .object [("Integer", Json.ofInteger n)]
  | real x => .object [("Float", Json.ofReal x)]
  | string s => .object [("String", Json.ofText s)]

def ofJson? : (room : Nat) → Json → Option Literal
  | _, .string lexeme => do
    let name ← Json.decodeText? lexeme
    if name = "Null" then some null else none
  | _ + 1, .object [(key, content)] => do
    let name ← Json.decodeText? key
    match name, content with
    | "Null", .null => some null
    | "Boolean", content => content.boolean?.map boolean
    | "Integer", content => content.integer?.map integer
    | "Float", content => content.real?.map real
    | "String", content => content.text?.map string
    | _, _ => none
  | _, _ => none

end Literal

namespace Term

mutual
def toJson : Term → Json
  | literal value => .object [("Literal", value.toJson)]
  | var name => .object [("Variable", .object [("name", Json.ofText name)])]
  | property target name =>
    .object [("Property", .object [("target", target.toJson), ("name", Json.ofText name)])]
  | list items => .object [("List", .array (toJsonAll items))]
  | unary op operand =>
    .object [("Unary", .object [("op", Json.ofText op.name), ("operand", operand.toJson)])]
  | binary op left right =>
    .object [("Binary", .object
      [("op", Json.ofText op.name), ("left", left.toJson), ("right", right.toJson)])]

def toJsonAll : List Term → List Json
  | [] => []
  | t :: ts => t.toJson :: toJsonAll ts
end

def ofJson? : (room : Nat) → Json → Option Term
  | room + 2, .object [(key, content)] => do
    let name ← Json.decodeText? key
    match name, content with
    | "Literal", content => (Literal.ofJson? (room + 1) content).map literal
    | "Variable", content =>
      match content.fields? false ["name"] with
      | some [some n] => n.text?.map var
      | _ => none
    | "Property", content =>
      match content.fields? false ["target", "name"] with
      | some [some t, some n] => do
        let target ← ofJson? room t
        let name ← n.text?
        some (property target name)
      | _ => none
    | "List", .array items => (items.mapM (ofJson? room)).map list
    | "Unary", content =>
      match content.fields? false ["op", "operand"] with
      | some [some o, some t] => do
        let op ← (o.name? room).bind UnaryOp.ofName?
        let operand ← ofJson? room t
        some (unary op operand)
      | _ => none
    | "Binary", content =>
      match content.fields? false ["op", "left", "right"] with
      | some [some o, some l, some r] => do
        let op ← (o.name? room).bind BinaryOp.ofName?
        let left ← ofJson? room l
        let right ← ofJson? room r
        some (binary op left right)
      | _ => none
    | _, _ => none
  | 1, .object [(key, content)] => do
    let name ← Json.decodeText? key
    if name = "Literal" then (Literal.ofJson? 0 content).map literal else none
  | _, _ => none

end Term

namespace Instruction

mutual
def toJson : Instruction → Json
  | step name arguments =>
    .object [("Step", .object
      [("name", Json.ofText name), ("arguments", .array (Term.toJsonAll arguments))])]
  | closure name parameter body =>
    .object [("Closure", .object
      [("name", Json.ofText name), ("parameter", (parameter.map Json.ofText).getD .null),
       ("body", .array (toJsonAll body))])]
  | statement term => .object [("Expression", term.toJson)]

def toJsonAll : List Instruction → List Json
  | [] => []
  | i :: is => i.toJson :: toJsonAll is
end

def ofJson? : (room : Nat) → Json → Option Instruction
  | room + 3, .object [(key, content)] => do
    let name ← Json.decodeText? key
    match name with
    | "Expression" => (Term.ofJson? (room + 2) content).map statement
    | "Step" =>
      match content.fields? false ["name", "arguments"] with
      | some [some n, some (.array items)] => do
        let name ← n.text?
        let arguments ← items.mapM (Term.ofJson? room)
        some (step name arguments)
      | _ => none
    | "Closure" =>
      match content.fields? false ["name", "parameter", "body"] with
      | some [some n, p, some (.array items)] => do
        let name ← n.text?
        let parameter ← Json.optional? Json.text? p
        let body ← items.mapM (ofJson? room)
        some (closure name parameter body)
      | _ => none
    | _ => none
  | room + 1, .object [(key, content)] => do
    let name ← Json.decodeText? key
    if name = "Expression" then (Term.ofJson? room content).map statement else none
  | _, _ => none

end Instruction

namespace Script

def toJson (s : Script) : Json :=
  .object [("instructions", .array (Instruction.toJsonAll s.instructions))]

def readJson? (j : Json) : Option Script :=
  match j.fields? false ["instructions"] with
  | some [some (.array items)] => do
    let instructions ← items.mapM (Instruction.ofJson? (Json.maxNesting - 2))
    some ⟨instructions⟩
  | _ => none

def ofJsonText (text : String) : Except LoadError Script :=
  match (Json.parse? text).bind readJson? with
  | none => .error .malformed
  | some s =>
    match s.validate with
    | .ok () => .ok s
    | .error e => .error (.invalid e)

end Script

end GraphQuery
