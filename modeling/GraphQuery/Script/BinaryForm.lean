import GraphQuery.Bytes
import GraphQuery.Script.Validity

namespace GraphQuery

inductive Script.LoadError where
  | malformed
  | invalid (cause : Script.Invalid)
deriving Repr

namespace Literal

def toBytes : Literal → List UInt8
  | null => Bytes.ofNat 4 0
  | boolean b => Bytes.ofNat 4 1 ++ Bytes.ofBool b
  | integer n => Bytes.ofNat 4 2 ++ Bytes.ofNat 8 n.toUInt64.toNat
  | real x => Bytes.ofNat 4 3 ++ Bytes.ofNat 8 x.toBits.toNat
  | string s => Bytes.ofNat 4 4 ++ Bytes.ofText s

def read : Bytes.Reader Literal := fun bs => do
  let (tag, bs) ← Bytes.nat 4 bs
  match tag with
  | 0 => some (null, bs)
  | 1 =>
    let (b, bs) ← Bytes.bool bs
    some (boolean b, bs)
  | 2 =>
    let (n, bs) ← Bytes.nat 8 bs
    some (integer (UInt64.ofNat n).toInt64, bs)
  | 3 =>
    let (n, bs) ← Bytes.nat 8 bs
    some (real (Float.ofBits (UInt64.ofNat n)), bs)
  | 4 =>
    let (s, bs) ← Bytes.text bs
    some (string s, bs)
  | _ => none

end Literal

namespace Term

namespace BinaryOp

def toBytes (op : BinaryOp) : List UInt8 :=
  Bytes.ofNat 4 (all.idxOf op)

def read : Bytes.Reader BinaryOp := fun bs => do
  let (tag, bs) ← Bytes.nat 4 bs
  let op ← all[tag]?
  some (op, bs)

end BinaryOp

namespace UnaryOp

def toBytes (op : UnaryOp) : List UInt8 :=
  Bytes.ofNat 4 (all.idxOf op)

def read : Bytes.Reader UnaryOp := fun bs => do
  let (tag, bs) ← Bytes.nat 4 bs
  let op ← all[tag]?
  some (op, bs)

end UnaryOp

mutual
def toBytes : Term → List UInt8
  | literal value => Bytes.ofNat 4 0 ++ value.toBytes
  | var name => Bytes.ofNat 4 1 ++ Bytes.ofText name
  | property target name => Bytes.ofNat 4 2 ++ target.toBytes ++ Bytes.ofText name
  | list items => Bytes.ofNat 4 3 ++ Bytes.ofNat 8 items.length ++ toBytesAll items
  | unary op operand => Bytes.ofNat 4 4 ++ op.toBytes ++ operand.toBytes
  | binary op left right => Bytes.ofNat 4 5 ++ op.toBytes ++ left.toBytes ++ right.toBytes

def toBytesAll : List Term → List UInt8
  | [] => []
  | t :: ts => t.toBytes ++ toBytesAll ts
end

def read : (depth : Nat) → Bytes.Reader Term
  | 0, _ => none
  | depth + 1, bs => do
    let (tag, bs) ← Bytes.nat 4 bs
    match tag with
    | 0 =>
      let (value, bs) ← Literal.read bs
      some (literal value, bs)
    | 1 =>
      let (name, bs) ← Bytes.text bs
      some (var name, bs)
    | 2 =>
      let (target, bs) ← read depth bs
      let (name, bs) ← Bytes.text bs
      some (property target name, bs)
    | 3 =>
      let (items, bs) ← Bytes.sequence (read depth) bs
      some (list items, bs)
    | 4 =>
      let (op, bs) ← UnaryOp.read bs
      let (operand, bs) ← read depth bs
      some (unary op operand, bs)
    | 5 =>
      let (op, bs) ← BinaryOp.read bs
      let (left, bs) ← read depth bs
      let (right, bs) ← read depth bs
      some (binary op left right, bs)
    | _ => none

end Term

namespace Instruction

mutual
def toBytes : Instruction → List UInt8
  | step name arguments =>
    Bytes.ofNat 4 0 ++ Bytes.ofText name ++ Bytes.ofNat 8 arguments.length ++ Term.toBytesAll arguments
  | closure name parameter body =>
    Bytes.ofNat 4 1 ++ Bytes.ofText name ++
      (match parameter with
        | none => Bytes.ofBool false
        | some p => Bytes.ofBool true ++ Bytes.ofText p) ++
      Bytes.ofNat 8 body.length ++ toBytesAll body
  | statement term => Bytes.ofNat 4 2 ++ term.toBytes

def toBytesAll : List Instruction → List UInt8
  | [] => []
  | i :: is => i.toBytes ++ toBytesAll is
end

def read : (depth : Nat) → Bytes.Reader Instruction
  | 0, _ => none
  | depth + 1, bs => do
    let (tag, bs) ← Bytes.nat 4 bs
    match tag with
    | 0 =>
      let (name, bs) ← Bytes.text bs
      let (arguments, bs) ← Bytes.sequence (Term.read depth) bs
      some (step name arguments, bs)
    | 1 =>
      let (name, bs) ← Bytes.text bs
      let (parameter, bs) ← Bytes.option Bytes.text bs
      let (body, bs) ← Bytes.sequence (read depth) bs
      some (closure name parameter body, bs)
    | 2 =>
      let (term, bs) ← Term.read depth bs
      some (statement term, bs)
    | _ => none

end Instruction

namespace Script

def toBytes (s : Script) : List UInt8 :=
  Bytes.ofNat 8 s.instructions.length ++ Instruction.toBytesAll s.instructions

def read? (bs : List UInt8) : Option Script := do
  -- every level of nesting takes at least one byte
  let (instructions, _) ← Bytes.sequence (Instruction.read bs.length) bs
  some ⟨instructions⟩

def ofBytes (bs : List UInt8) : Except LoadError Script :=
  match read? bs with
  | none => .error .malformed
  | some s =>
    match s.validate with
    | .ok () => .ok s
    | .error e => .error (.invalid e)

end Script

end GraphQuery
