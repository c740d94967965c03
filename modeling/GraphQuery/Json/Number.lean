import GraphQuery.Decimal.Notation
import GraphQuery.Json.Basic

namespace GraphQuery.Json

inductive Number where
  | natural (value : Nat)
  | negative (value : Int)
  | real (value : Float)
deriving Repr

namespace Number

def gather (significand : Nat) : List Char → Nat × List Char
  | [] => (significand, [])
  | c :: cs =>
    let next := 10 * significand + (c.toNat - '0'.toNat)
    if next < Nat.pow 2 64 then gather next cs else (significand, c :: cs)

def scale? (f : Float) (exponent : Int) : Option Float :=
  if 0 ≤ exponent then
    if exponent ≤ 308 then
      let x := f * Decimal.ofDigits 1 exponent
      if x.isInf then none else some x
    else if f == 0 then some f
    else none
  else if -308 ≤ exponent then some (f / Decimal.ofDigits 1 (-exponent))
  else if f == 0 then some f
  -- doubles end at 10 ^ 308, so that smaller powers are divided out in steps
  else scale? (f / Decimal.ofDigits 1 308) (exponent + 308)
termination_by (-exponent).toNat
decreasing_by omega

structure Parts where
  minus : Bool
  whole : List Char
  fraction : Option (List Char)
  exponent : Option (Bool × List Char)
deriving Repr

def split (lexeme : List Char) : Parts :=
  let (minus, rest) := match lexeme with
    | '-' :: rest => (true, rest)
    | rest => (false, rest)
  let whole := rest.takeWhile Char.isDigit
  let (fraction, rest) := match rest.dropWhile Char.isDigit with
    | '.' :: rest => (some (rest.takeWhile Char.isDigit), rest.dropWhile Char.isDigit)
    | rest => (none, rest)
  let exponent := match rest with
    | _ :: '-' :: ds => some (true, ds)
    | _ :: '+' :: ds => some (false, ds)
    | _ :: ds => some (false, ds)
    | [] => none
  ⟨minus, whole, fraction, exponent⟩

def exponentLimit : Nat := Nat.pow 2 31 - 1

def signed (minus : Bool) (x : Float) : Float :=
  if minus then -x else x

def real? (minus : Bool) (significand : Nat) (power : Int) (exponent : Option (Bool × List Char)) :
    Option Float :=
  let f := Decimal.nearest significand 1
  match exponent with
  | none => (scale? f power).map (signed minus)
  | some (down, ds) =>
    let e := ds.foldl (fun n c => 10 * n + (c.toNat - '0'.toNat)) 0
    if exponentLimit < e then
      if significand ≠ 0 && !down then none else some (signed minus 0)
    else
      let total : Int := if down then power - e else power + e
      (scale? f total).map (signed minus)

def read? (lexeme : String) : Option Number :=
  let p := split lexeme.toList
  let (significand, surplus) := gather 0 p.whole
  match p.fraction, p.exponent with
  | none, none =>
    if !surplus.isEmpty then (real? p.minus significand surplus.length none).map real
    else if !p.minus then some (natural significand)
    else if 0 < significand ∧ significand ≤ Nat.pow 2 63 then some (negative (-significand))
    else some (real (-(Decimal.nearest significand 1)))
  | fraction, exponent =>
    let ds := fraction.getD []
    let (significand, left) := gather significand ds
    let power : Int := surplus.length - (ds.length - left.length : Nat)
    (real? p.minus significand power exponent).map real

end Number

def number? : Json → Option Number
  | number lexeme => Number.read? lexeme
  | _ => none

def integer? (j : Json) : Option Int64 :=
  match j.number? with
  | some (.natural n) => if n < Nat.pow 2 63 then some (Int64.ofNat n) else none
  | some (.negative n) => some (Int64.ofInt n)
  | _ => none

def natural? (j : Json) : Option Nat :=
  match j.number? with
  | some (.natural n) => some n
  | _ => none

def real? (j : Json) : Option Float :=
  match j.number? with
  | some (.natural n) => some (Decimal.nearest n 1)
  | some (.negative n) => some (-(Decimal.nearest n.natAbs 1))
  | some (.real x) => some x
  | none => none

def boolean? : Json → Option Bool
  | boolean b => some b
  | _ => none

def ofInteger (n : Int64) : Json :=
  .number (toString n.toInt)

def ofNatural (n : Nat) : Json :=
  .number (toString n)

def decimal : Decimal.Notation where
  positional exponent := -5 ≤ exponent && exponent < 16
  wholeFraction := true
  exponentMark := "e+"
  tie := .even

def ofReal (x : Float) : Json :=
  if x.isFinite then .number (decimal.write x) else .null

end GraphQuery.Json
