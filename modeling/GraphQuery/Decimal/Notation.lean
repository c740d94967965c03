import GraphQuery.Decimal.Shortest

namespace GraphQuery.Decimal

structure Notation where
  positional : Int → Bool
  wholeFraction : Bool
  exponentMark : String
  tie : Tie

namespace Notation

def place (n : Notation) (digits : List Char) (point : Int) : List Char :=
  if point ≤ 0 then
    '0' :: '.' :: List.replicate (-point).toNat '0' ++ digits
  else if digits.length ≤ point.toNat then
    digits ++ List.replicate (point.toNat - digits.length) '0' ++
      (if n.wholeFraction then ['.', '0'] else [])
  else
    digits.take point.toNat ++ '.' :: digits.drop point.toNat

def scientific (n : Notation) (digits : List Char) (exponent : Int) : List Char :=
  let fraction := match digits.drop 1 with
    | [] => []
    | rest => '.' :: rest
  let mark := if exponent < 0 then ['e', '-'] else n.exponentMark.toList
  digits.take 1 ++ fraction ++ mark ++ Nat.toDigits 10 exponent.natAbs

def layout (n : Notation) (count : Nat) (power : Int) : List Char :=
  let digits := Nat.toDigits 10 count
  let exponent := power + digits.length - 1
  if n.positional exponent then n.place digits (exponent + 1) else n.scientific digits exponent

def write (n : Notation) (x : Float) : String :=
  if x.isNaN then "NaN"
  else
    let sign := if isNegative x then "-" else ""
    let m := magnitude x
    if x.isInf then sign ++ "inf"
    else if m.significand = 0 then sign ++ (if n.wholeFraction then "0.0" else "0")
    else
      let (count, power) := shortest n.tie m
      sign ++ String.ofList (n.layout count power)

def plain : Notation where
  positional _ := true
  wholeFraction := false
  exponentMark := "e"
  tie := .up

def tagged : Notation where
  positional exponent := -4 ≤ exponent && exponent < 16
  wholeFraction := true
  exponentMark := "e"
  tie := .up

end Notation

end GraphQuery.Decimal
