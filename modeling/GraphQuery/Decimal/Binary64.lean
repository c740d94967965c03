namespace GraphQuery.Decimal

structure Magnitude where
  significand : Nat
  unit : Nat
deriving Repr, DecidableEq

def magnitude (x : Float) : Magnitude :=
  let word := x.toBits.toNat
  let fraction := word % Nat.pow 2 52
  let exponent := word / Nat.pow 2 52 % Nat.pow 2 11
  ⟨if exponent = 0 then fraction else fraction + Nat.pow 2 52, exponent - 1⟩

def isNegative (x : Float) : Bool :=
  Nat.pow 2 63 ≤ x.toBits.toNat

namespace Magnitude

def quadruple (m : Magnitude) : Nat :=
  4 * m.significand * Nat.pow 2 m.unit

def lower (m : Magnitude) : Nat :=
  -- below a power of two the neighbour is half as far away
  m.quadruple - (if m.significand = Nat.pow 2 52 ∧ 0 < m.unit then 1 else 2) * Nat.pow 2 m.unit

def upper (m : Magnitude) : Nat :=
  m.quadruple + 2 * Nat.pow 2 m.unit

def scale : Nat := Nat.pow 2 1076

def Covers (m : Magnitude) (num den : Nat) : Prop :=
  if m.significand % 2 = 0 then m.lower * den ≤ num * scale ∧ num * scale ≤ m.upper * den
  else m.lower * den < num * scale ∧ num * scale < m.upper * den

instance (m : Magnitude) (num den : Nat) : Decidable (m.Covers num den) := by
  unfold Covers
  infer_instance

end Magnitude

def roundEven (num den : Nat) : Nat :=
  let quotient := num / den
  let rest := num % den
  if 2 * rest < den then quotient
  else if den < 2 * rest then quotient + 1
  else quotient + quotient % 2

def infinityBits : Nat := 2047 * Nat.pow 2 52

def nearestBits (num den : Nat) : Nat :=
  let scaled := num * Nat.pow 2 1074
  let unit := (scaled / den).log2 - 52
  -- a significand that rounds up to 2 ^ 53 carries into the exponent field, as the patterns are consecutive
  min (unit * Nat.pow 2 52 + roundEven scaled (den * Nat.pow 2 unit)) infinityBits

def nearest (num den : Nat) : Float :=
  Float.ofBits (UInt64.ofNat (nearestBits num den))

def ofDigits (digits : Nat) (exponent : Int) : Float :=
  -- far outside the range of doubles the size of the number decides alone
  if digits = 0 then nearest 0 1
  else if 400 < exponent then Float.ofBits (UInt64.ofNat infinityBits)
  else if exponent + digits.log2 < -1500 then nearest 0 1
  else nearest (digits * Nat.pow 10 exponent.toNat) (Nat.pow 10 (-exponent).toNat)

end GraphQuery.Decimal
