import GraphQuery.Decimal.Binary64

/-!
The fewest decimal digits that read back as a given double.

The coarsest power of ten with a multiple in the rounding interval fixes the number of digits; of two
multiples in the interval the nearer one is taken.
-/

namespace GraphQuery.Decimal

inductive Tie where
  | up
  | even
deriving Repr, DecidableEq

def gridPoint (count : Nat) (power : Int) : Nat × Nat :=
  (count * Nat.pow 10 power.toNat, Nat.pow 10 (-power).toNat)

def onGrid? (tie : Tie) (m : Magnitude) (power : Int) : Option Nat :=
  let num := m.quadruple * Nat.pow 10 (-power).toNat
  let den := Magnitude.scale * Nat.pow 10 power.toNat
  let below := num / den
  let rest := num % den
  let covers (count : Nat) := decide (m.Covers (gridPoint count power).1 (gridPoint count power).2)
  let preferAbove := if 2 * rest = den then tie = .up ∨ below % 2 = 1 else den < 2 * rest
  match covers below, covers (below + 1) with
  | true, true => some (if preferAbove then below + 1 else below)
  | true, false => some below
  | false, true => some (below + 1)
  | false, false => none

def powers : List Int :=
  -- 10 ^ -324 is less than the distance of two doubles, so that every interval has a multiple of it
  (List.range 633).map (fun (i : Nat) => 308 - (i : Int))

def shortest (tie : Tie) (m : Magnitude) : Nat × Int :=
  (powers.findSome? (fun power => (onGrid? tie m power).map (fun count => (count, power)))).getD (0, 0)

end GraphQuery.Decimal
