namespace GraphQuery.Bytes

def ofNat : (width : Nat) → Nat → List UInt8
  | 0, _ => []
  | width + 1, n => UInt8.ofNat n :: ofNat width (n / 256)

def toNat : List UInt8 → Nat
  | [] => 0
  | b :: bs => b.toNat + 256 * toNat bs

def ofText (s : String) : List UInt8 :=
  ofNat 8 s.utf8ByteSize ++ s.toUTF8.toList

def ofBool (b : Bool) : List UInt8 :=
  [if b then 1 else 0]

abbrev Reader (α : Type) := List UInt8 → Option (α × List UInt8)

def take (count : Nat) : Reader (List UInt8) := fun bs =>
  if count ≤ bs.length then some (bs.take count, bs.drop count) else none

def nat (width : Nat) : Reader Nat := fun bs => do
  let (taken, rest) ← take width bs
  some (toNat taken, rest)

def text : Reader String := fun bs => do
  let (length, rest) ← nat 8 bs
  let (taken, rest) ← take length rest
  let s ← String.fromUTF8? ⟨taken.toArray⟩
  some (s, rest)

def bool : Reader Bool
  | 0 :: rest => some (false, rest)
  | 1 :: rest => some (true, rest)
  | _ => none

def many {α : Type} (read : Reader α) : Nat → Reader (List α)
  | 0, bs => some ([], bs)
  | count + 1, bs => do
    let (a, rest) ← read bs
    let (as, rest) ← many read count rest
    some (a :: as, rest)

def sequence {α : Type} (read : Reader α) : Reader (List α) := fun bs => do
  let (count, rest) ← nat 8 bs
  many read count rest

def option {α : Type} (read : Reader α) : Reader (Option α) := fun bs => do
  let (present, rest) ← bool bs
  if present then
    let (a, rest) ← read rest
    some (some a, rest)
  else some (none, rest)

end GraphQuery.Bytes
