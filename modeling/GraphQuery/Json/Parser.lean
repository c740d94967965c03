import GraphQuery.Json.Basic

namespace GraphQuery.Json.Parser

abbrev Shorter (cs : List Char) := { rest : List Char // rest.length < cs.length }

abbrev NoLonger (cs : List Char) := { rest : List Char // rest.length ≤ cs.length }

def isBlank (c : Char) : Bool :=
  c == ' ' || c == '\n' || c == '\t' || c == '\r'

theorem length_dropWhile_le {α : Type} (p : α → Bool) (xs : List α) :
    (xs.dropWhile p).length ≤ xs.length := by
  induction xs with
  | nil => simp
  | cons x xs ih =>
    simp only [List.dropWhile]
    split
    · exact Nat.le_succ_of_le ih
    · exact Nat.le_refl _

def skipBlanks (cs : List Char) : NoLonger cs :=
  ⟨cs.dropWhile isBlank, length_dropWhile_le _ _⟩

def hexValue? (c : Char) : Option Nat :=
  if '0' ≤ c ∧ c ≤ '9' then some (c.toNat - '0'.toNat)
  else if 'a' ≤ c ∧ c ≤ 'f' then some (c.toNat - 'a'.toNat + 10)
  else if 'A' ≤ c ∧ c ≤ 'F' then some (c.toNat - 'A'.toNat + 10)
  else none

def isHex (c : Char) : Bool :=
  (hexValue? c).isSome

def stringBody : (cs : List Char) → Option (List Char × Shorter cs)
  | [] => none
  | '"' :: rest => some ([], ⟨rest, by simp⟩)
  | '\\' :: 'u' :: a :: b :: c :: d :: rest =>
    if isHex a && isHex b && isHex c && isHex d then do
      let (body, ⟨r, h⟩) ← stringBody rest
      some ('\\' :: 'u' :: a :: b :: c :: d :: body, ⟨r, by simp only [List.length_cons]; omega⟩)
    else none
  | '\\' :: c :: rest =>
    if ['"', '\\', '/', 'b', 'f', 'n', 'r', 't'].contains c then do
      let (body, ⟨r, h⟩) ← stringBody rest
      some ('\\' :: c :: body, ⟨r, by simp only [List.length_cons]; omega⟩)
    else none
  | c :: rest =>
    if c == '\\' || c.toNat < 32 then none
    else do
      let (body, ⟨r, h⟩) ← stringBody rest
      some (c :: body, ⟨r, by simp only [List.length_cons]; omega⟩)

def digits (cs : List Char) : Option (List Char × Shorter cs) :=
  match cs with
  | [] => none
  | c :: rest =>
    if c.isDigit then
      some (c :: rest.takeWhile Char.isDigit,
        ⟨rest.dropWhile Char.isDigit, Nat.lt_succ_of_le (length_dropWhile_le _ _)⟩)
    else none

def wholePart (cs : List Char) : Option (List Char × Shorter cs) :=
  match cs with
  | '0' :: rest =>
    if rest.head?.any Char.isDigit then none else some (['0'], ⟨rest, by simp⟩)
  | cs => digits cs

def fractionPart (cs : List Char) : Option (List Char × NoLonger cs) :=
  match cs with
  | '.' :: rest => do
    let (ds, ⟨r, h⟩) ← digits rest
    some ('.' :: ds, ⟨r, Nat.le_succ_of_le (Nat.le_of_lt h)⟩)
  | cs => some ([], ⟨cs, Nat.le_refl _⟩)

def signPart (cs : List Char) : List Char × NoLonger cs :=
  match cs with
  | '+' :: rest => (['+'], ⟨rest, Nat.le_succ _⟩)
  | '-' :: rest => (['-'], ⟨rest, Nat.le_succ _⟩)
  | cs => ([], ⟨cs, Nat.le_refl _⟩)

def exponentPart (cs : List Char) : Option (List Char × NoLonger cs) :=
  match cs with
  | [] => some ([], ⟨[], Nat.le_refl _⟩)
  | c :: rest =>
    if c == 'e' || c == 'E' then do
      let (sign, ⟨r₁, h₁⟩) := signPart rest
      let (ds, ⟨r₂, h₂⟩) ← digits r₁
      some (c :: sign ++ ds, ⟨r₂, by simp only [List.length_cons]; omega⟩)
    else some ([], ⟨c :: rest, Nat.le_refl _⟩)

def unsigned (cs : List Char) : Option (List Char × Shorter cs) := do
  let (whole, ⟨r₁, h₁⟩) ← wholePart cs
  let (fraction, ⟨r₂, h₂⟩) ← fractionPart r₁
  let (exponent, ⟨r₃, h₃⟩) ← exponentPart r₂
  some (whole ++ fraction ++ exponent, ⟨r₃, by omega⟩)

def number (cs : List Char) : Option (List Char × Shorter cs) :=
  match cs with
  | '-' :: rest => do
    let (text, ⟨r, h⟩) ← unsigned rest
    some ('-' :: text, ⟨r, by simp only [List.length_cons]; omega⟩)
  | cs => unsigned cs

def after? (c : Char) : (cs : List Char) → Option (Shorter cs)
  | [] => none
  | d :: rest => if d = c then some ⟨rest, Nat.lt_succ_self _⟩ else none

mutual
def value (cs : List Char) : Option (Json × Shorter cs) :=
  match cs with
  | '"' :: rest => do
    let (body, ⟨r, h⟩) ← stringBody rest
    some (.string (String.ofList body), ⟨r, by simp only [List.length_cons]; omega⟩)
  | '[' :: rest => do
    let ⟨r₁, h₁⟩ := skipBlanks rest
    match after? ']' r₁ with
    | some ⟨r₂, h₂⟩ => some (.array [], ⟨r₂, by simp only [List.length_cons]; omega⟩)
    | none =>
      let (js, ⟨r₂, h₂⟩) ← items r₁
      some (.array js, ⟨r₂, by simp only [List.length_cons]; omega⟩)
  | '\x7b' :: rest => do
    let ⟨r₁, h₁⟩ := skipBlanks rest
    match after? '\x7d' r₁ with
    | some ⟨r₂, h₂⟩ => some (.object [], ⟨r₂, by simp only [List.length_cons]; omega⟩)
    | none =>
      let (ms, ⟨r₂, h₂⟩) ← members r₁
      some (.object ms, ⟨r₂, by simp only [List.length_cons]; omega⟩)
  | 'n' :: 'u' :: 'l' :: 'l' :: rest => some (.null, ⟨rest, by simp only [List.length_cons]; omega⟩)
  | 't' :: 'r' :: 'u' :: 'e' :: rest => some (.boolean true, ⟨rest, by simp only [List.length_cons]; omega⟩)
  | 'f' :: 'a' :: 'l' :: 's' :: 'e' :: rest =>
    some (.boolean false, ⟨rest, by simp only [List.length_cons]; omega⟩)
  | cs => do
    let (text, rest) ← number cs
    some (.number (String.ofList text), rest)
termination_by (cs.length, 0)
decreasing_by all_goals simp only [List.length_cons]; omega

def items (cs : List Char) : Option (List Json × Shorter cs) := do
  let (j, ⟨r₁, h₁⟩) ← value cs
  let ⟨r₂, h₂⟩ := skipBlanks r₁
  match after? ',' r₂ with
  | some ⟨r₃, h₃⟩ =>
    let ⟨r₄, h₄⟩ := skipBlanks r₃
    let (js, ⟨r₅, h₅⟩) ← items r₄
    some (j :: js, ⟨r₅, by omega⟩)
  | none =>
    let ⟨r₃, h₃⟩ ← after? ']' r₂
    some ([j], ⟨r₃, by omega⟩)
termination_by (cs.length, 1)
decreasing_by all_goals omega

def members (cs : List Char) : Option (List (String × Json) × Shorter cs) := do
  let ⟨r₀, h₀⟩ ← after? '"' cs
  let (key, ⟨r₁, h₁⟩) ← stringBody r₀
  let ⟨r₂, h₂⟩ := skipBlanks r₁
  let ⟨r₃, h₃⟩ ← after? ':' r₂
  let ⟨r₄, h₄⟩ := skipBlanks r₃
  let (j, ⟨r₅, h₅⟩) ← value r₄
  let ⟨r₆, h₆⟩ := skipBlanks r₅
  match after? ',' r₆ with
  | some ⟨r₇, h₇⟩ =>
    let ⟨r₈, h₈⟩ := skipBlanks r₇
    let (ms, ⟨r₉, h₉⟩) ← members r₈
    some ((String.ofList key, j) :: ms, ⟨r₉, by omega⟩)
  | none =>
    let ⟨r₇, h₇⟩ ← after? '\x7d' r₆
    some ([(String.ofList key, j)], ⟨r₇, by omega⟩)
termination_by (cs.length, 1)
decreasing_by all_goals omega
end

end GraphQuery.Json.Parser

namespace GraphQuery

def Json.parse? (text : String) : Option Json := do
  let (j, rest) ← Json.Parser.value (Json.Parser.skipBlanks text.toList).val
  if (Json.Parser.skipBlanks rest.val).val.isEmpty then some j else none

end GraphQuery
