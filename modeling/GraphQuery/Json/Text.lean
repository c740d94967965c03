import GraphQuery.Json.Parser

namespace GraphQuery.Json

def escapeChar (c : Char) : List Char :=
  match c with
  | '"' => ['\\', '"']
  | '\\' => ['\\', '\\']
  | '\x08' => ['\\', 'b']
  | '\x0c' => ['\\', 'f']
  | '\n' => ['\\', 'n']
  | '\r' => ['\\', 'r']
  | '\t' => ['\\', 't']
  | c =>
    if c.toNat < 32 then
      ['\\', 'u', '0', '0', Nat.digitChar (c.toNat / 16), Nat.digitChar (c.toNat % 16)]
    else [c]

def ofText (s : String) : Json :=
  .string (String.ofList (s.toList.flatMap escapeChar))

def keyOf (s : String) : String :=
  String.ofList (s.toList.flatMap escapeChar)

def unit? (a b c d : Char) : Option Nat := do
  let a ← Parser.hexValue? a
  let b ← Parser.hexValue? b
  let c ← Parser.hexValue? c
  let d ← Parser.hexValue? d
  some (((a * 16 + b) * 16 + c) * 16 + d)

def isHighUnit (u : Nat) : Bool := 0xD800 ≤ u && u ≤ 0xDBFF

def isLowUnit (u : Nat) : Bool := 0xDC00 ≤ u && u ≤ 0xDFFF

/-- The text that stands between the quotes. A character beyond the 16-bit range is escaped as a pair of
units, of which neither may stand alone. -/
def unescape? : List Char → Option (List Char)
  | [] => some []
  | '\\' :: 'u' :: a :: b :: c :: d :: '\\' :: 'u' :: e :: f :: g :: h :: rest => do
    let first ← unit? a b c d
    if isHighUnit first then
      let second ← unit? e f g h
      if isLowUnit second then
        let code := 0x10000 + (first - 0xD800) * 0x400 + (second - 0xDC00)
        (unescape? rest).map (Char.ofNat code :: ·)
      else none
    else if isLowUnit first then none
    else (unescape? ('\\' :: 'u' :: e :: f :: g :: h :: rest)).map (Char.ofNat first :: ·)
  | '\\' :: 'u' :: a :: b :: c :: d :: rest => do
    let only ← unit? a b c d
    if isHighUnit only || isLowUnit only then none
    else (unescape? rest).map (Char.ofNat only :: ·)
  | '\\' :: c :: rest =>
    let plain := match c with
      | 'b' => '\x08'
      | 'f' => '\x0c'
      | 'n' => '\n'
      | 'r' => '\r'
      | 't' => '\t'
      | c => c
    (unescape? rest).map (plain :: ·)
  | c :: rest => (unescape? rest).map (c :: ·)

def decodeText? (lexeme : String) : Option String :=
  (unescape? lexeme.toList).map String.ofList

def text? : Json → Option String
  | string lexeme => decodeText? lexeme
  | _ => none

end GraphQuery.Json
