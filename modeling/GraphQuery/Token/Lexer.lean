import GraphQuery.Token.Basic

namespace GraphQuery

namespace Token

def isBlank (c : Char) : Bool :=
  c == ' ' || c == '\t' || c == '\r' || c == '\n' || c == '\x0c'

inductive Lexeme where
  | skipped
  | token (token : Token)
  | invalid
deriving Repr

structure Piece where
  lexeme : Lexeme
  more : Nat
deriving Repr

def digitsValue (digits : List Char) : Nat :=
  digits.foldl (fun n c => 10 * n + (c.toNat - '0'.toNat)) 0

def exponentSign : List Char → Bool × Nat × List Char
  | '+' :: cs => (false, 1, cs)
  | '-' :: cs => (true, 1, cs)
  | cs => (false, 0, cs)

def exponentPart : List Char → Int × Nat
  | c :: cs =>
    if c == 'e' || c == 'E' then
      let (negative, signLength, rest) := exponentSign cs
      let digits := rest.takeWhile Char.isDigit
      if digits.isEmpty then (0, 0)
      else
        let value : Int := digitsValue digits
        (if negative then -value else value, 1 + signLength + digits.length)
    else (0, 0)
  | [] => (0, 0)

def number (c : Char) (cs : List Char) : Piece :=
  let whole := cs.takeWhile Char.isDigit
  match cs.dropWhile Char.isDigit with
  | '.' :: rest =>
    let fraction := rest.takeWhile Char.isDigit
    if fraction.isEmpty then integerPiece c whole
    else
      let (exponent, exponentLength) := exponentPart (rest.dropWhile Char.isDigit)
      let value := Decimal.ofDigits (digitsValue (c :: whole ++ fraction)) (exponent - fraction.length)
      ⟨.token (.real value), whole.length + 1 + fraction.length + exponentLength⟩
  | _ => integerPiece c whole
where
  integerPiece (c : Char) (whole : List Char) : Piece :=
    let value := digitsValue (c :: whole)
    ⟨if value < Nat.pow 2 63 then .token (.integer (Int64.ofNat value)) else .invalid, whole.length⟩

def quotedLength (quote : Char) : List Char → Nat × Bool
  | [] => (0, false)
  | ['\\'] => (0, false)
  | '\\' :: c :: cs =>
    -- the character after a backslash may be any but a line feed
    if c == '\n' then (0, false)
    else
      let (length, closed) := quotedLength quote cs
      (length + 2, closed)
  | c :: cs =>
    if c == quote then (0, true)
    else
      let (length, closed) := quotedLength quote cs
      (length + 1, closed)

def unescape : List Char → List Char
  | [] => []
  | ['\\'] => ['\\']
  | '\\' :: c :: cs =>
    let plain := match c with
      | 'n' => '\n'
      | 't' => '\t'
      | 'r' => '\r'
      | c => c
    plain :: unescape cs
  | c :: cs => c :: unescape cs

def quotedString (quote : Char) (cs : List Char) : Piece :=
  let (length, closed) := quotedLength quote cs
  if closed then ⟨.token (.string (String.ofList (unescape (cs.take length)))), length + 1⟩
  else ⟨.invalid, length⟩

def symbol? (c : Char) (cs : List Char) : Option (Mark × Nat) :=
  match c, cs with
  | '-', '>' :: _ => some (.arrow, 1)
  | '<', '>' :: _ => some (.notEquals, 1)
  | '<', '=' :: _ => some (.lessEquals, 1)
  | '>', '=' :: _ => some (.greaterEquals, 1)
  | '(', _ => some (.leftParen, 0)
  | ')', _ => some (.rightParen, 0)
  | '\x7b', _ => some (.leftBrace, 0)
  | '\x7d', _ => some (.rightBrace, 0)
  | ',', _ => some (.comma, 0)
  | '.', _ => some (.dot, 0)
  | '|', _ => some (.pipe, 0)
  | '!', _ => some (.bang, 0)
  | ':', _ => some (.colon, 0)
  | '=', _ => some (.equals, 0)
  | '<', _ => some (.less, 0)
  | '>', _ => some (.greater, 0)
  | '+', _ => some (.plus, 0)
  | '-', _ => some (.minus, 0)
  | '*', _ => some (.star, 0)
  | '/', _ => some (.slash, 0)
  | _, _ => none

def piece (c : Char) (cs : List Char) : Piece :=
  if isBlank c then ⟨.skipped, 0⟩
  else if c == '-' && cs.head? == some '-' then ⟨.skipped, (cs.takeWhile (· != '\n')).length⟩
  else if c.isDigit then number c cs
  else if c == '"' || c == '\'' then quotedString c cs
  else if isWordStart c then
    let word := cs.takeWhile isWordPart
    ⟨.token (ofWord (String.ofList (c :: word))), word.length⟩
  else
    match symbol? c cs with
    | some (m, more) => ⟨.token (.mark m), more⟩
    | none => ⟨.invalid, 0⟩

structure Unreadable where
  text : String
  span : Span
deriving Repr

def scan (offset : Nat) : List Char → Except Unreadable (List Located)
  | [] => .ok []
  | c :: cs =>
    let p := piece c cs
    let taken := c :: cs.take p.more
    let stop := offset + byteLength taken
    match p.lexeme with
    | .skipped => scan stop (cs.drop p.more)
    | .token token =>
      match scan stop (cs.drop p.more) with
      | .ok tokens => .ok (⟨token, ⟨offset, stop⟩⟩ :: tokens)
      | .error e => .error e
    | .invalid => .error ⟨String.ofList taken, ⟨offset, stop⟩⟩
termination_by cs => cs.length
decreasing_by all_goals simp only [List.length_drop, List.length_cons]; omega

def tokenize (text : String) : Except Unreadable (List Located) :=
  scan 0 text.toList

end Token

end GraphQuery
