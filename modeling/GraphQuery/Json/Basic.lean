namespace GraphQuery

inductive Json where
  | null
  | boolean (value : Bool)
  | number (lexeme : String)
  | string (lexeme : String)
  | array (items : List Json)
  | object (members : List (String × Json))
deriving Repr, Inhabited

namespace Json

mutual
def compact : Json → String
  | null => "null"
  | boolean b => if b then "true" else "false"
  | number lexeme => lexeme
  | string lexeme => "\"" ++ lexeme ++ "\""
  | array items => "[" ++ compactItems items ++ "]"
  | object members => "\x7b" ++ compactMembers members ++ "\x7d"

def compactItems : List Json → String
  | [] => ""
  | [j] => j.compact
  | j :: js => j.compact ++ "," ++ compactItems js

def compactMembers : List (String × Json) → String
  | [] => ""
  | [(key, j)] => "\"" ++ key ++ "\":" ++ j.compact
  | (key, j) :: rest => "\"" ++ key ++ "\":" ++ j.compact ++ "," ++ compactMembers rest
end

def newLine (depth : Nat) : String :=
  String.ofList ('\n' :: List.replicate (2 * depth) ' ')

mutual
def indented (depth : Nat) : Json → String
  | null => "null"
  | boolean b => if b then "true" else "false"
  | number lexeme => lexeme
  | string lexeme => "\"" ++ lexeme ++ "\""
  | array [] => "[]"
  | array (j :: js) => "[" ++ indentedItems (depth + 1) (j :: js) ++ newLine depth ++ "]"
  | object [] => "\x7b\x7d"
  | object (m :: ms) => "\x7b" ++ indentedMembers (depth + 1) (m :: ms) ++ newLine depth ++ "\x7d"

def indentedItems (depth : Nat) : List Json → String
  | [] => ""
  | [j] => newLine depth ++ j.indented depth
  | j :: js => newLine depth ++ j.indented depth ++ "," ++ indentedItems depth js

def indentedMembers (depth : Nat) : List (String × Json) → String
  | [] => ""
  | [(key, j)] => newLine depth ++ "\"" ++ key ++ "\": " ++ j.indented depth
  | (key, j) :: rest =>
    newLine depth ++ "\"" ++ key ++ "\": " ++ j.indented depth ++ "," ++ indentedMembers depth rest
end

end Json

end GraphQuery
