import GraphQuery.Json.Number
import GraphQuery.Json.Text

namespace GraphQuery.Json

def maxNesting : Nat := 127

def membersNamed (name : String) (members : List (String × Json)) : List Json :=
  (members.filter (·.1 == name)).map (·.2)

def member? (members : List (String × Json)) (name : String) : Option (Option Json) :=
  match membersNamed name members with
  | [] => some none
  | [j] => some (some j)
  | _ => none

def textMembers? (members : List (String × Json)) : Option (List (String × Json)) :=
  members.mapM (fun (key, j) => (decodeText? key).map (fun k => (k, j)))

def fields? (lenient : Bool) (names : List String) : Json → Option (List (Option Json))
  | object members => do
    let members ← textMembers? members
    names.mapM (member? members)
  | array items =>
    -- only the last fields may be missing
    if items.length = names.length ∨ (lenient ∧ items.length ≤ names.length) then
      some (items.map some ++ List.replicate (names.length - items.length) none)
    else none
  | _ => none

def optional? {α : Type} (read : Json → Option α) : Option Json → Option (Option α)
  | none => some none
  | some null => some none
  | some j => (read j).map some

def withDefault? {α : Type} (default : α) (read : Json → Option α) : Option Json → Option α
  | none => some default
  | some j => read j

def name? : Nat → Json → Option String
  | _, string lexeme => decodeText? lexeme
  | _ + 1, object [(key, null)] => decodeText? key
  | _, _ => none

end GraphQuery.Json
