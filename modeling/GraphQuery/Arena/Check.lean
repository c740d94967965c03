import GraphQuery.Arena.Basic

namespace GraphQuery.Arena

def owner? (a : Arena) : Node → Option (Option Owner)
  | .instruction id => (a.instruction? id).map (·.owner)
  | .term id => (a.term? id).map (·.owner)

def listed (a : Arena) : Node → List (Owner × Node)
  | .instruction id =>
    match a.instruction? id with
    | some ⟨.step _ arguments, _⟩ => arguments.map (fun t => (.instruction id, .term t))
    | some ⟨.statement t, _⟩ => [(.instruction id, .term t)]
    | some ⟨.closure _ _ body _, _⟩ => body.map (fun i => (.container (.closure id), .instruction i))
    | none => []
  | .term id =>
    match a.term? id with
    | some ⟨node, _⟩ => node.operands.map (fun t => (.term id, .term t))
    | none => []

def rootListed (a : Arena) : List (Owner × Node) :=
  a.root.map (fun i => (.container .script, .instruction i))

def nodes (a : Arena) : List Node :=
  (List.range a.instructions.size).map (fun i => .instruction ⟨i⟩) ++
    (List.range a.terms.size).map (fun i => .term ⟨i⟩)

def checkFrom (a : Arena) (unseen : List Node) : List (Owner × Node) → Except Error Unit
  | [] => .ok ()
  | (parent, node) :: stack =>
    match a.owner? node with
    | none => .error (.unknown node)
    | some recorded =>
      -- a node that is met is seen from then on, so that the walk ends
      if _ : node ∈ unseen then
        if recorded = some parent then checkFrom a (unseen.erase node) (a.listed node ++ stack)
        else .error (.wrongOwner node parent recorded)
      else .error (.reachedTwice node)
termination_by unseen.length
decreasing_by
  have h : node ∈ unseen := by assumption
  rw [List.length_erase_of_mem h]
  have := List.length_pos_of_mem h
  omega

def checkTree (a : Arena) : Except Error Unit :=
  checkFrom a a.nodes a.rootListed

end GraphQuery.Arena
