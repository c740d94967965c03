import GraphQuery.Proofs.Loop
import GraphQuery.Script.Walk
import Mathlib

/-!
The walk is the pre-order of the script: each node, then all below it from the first to the last. It is found with one
stack, onto which what is below a node is pushed from the last to the first.
-/

namespace GraphQuery

open Script (Node)

namespace Term

mutual
def preorder : Term → List Node
  | literal value => [.term (literal value)]
  | var name => [.term (var name)]
  | property target name => .term (property target name) :: target.preorder
  | list items => .term (list items) :: preorders items
  | unary op operand => .term (unary op operand) :: operand.preorder
  | binary op left right => .term (binary op left right) :: (left.preorder ++ right.preorder)

def preorders : List Term → List Node
  | [] => []
  | t :: ts => t.preorder ++ preorders ts
end

end Term

namespace Instruction

mutual
def preorder : Instruction → List Node
  | step name arguments => .instruction (step name arguments) :: Term.preorders arguments
  | closure name parameter body => .instruction (closure name parameter body) :: preorders body
  | statement term => .instruction (statement term) :: term.preorder

def preorders : List Instruction → List Node
  | [] => []
  | i :: is => i.preorder ++ preorders is
end

end Instruction

namespace Script

def preorder (s : Script) : List Node :=
  Instruction.preorders s.instructions

def roots (s : Script) : List Node :=
  s.instructions.map .instruction

section Walking

theorem walkFrom_nil : walkFrom [] = [] := by
  rw [walkFrom]

theorem walkFrom_append (stack rest : List Node) : walkFrom (stack ++ rest) = walkFrom stack ++ walkFrom rest := by
  induction stack using walkFrom.induct with
  | case1 => rw [walkFrom_nil, List.nil_append, List.nil_append]
  | case2 n stack ih => rw [List.cons_append, walkFrom, ← List.append_assoc, ih, walkFrom, List.cons_append]

theorem walkFrom_singleton (n : Node) : walkFrom [n] = n :: walkFrom n.below := by
  rw [walkFrom, List.append_nil]

theorem walkFrom_cons (n : Node) (rest : List Node) : walkFrom (n :: rest) = walkFrom [n] ++ walkFrom rest :=
  walkFrom_append [n] rest

theorem length_walkFrom (stack : List Node) : (walkFrom stack).length = Node.nodeCounts stack := by
  induction stack using walkFrom.induct with
  | case1 => rw [walkFrom_nil, Node.nodeCounts, List.length_nil]
  | case2 n stack ih =>
    rw [walkFrom, List.length_cons, ih, Node.nodeCounts_append, Node.nodeCounts_cons, Node.nodeCount_eq n]
    omega

mutual
theorem walkFrom_term : (t : Term) → walkFrom [.term t] = t.preorder
  | .literal value => by
    rw [walkFrom_singleton]
    exact congrArg _ walkFrom_nil
  | .var name => by
    rw [walkFrom_singleton]
    exact congrArg _ walkFrom_nil
  | .property target name => by
    rw [walkFrom_singleton]
    exact congrArg _ (walkFrom_term target)
  | .list items => by
    rw [walkFrom_singleton]
    exact congrArg _ (walkFrom_terms items)
  | .unary op operand => by
    rw [walkFrom_singleton]
    exact congrArg _ (walkFrom_term operand)
  | .binary op left right => by
    rw [walkFrom_singleton, Term.preorder, ← walkFrom_term left, ← walkFrom_term right]
    exact congrArg _ (walkFrom_cons (.term left) [.term right])

theorem walkFrom_terms : (ts : List Term) → walkFrom (ts.map .term) = Term.preorders ts
  | [] => walkFrom_nil
  | t :: ts => by
    rw [List.map_cons, walkFrom_cons, walkFrom_term t, walkFrom_terms ts, Term.preorders]
end

mutual
theorem walkFrom_instruction : (i : Instruction) → walkFrom [.instruction i] = i.preorder
  | .step name arguments => by
    have hbelow : Node.below (.instruction (.step name arguments)) = arguments.map Node.term := List.append_nil _
    rw [walkFrom_singleton, hbelow, walkFrom_terms arguments, Instruction.preorder]
  | .closure name parameter body => by
    rw [walkFrom_singleton]
    exact congrArg _ (walkFrom_instructions body)
  | .statement term => by
    rw [walkFrom_singleton]
    exact congrArg _ (walkFrom_term term)

theorem walkFrom_instructions : (is : List Instruction) → walkFrom (is.map .instruction) = Instruction.preorders is
  | [] => walkFrom_nil
  | i :: is => by
    rw [List.map_cons, walkFrom_cons, walkFrom_instruction i, walkFrom_instructions is, Instruction.preorders]
end

end Walking

section Stack

structure Visiting where
  visited : List Node
  stack : Array Node

def Node.pushBelow (stack : Array Node) : Node → Array Node
  | .instruction i =>
    let withBody := i.children.reverse.foldl (fun stack child => stack.push (.instruction child)) stack
    i.terms.reverse.foldl (fun stack t => stack.push (.term t)) withBody
  | .term t => t.operands.reverse.foldl (fun stack u => stack.push (.term u)) stack

def visitTop (v : Visiting) : Visiting ⊕ List Node :=
  match v.stack.back? with
  | some n => .inl ⟨v.visited ++ [n], n.pushBelow v.stack.pop⟩
  | none => .inr v.visited

def visitingRoots (s : Script) : Visiting :=
  ⟨[], (s.instructions.reverse.map Node.instruction).toArray⟩

theorem reverse_pushBelow (stack : Array Node) (n : Node) :
    (n.pushBelow stack).toList.reverse = n.below ++ stack.toList.reverse := by
  cases n with
  | instruction i => simp [Node.pushBelow, Node.below]
  | term t => simp [Node.pushBelow, Node.below]

theorem visitTop_eq_inl {v : Visiting} {n : Node} {rest : List Node} (h : v.stack.toList.reverse = n :: rest) :
    ∃ stack, visitTop v = .inl ⟨v.visited ++ [n], stack⟩ ∧ stack.toList.reverse = n.below ++ rest := by
  refine ⟨n.pushBelow v.stack.pop, ?_, ?_⟩
  · rw [visitTop, back?_of_reverse h]
  · rw [reverse_pushBelow, reverse_pop h]

theorem endsAfter_visitTop (todo : List Node) : ∀ v : Visiting, v.stack.toList.reverse = todo →
    EndsAfter visitTop (Node.nodeCounts todo) v (v.visited ++ walkFrom todo) := by
  -- the stack from its top on is what is still to be walked, whatever has been visited
  induction todo using walkFrom.induct with
  | case1 =>
    rintro ⟨visited, stack⟩ hstack
    obtain rfl : stack = #[] := by simpa using hstack
    rw [walkFrom_nil, List.append_nil]
    exact .stop rfl
  | case2 n rest ih =>
    intro v hstack
    obtain ⟨stack, hround, hrest⟩ := visitTop_eq_inl hstack
    have hends := ih ⟨v.visited ++ [n], stack⟩ hrest
    rw [List.append_assoc, List.singleton_append, Node.nodeCounts_append] at hends
    rw [walkFrom, Node.nodeCounts_cons, Node.nodeCount_eq, Nat.add_assoc, Nat.add_comm]
    exact .again hround hends

end Stack

section Places

def Node.at? : Node → List Nat → Option Node
  | n, [] => some n
  | n, k :: place => n.below[k]?.bind fun m => m.at? place

def nodeAt? (nodes : List Node) : List Nat → Option Node
  | [] => none
  | k :: place => nodes[k]?.bind fun n => n.at? place

structure Enumerated (nodes : List Node) (places : List (List Nat)) : Prop where
  increasing : places.Pairwise (· < ·)
  complete : ∀ place, place ∈ places ↔ (nodeAt? nodes place).isSome
  walked : places.map (nodeAt? nodes) = (walkFrom nodes).map some

theorem at?_eq_nodeAt? (n : Node) {place : List Nat} (h : place ≠ []) : n.at? place = nodeAt? n.below place := by
  cases place with
  | nil => exact absurd rfl h
  | cons k place => rfl

variable {nodes : List Node} {places below : List (List Nat)} {n : Node}

theorem nodeAt?_concat_of_lt {k : Nat} (hk : k < nodes.length) (place : List Nat) :
    nodeAt? (nodes ++ [n]) (k :: place) = nodeAt? nodes (k :: place) := by
  rw [nodeAt?, List.getElem?_append_left hk, nodeAt?]

theorem nodeAt?_concat_length (place : List Nat) : nodeAt? (nodes ++ [n]) (nodes.length :: place) = n.at? place := by
  rw [nodeAt?, List.getElem?_concat_length, Option.bind_some]

namespace Enumerated

theorem nil : Enumerated [] [] := by
  refine ⟨.nil, fun place => ?_, ?_⟩
  · cases place <;> simp [nodeAt?]
  · rw [walkFrom_nil]
    rfl

theorem exists_cons (h : Enumerated nodes places) {place : List Nat} (hplace : place ∈ places) :
    ∃ k rest, place = k :: rest ∧ k < nodes.length := by
  have hsome := (h.complete place).1 hplace
  cases place with
  | nil => cases hsome
  | cons k rest =>
    obtain ⟨n, hn⟩ := Option.isSome_iff_exists.1 hsome
    obtain ⟨m, hm, -⟩ := Option.bind_eq_some_iff.1 hn
    exact ⟨k, rest, rfl, (List.getElem?_eq_some_iff.1 hm).1⟩

theorem increasing_concat (h : Enumerated nodes places) (hbelow : Enumerated n.below below) :
    (places ++ [nodes.length] :: below.map (nodes.length :: ·)).Pairwise (· < ·) := by
  refine List.pairwise_append.2 ⟨h.increasing, List.pairwise_cons.2 ⟨fun place hplace => ?_, ?_⟩, ?_⟩
  · obtain ⟨rest, hrest, rfl⟩ := List.mem_map.1 hplace
    obtain ⟨k, rest, rfl, -⟩ := hbelow.exists_cons hrest
    simp
  · rw [List.pairwise_map]
    exact hbelow.increasing.imp fun hlt => by simpa using hlt
  · intro place hplace place' hplace'
    obtain ⟨k, rest, rfl, hk⟩ := h.exists_cons hplace
    obtain ⟨rest', rfl⟩ : ∃ rest', place' = nodes.length :: rest' := by
      rcases List.mem_cons.1 hplace' with rfl | hmem
      · exact ⟨[], rfl⟩
      · obtain ⟨rest', -, rfl⟩ := List.mem_map.1 hmem
        exact ⟨rest', rfl⟩
    exact List.Lex.rel hk

theorem mem_below_iff (hbelow : Enumerated n.below below) (rest : List Nat) :
    rest = [] ∨ rest ∈ below ↔ (n.at? rest).isSome := by
  by_cases hrest : rest = []
  · simp [hrest, Node.at?]
  · rw [at?_eq_nodeAt? n hrest, ← hbelow.complete]
    simp [hrest]

theorem complete_concat (h : Enumerated nodes places) (hbelow : Enumerated n.below below) (place : List Nat) :
    place ∈ places ++ [nodes.length] :: below.map (nodes.length :: ·) ↔ (nodeAt? (nodes ++ [n]) place).isSome := by
  rw [List.mem_append, h.complete]
  cases place with
  | nil => simp [nodeAt?]
  | cons k rest =>
    rcases Nat.lt_trichotomy k nodes.length with hk | rfl | hk
    · rw [nodeAt?_concat_of_lt hk]
      simp [hk.ne, hk.ne']
    · rw [nodeAt?_concat_length, ← hbelow.mem_below_iff]
      simp [nodeAt?]
    · simp [nodeAt?, hk.ne', hk.ne, List.getElem?_eq_none, hk.le, Nat.succ_le_of_lt hk]

theorem walked_concat (h : Enumerated nodes places) (hbelow : Enumerated n.below below) :
    (places ++ [nodes.length] :: below.map (nodes.length :: ·)).map (nodeAt? (nodes ++ [n])) =
      (walkFrom (nodes ++ [n])).map some := by
  have hbefore : places.map (nodeAt? (nodes ++ [n])) = places.map (nodeAt? nodes) := by
    apply List.map_congr_left
    intro place hplace
    obtain ⟨k, rest, rfl, hk⟩ := h.exists_cons hplace
    exact nodeAt?_concat_of_lt hk rest
  have hafter : (below.map (nodes.length :: ·)).map (nodeAt? (nodes ++ [n])) = below.map (nodeAt? n.below) := by
    rw [List.map_map]
    apply List.map_congr_left
    intro rest hrest
    obtain ⟨k, rest, rfl, -⟩ := hbelow.exists_cons hrest
    exact nodeAt?_concat_length (k :: rest)
  rw [List.map_append, List.map_cons, hbefore, hafter, nodeAt?_concat_length, h.walked, hbelow.walked,
    walkFrom_append, walkFrom_singleton, List.map_append]
  rfl

theorem concat (h : Enumerated nodes places) (hbelow : Enumerated n.below below) :
    Enumerated (nodes ++ [n]) (places ++ [nodes.length] :: below.map (nodes.length :: ·)) :=
  ⟨h.increasing_concat hbelow, h.complete_concat hbelow, h.walked_concat hbelow⟩

end Enumerated

theorem exists_enumerated (nodes : List Node) : ∃ places, Enumerated nodes places := by
  -- from the last node on, since the places below the others keep their numbers without it
  induction hsize : Node.nodeCounts nodes using Nat.strong_induction_on generalizing nodes with
  | _ size ih =>
    rcases List.eq_nil_or_concat' nodes with rfl | ⟨before, n, rfl⟩
    · exact ⟨[], .nil⟩
    · have hcount := Node.nodeCount_eq n
      rw [Node.nodeCounts_append, Node.nodeCounts_cons] at hsize
      obtain ⟨places, hplaces⟩ := ih _ (by omega) before rfl
      obtain ⟨below, hbelow⟩ := ih _ (by omega) n.below rfl
      exact ⟨_, hplaces.concat hbelow⟩

end Places

/-- The walk is the pre-order of the script, which is what the loop with a stack gives; the loop goes on once for each
node. It visits the nodes in the order of their places and every place once, so that the visits are as many as there
are nodes. -/
theorem walk_eq_preorder (s : Script) :
    s.walk = s.preorder ∧
      (∀ k visits, EndsAfter visitTop k s.visitingRoots visits ↔ k = s.nodeCount ∧ visits = s.preorder) ∧
      (∃ places : List (List Nat), places.Pairwise (· < ·) ∧
        (∀ place, place ∈ places ↔ (nodeAt? s.roots place).isSome) ∧
        places.map (nodeAt? s.roots) = s.walk.map some) ∧
      s.walk.length = s.nodeCount := by
  have hwalk : s.walk = s.preorder := walkFrom_instructions s.instructions
  have hcount : Node.nodeCounts s.roots = s.nodeCount := Node.nodeCounts_instructions s.instructions
  have hends : EndsAfter visitTop s.nodeCount s.visitingRoots s.preorder := by
    rw [← hcount, ← hwalk]
    apply endsAfter_visitTop s.roots s.visitingRoots
    simp [visitingRoots, roots]
  obtain ⟨places, hplaces⟩ := exists_enumerated s.roots
  refine ⟨hwalk, fun k visits => ⟨fun h => h.unique hends, ?_⟩,
    ⟨places, hplaces.increasing, hplaces.complete, hplaces.walked⟩, (length_walkFrom s.roots).trans hcount⟩
  rintro ⟨rfl, rfl⟩
  exact hends

end Script

end GraphQuery
