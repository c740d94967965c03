import GraphQuery.Proofs.Script.Scope
import GraphQuery.Script.Walk
import Mathlib

namespace GraphQuery.Script

structure Place where
  around : List Node
  node : Node

def Place.below (p : Place) : List Place :=
  p.node.below.map (⟨p.node :: p.around, ·⟩)

theorem map_node_below (p : Place) : p.below.map (·.node) = p.node.below := by
  rw [Place.below, List.map_map]
  exact List.map_id p.node.below

def placesFrom : List Place → List Place
  | [] => []
  | p :: stack => p :: placesFrom (p.below ++ stack)
termination_by stack => Node.nodeCounts (stack.map (·.node))
decreasing_by
  rw [List.map_append, map_node_below, List.map_cons, Node.nodeCounts_append, Node.nodeCounts_cons,
    Node.nodeCount_eq p.node]
  omega

def places (s : Script) : List Place :=
  placesFrom (s.instructions.map fun i => ⟨[], .instruction i⟩)

theorem map_node_placesFrom (stack : List Place) :
    (placesFrom stack).map (·.node) = walkFrom (stack.map (·.node)) := by
  induction stack using placesFrom.induct with
  | case1 => simp [placesFrom, walkFrom]
  | case2 p stack ih =>
    rw [placesFrom, List.map_cons, ih, List.map_cons, walkFrom, List.map_append, map_node_below]

theorem map_node_places (s : Script) : s.places.map (·.node) = s.walk := by
  rw [places, map_node_placesFrom, List.map_map]
  rfl

theorem placesFrom_append (stack rest : List Place) :
    placesFrom (stack ++ rest) = placesFrom stack ++ placesFrom rest := by
  induction stack using placesFrom.induct with
  | case1 => simp [placesFrom]
  | case2 p stack ih =>
    rw [List.cons_append, placesFrom, ← List.append_assoc, ih, placesFrom, List.cons_append]

def Node.binder? : Node → Option String
  | .instruction (.closure _ parameter _) => some (boundName parameter)
  | _ => none

def FreeAt (s : Script) (i : Nat) (x : String) : Prop :=
  ∃ p, s.places[i]? = some p ∧ p.node = .term (.var x) ∧ ∀ n ∈ p.around, n.binder? ≠ some x

def Place.freeName? (p : Place) : Option String :=
  match p.node with
  | .term (.var x) => if x ∈ p.around.filterMap Node.binder? then none else some x
  | _ => none

theorem freeName?_eq_some {p : Place} {x : String} :
    p.freeName? = some x ↔ p.node = .term (.var x) ∧ ∀ n ∈ p.around, n.binder? ≠ some x := by
  unfold Place.freeName?
  split
  · rename_i y hy
    simp only [hy, Node.term.injEq, Term.var.injEq, List.mem_filterMap, Option.ite_none_left_eq_some,
      Option.some.injEq, not_exists, not_and]
    constructor
    · rintro ⟨hfree, rfl⟩
      exact ⟨rfl, hfree⟩
    · rintro ⟨rfl, hfree⟩
      exact ⟨hfree, rfl⟩
  · rename_i hother
    simp only [reduceCtorEq, false_iff, not_and]
    intro hnode
    exact absurd hnode (hother x)

theorem freeAt_iff {s : Script} {i : Nat} {x : String} :
    s.FreeAt i x ↔ s.places[i]?.bind Place.freeName? = some x := by
  simp only [FreeAt, Option.bind_eq_some_iff, freeName?_eq_some]

def freeFrom (stack : List Place) : List String :=
  (placesFrom stack).filterMap Place.freeName?

theorem freeFrom_nil : freeFrom [] = [] := by
  rw [freeFrom, placesFrom, List.filterMap_nil]

theorem freeFrom_append (stack rest : List Place) : freeFrom (stack ++ rest) = freeFrom stack ++ freeFrom rest := by
  rw [freeFrom, placesFrom_append, List.filterMap_append]
  rfl

theorem freeFrom_singleton (p : Place) : freeFrom [p] = p.freeName?.toList ++ freeFrom p.below := by
  rw [freeFrom, placesFrom, List.append_nil, List.filterMap_cons]
  cases p.freeName? <;> rfl

theorem freeFrom_cons (p : Place) (rest : List Place) : freeFrom (p :: rest) = freeFrom [p] ++ freeFrom rest :=
  freeFrom_append [p] rest

def unbound (around : List Node) (names : List String) : List String :=
  names.filter (· ∉ around.filterMap Node.binder?)

theorem unbound_append (around : List Node) (names names' : List String) :
    unbound around (names ++ names') = unbound around names ++ unbound around names' :=
  List.filter_append names names'

theorem unbound_term (t : Term) (around : List Node) (names : List String) :
    unbound (.term t :: around) names = unbound around names := rfl

theorem unbound_closure (name : String) (parameter : Option String) (body : List Instruction) (around : List Node)
    (names : List String) : unbound (.instruction (.closure name parameter body) :: around) names =
      unbound around (names.filter (· != boundName parameter)) :=
  filter_scope_cons (around.filterMap Node.binder?) names (boundName parameter)

mutual
theorem freeFrom_term : (t : Term) → ∀ around : List Node,
    freeFrom [⟨around, .term t⟩] = unbound around t.names
  | .literal value, around => by
    rw [freeFrom_singleton]
    exact freeFrom_nil
  | .var x, around => by
    rw [freeFrom_singleton, Term.names, unbound, List.filter_singleton]
    change (if x ∈ around.filterMap Node.binder? then none else some x).toList ++ freeFrom [] = _
    rw [freeFrom_nil, List.append_nil]
    by_cases hx : x ∈ around.filterMap Node.binder? <;> simp [hx]
  | .property target name, around => by
    rw [freeFrom_singleton]
    exact freeFrom_term target (.term (.property target name) :: around)
  | .list items, around => by
    rw [freeFrom_singleton]
    exact freeFrom_terms items (.term (.list items) :: around)
  | .unary op operand, around => by
    rw [freeFrom_singleton]
    exact freeFrom_term operand (.term (.unary op operand) :: around)
  | .binary op left right, around => by
    have hleft := freeFrom_term left (.term (.binary op left right) :: around)
    have hright := freeFrom_term right (.term (.binary op left right) :: around)
    rw [freeFrom_singleton, Term.names, unbound_append, ← unbound_term (.binary op left right), ← hleft,
      ← unbound_term (.binary op left right), ← hright]
    exact freeFrom_cons ..

theorem freeFrom_terms : (ts : List Term) → ∀ around : List Node,
    freeFrom ((ts.map Node.term).map (⟨around, ·⟩)) = unbound around (Term.namesAll ts)
  | [], around => freeFrom_nil
  | t :: ts, around => by
    rw [List.map_cons, List.map_cons, freeFrom_cons, freeFrom_term t, freeFrom_terms ts, Term.namesAll, unbound_append]
end

mutual
theorem freeFrom_instruction : (i : Instruction) → ∀ around : List Node,
    freeFrom [⟨around, .instruction i⟩] = unbound around i.freeNames
  | .step name arguments, around => by
    have hbelow : Node.below (.instruction (.step name arguments)) = arguments.map Node.term := List.append_nil _
    rw [freeFrom_singleton, Place.below, hbelow]
    exact freeFrom_terms arguments (.instruction (.step name arguments) :: around)
  | .closure name parameter body, around => by
    rw [freeFrom_singleton, Instruction.freeNames, ← unbound_closure name parameter body]
    exact freeFrom_instructions body (.instruction (.closure name parameter body) :: around)
  | .statement t, around => by
    rw [freeFrom_singleton]
    exact freeFrom_term t (.instruction (.statement t) :: around)

theorem freeFrom_instructions : (is : List Instruction) → ∀ around : List Node,
    freeFrom ((is.map Node.instruction).map (⟨around, ·⟩)) = unbound around (Instruction.freeNamesAll is)
  | [], around => freeFrom_nil
  | i :: is, around => by
    rw [List.map_cons, List.map_cons, freeFrom_cons, freeFrom_instruction i, freeFrom_instructions is,
      Instruction.freeNamesAll, unbound_append]
end

theorem freeVariables_eq_places (s : Script) :
    s.freeVariables = (s.places.filterMap Place.freeName?).foldl listName [] := by
  have hroot := freeFrom_instructions s.instructions []
  rw [List.map_map] at hroot
  rw [freeVariables, Instruction.collectFreeAll_eq]
  exact congrArg (·.foldl listName []) hroot.symm

section Order

variable {ps : List Place} {i : Nat} {x : String}

def LeadsAt (ps : List Place) (i : Nat) (x : String) : Prop :=
  ps[i]?.bind Place.freeName? = some x ∧ ∀ j < i, ps[j]?.bind Place.freeName? ≠ some x

theorem leadsAt_places {s : Script} : LeadsAt s.places i x ↔ s.FreeAt i x ∧ ∀ j < i, ¬ s.FreeAt j x := by
  simp only [LeadsAt, freeAt_iff, Ne]

theorem LeadsAt.lt_length (h : LeadsAt ps i x) : i < ps.length := by
  obtain ⟨p, hp, -⟩ := Option.bind_eq_some_iff.1 h.1
  exact (List.getElem?_eq_some_iff.1 hp).1

theorem LeadsAt.append (h : LeadsAt ps i x) (rest : List Place) : LeadsAt (ps ++ rest) i x := by
  have hi := h.lt_length
  refine ⟨?_, fun j hj => ?_⟩
  · rw [List.getElem?_append_left hi]
    exact h.1
  · rw [List.getElem?_append_left (hj.trans hi)]
    exact h.2 j hj

theorem mem_filterMap_freeName? : x ∈ ps.filterMap Place.freeName? ↔
    ∃ i : Nat, ps[i]?.bind Place.freeName? = some x := by
  rw [List.mem_filterMap]
  constructor
  · rintro ⟨p, hp, hx⟩
    obtain ⟨i, hi⟩ := List.mem_iff_getElem?.1 hp
    exact ⟨i, by rw [hi, Option.bind_some, hx]⟩
  · rintro ⟨i, hi⟩
    obtain ⟨p, hp, hx⟩ := Option.bind_eq_some_iff.1 hi
    exact ⟨p, List.mem_iff_getElem?.2 ⟨i, hp⟩, hx⟩

theorem exists_leadsAt (h : x ∈ ps.filterMap Place.freeName?) : ∃ i, LeadsAt ps i x := by
  have hfree := mem_filterMap_freeName?.1 h
  exact ⟨Nat.find hfree, Nat.find_spec hfree, fun j hj => Nat.find_min hfree hj⟩

theorem leadsAt_last {p : Place} (hp : p.freeName? = some x) (hx : x ∉ ps.filterMap Place.freeName?) :
    LeadsAt (ps ++ [p]) ps.length x := by
  refine ⟨by simpa using hp, fun j hj hfree => hx (mem_filterMap_freeName?.2 ⟨j, ?_⟩)⟩
  rwa [List.getElem?_append_left hj] at hfree

theorem pairwise_leadsAt (ps : List Place) : ((ps.filterMap Place.freeName?).foldl listName []).Pairwise fun x y =>
    ∃ i j, i < j ∧ LeadsAt ps i x ∧ LeadsAt ps j y := by
  induction ps using List.reverseRecOn with
  | nil => exact .nil
  | append_singleton ps p ih =>
    -- one more place adds its name only at the end
    have hlisted := ih.imp fun {x y} ⟨i, j, hij, hx, hy⟩ =>
      (⟨i, j, hij, hx.append [p], hy.append [p]⟩ : ∃ i j, i < j ∧ LeadsAt (ps ++ [p]) i x ∧ LeadsAt (ps ++ [p]) j y)
    rw [List.filterMap_append, List.foldl_append]
    cases hp : p.freeName? with
    | none => simpa [hp] using hlisted
    | some y =>
      rw [List.filterMap_cons_some hp, List.filterMap_nil, List.foldl_cons, List.foldl_nil, listName]
      split
      · exact hlisted
      · rename_i hy
        simp only [mem_foldl_listName, List.not_mem_nil, false_or] at hy
        refine List.pairwise_append.2 ⟨hlisted, List.pairwise_singleton _ y, fun x hx z hz => ?_⟩
        obtain ⟨i, hi⟩ := exists_leadsAt (by simpa [mem_foldl_listName] using hx)
        rw [List.mem_singleton.1 hz]
        exact ⟨i, ps.length, hi.lt_length, hi.append [p], leadsAt_last hp hy⟩

end Order

/-- The free variables are the names of the variables that occur where no closure around them binds their name, each
listed once, in the order in which the walk first comes to such an occurrence. -/
theorem freeVariables_occurrences (s : Script) :
    s.places.map (·.node) = s.walk ∧ (∀ x, x ∈ s.freeVariables ↔ ∃ i, s.FreeAt i x) ∧ s.freeVariables.Nodup ∧
      s.freeVariables.Pairwise fun x y => ∃ i j, i < j ∧ (s.FreeAt i x ∧ ∀ k < i, ¬ s.FreeAt k x) ∧
        s.FreeAt j y ∧ ∀ k < j, ¬ s.FreeAt k y := by
  have horder : s.freeVariables.Pairwise fun x y => ∃ i j, i < j ∧ (s.FreeAt i x ∧ ∀ k < i, ¬ s.FreeAt k x) ∧
      s.FreeAt j y ∧ ∀ k < j, ¬ s.FreeAt k y := by
    simpa only [freeVariables_eq_places, leadsAt_places] using pairwise_leadsAt s.places
  refine ⟨map_node_places s, fun x => ?_, horder.imp ?_, horder⟩
  · simp only [freeVariables_eq_places, mem_foldl_listName, List.not_mem_nil, false_or, mem_filterMap_freeName?,
      freeAt_iff]
  · rintro x _ ⟨i, j, hij, ⟨hi, -⟩, -, hfirst⟩ rfl
    exact hfirst i hij hi

end GraphQuery.Script
