import GraphQuery.Script.Scope

namespace GraphQuery

namespace Term

mutual
def names : Term → List String
  | literal _ => []
  | var name => [name]
  | property target _ => target.names
  | list items => namesAll items
  | unary _ operand => operand.names
  | binary _ left right => left.names ++ right.names

def namesAll : List Term → List String
  | [] => []
  | t :: ts => t.names ++ namesAll ts
end

end Term

namespace Instruction

mutual
def freeNames : Instruction → List String
  | step _ arguments => Term.namesAll arguments
  | closure _ parameter body => (freeNamesAll body).filter (· != boundName parameter)
  | statement term => term.names

def freeNamesAll : List Instruction → List String
  | [] => []
  | i :: is => i.freeNames ++ freeNamesAll is
end

end Instruction

namespace Script

def listName (found : List String) (name : String) : List String :=
  if name ∈ found then found else found ++ [name]

def listNames (scope found names : List String) : List String :=
  (names.filter (· ∉ scope)).foldl listName found

theorem listNames_append (scope found names names' : List String) :
    listNames scope found (names ++ names') = listNames scope (listNames scope found names) names' := by
  simp only [listNames, List.filter_append, List.foldl_append]

theorem filter_scope_cons (scope names : List String) (name : String) :
    names.filter (· ∉ name :: scope) = (names.filter (· != name)).filter (· ∉ scope) := by
  rw [List.filter_filter]
  congr 1
  funext x
  by_cases hx : x = name <;> simp [hx]

theorem listNames_filter (scope found names : List String) (name : String) :
    listNames scope found (names.filter (· != name)) = listNames (name :: scope) found names := by
  rw [listNames, ← filter_scope_cons, listNames]

theorem mem_foldl_listName {found names : List String} {x : String} :
    x ∈ names.foldl listName found ↔ x ∈ found ∨ x ∈ names := by
  induction names generalizing found with
  | nil => simp
  | cons name names ih =>
    rw [List.foldl_cons, ih, listName]
    split
    · rename_i hname
      simp only [List.mem_cons]
      constructor
      · exact Or.imp_right .inr
      · rintro (h | rfl | h)
        · exact .inl h
        · exact .inl hname
        · exact .inr h
    · simp only [List.mem_append, List.mem_cons, List.not_mem_nil, false_or, or_assoc]

theorem foldl_listName (found names : List String) :
    names.foldl listName found = found ++ (names.filter (· ∉ found)).eraseDups := by
  induction names generalizing found with
  | nil => simp
  | cons name names ih =>
    rw [List.foldl_cons, ih, listName]
    by_cases hname : name ∈ found
    · simp [hname]
    · have hfilter : names.filter (· ∉ found ++ [name]) = (names.filter (· ∉ found)).filter (!· == name) := by
        rw [List.filter_filter]
        congr 1
        funext x
        by_cases hx : x = name <;> simp [hx]
      rw [if_neg hname, List.filter_cons_of_pos (by simpa using hname), List.eraseDups_cons, hfilter,
        List.append_assoc, List.singleton_append]

end Script

open Script

mutual
theorem Term.collectFree_eq (scope : List String) : (t : Term) → ∀ found : List String,
    t.collectFree scope found = listNames scope found t.names
  | .literal _, found => rfl
  | .var name, found => by
    rw [Term.collectFree, Term.names, listNames]
    by_cases hscope : name ∈ scope
    · simp [hscope]
    · simp [hscope, listName]
  | .property target _, found => by
    rw [Term.collectFree, Term.names, target.collectFree_eq scope]
  | .list items, found => by
    rw [Term.collectFree, Term.names, Term.collectFreeAll_eq scope items]
  | .unary _ operand, found => by
    rw [Term.collectFree, Term.names, operand.collectFree_eq scope]
  | .binary _ left right, found => by
    rw [Term.collectFree, Term.names, listNames_append, left.collectFree_eq scope, right.collectFree_eq scope]

theorem Term.collectFreeAll_eq (scope : List String) : (ts : List Term) → ∀ found : List String,
    Term.collectFreeAll scope found ts = listNames scope found (Term.namesAll ts)
  | [], found => rfl
  | t :: ts, found => by
    rw [Term.collectFreeAll, Term.namesAll, listNames_append, t.collectFree_eq scope,
      Term.collectFreeAll_eq scope ts]
end

mutual
theorem Instruction.collectFree_eq : (i : Instruction) → ∀ scope found : List String,
    i.collectFree scope found = listNames scope found i.freeNames
  | .step _ arguments, scope, found => by
    rw [Instruction.collectFree, Instruction.freeNames, Term.collectFreeAll_eq]
  | .closure _ parameter body, scope, found => by
    rw [Instruction.collectFree, Instruction.freeNames, listNames_filter, Instruction.collectFreeAll_eq body]
  | .statement term, scope, found => by
    rw [Instruction.collectFree, Instruction.freeNames, Term.collectFree_eq]

theorem Instruction.collectFreeAll_eq : (is : List Instruction) → ∀ scope found : List String,
    Instruction.collectFreeAll scope found is = listNames scope found (Instruction.freeNamesAll is)
  | [], scope, found => rfl
  | i :: is, scope, found => by
    rw [Instruction.collectFreeAll, Instruction.freeNamesAll, listNames_append, i.collectFree_eq,
      Instruction.collectFreeAll_eq is]
end

theorem Instruction.freeNamesAll_append (is js : List Instruction) :
    freeNamesAll (is ++ js) = freeNamesAll is ++ freeNamesAll js := by
  induction is with
  | nil => rfl
  | cons i is ih => rw [List.cons_append, freeNamesAll, ih, freeNamesAll, List.append_assoc]

theorem Script.freeVariables_eq (s : Script) :
    s.freeVariables = (Instruction.freeNamesAll s.instructions).eraseDups := by
  have hfilter : ∀ names : List String, names.filter (· ∉ []) = names := by simp
  rw [Script.freeVariables, Instruction.collectFreeAll_eq, listNames, foldl_listName, hfilter, hfilter,
    List.nil_append]

theorem Script.mem_freeVariables {s : Script} {x : String} :
    x ∈ s.freeVariables ↔ x ∈ Instruction.freeNamesAll s.instructions := by
  rw [Script.freeVariables, Instruction.collectFreeAll_eq, Script.listNames, mem_foldl_listName]
  simp

end GraphQuery
