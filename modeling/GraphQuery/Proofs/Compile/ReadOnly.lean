import GraphQuery.Proofs.Compile.Preservation
import GraphQuery.Proofs.Compile.Rules
import GraphQuery.Proofs.Machine.Frame
import GraphQuery.Query

namespace GraphQuery

namespace Compile

inductive Reads : Instruction → Prop
  | out (feature : String) : Reads (.step "out" [.literal (.string feature)])
  | values (feature : String) : Reads (.step "values" [.literal (.string feature)])
  | count : Reads (.step "count" [])
  | isEmpty : Reads (.step "isEmpty" [])
  | hasNext : Reads (.step "hasNext" [])
  | dedup : Reads (.step "dedup" [])
  | limit : Reads (.step "limit" [.literal (.integer 1)])
  | filter (parameter : Option String) (t : Term) : Reads (.closure "filter" parameter [.statement t])
  | transform (parameter : Option String) (t : Term) : Reads (.closure "transform" parameter [.statement t])

def Traverses (is : List Instruction) : Prop :=
  ∃ className rest, is = .step "V" [.var inputName] :: .step "hasLabel" [.literal (.string className)] :: rest ∧
    ∀ i ∈ rest, Reads i

theorem traverses_extent (className : String) :
    Traverses [.step "V" [.var inputName], .step "hasLabel" [.literal (.string className)]] :=
  ⟨className, [], rfl, fun _ hi => absurd hi List.not_mem_nil⟩

theorem Traverses.next {is : List Instruction} {i : Instruction} (h : Traverses is) (hi : Reads i) :
    Traverses (is ++ [i]) := by
  obtain ⟨className, rest, rfl, hrest⟩ := h
  refine ⟨className, rest ++ [i], rfl, ?_⟩
  intro j hj
  rcases List.mem_append.1 hj with hj | hj
  · exact hrest j hj
  · rw [List.mem_singleton.1 hj]
    exact hi

theorem reads_featureStep (m : Metamodel) (className : Option String) (feature : String) :
    Reads (featureStep m className feature).2 := by
  unfold featureStep
  split
  · exact .out feature
  · exact .values feature

theorem reads_call {name stepName : String} {keepsClass : Bool}
    (h : traversalCall? name = some (stepName, keepsClass)) : Reads (.step stepName (callArguments stepName)) := by
  unfold traversalCall? at h
  split at h <;> cases h
  · exact .count
  · exact .isEmpty
  · exact .hasNext
  · exact .dedup
  · exact .limit

theorem reads_closure (kind : Expr.IteratorKind) (parameter : Option String) (t : Term) :
    Reads (.closure (closureName kind) parameter [.statement t]) := by
  cases kind with
  | collect => exact .transform parameter t
  | select | reject | exist | forAll => exact .filter parameter t

theorem Traverses.iterated {is : List Instruction} (h : Traverses is) (className : Option String)
    (kind : Expr.IteratorKind) (declared : Option String) (t : Term) :
    Traverses (is ++ Instruction.closure (closureName kind) declared [.statement (iteratorBody kind t)] ::
      (iteratorEnd className kind).2) := by
  have hclosure := h.next (reads_closure kind declared (iteratorBody kind t))
  cases kind with
  | select | reject | collect => exact hclosure
  | exist =>
    rw [← List.singleton_append, ← List.append_assoc]
    exact hclosure.next .hasNext
  | forAll =>
    rw [← List.singleton_append, ← List.append_assoc]
    exact hclosure.next .isEmpty

def OnlyReads : Translated → Prop
  | .value _ => True
  | .traversal _ is => Traverses is

theorem onlyReads_of_becomes {m : Metamodel} {scope : Option IteratorScope} {e : Expr} {out : Translated} :
    Becomes m scope e out → OnlyReads out
  | .extent _ => traverses_extent _
  | .feature h => (onlyReads_of_becomes h).next (reads_featureStep m _ _)
  | .call hname h => (onlyReads_of_becomes h).next (reads_call hname)
  | .iterator hs _ => (onlyReads_of_becomes hs).iterated _ _ _ _
  | .binaryEach hl _ => (onlyReads_of_becomes hl).next (.transform none _)
  | .unaryEach h => (onlyReads_of_becomes h).next (.transform none _)
  | .literal | .var _ | .collection _ | .property _ | .operation _ _ _ | .binary _ _ | .unary _ => trivial

theorem Reads.depth_le {i : Instruction} (h : Reads i) : i.depth ≤ 1 := by
  cases h <;> simp [Instruction.depth, Instruction.depths]

theorem Reads.not_writes {i : Instruction} (h : Reads i) : ¬ i.Writes := by
  intro hwrites
  cases h with
  | filter parameter t | transform parameter t =>
    cases hwrites with
    | closure _ _ hi hwrites =>
      rw [List.mem_singleton.1 hi] at hwrites
      cases hwrites
  | _ =>
    cases hwrites with
    | step _ hname => simp at hname

theorem depths_le_one {is : List Instruction} (h : ∀ i ∈ is, i.depth ≤ 1) : Instruction.depths is ≤ 1 := by
  induction is with
  | nil => exact Nat.zero_le 1
  | cons i is ih =>
    rw [Instruction.depths]
    apply Nat.max_le.2
    exact ⟨h i List.mem_cons_self, ih fun j hj => h j (List.mem_cons_of_mem _ hj)⟩

theorem Traverses.all {is : List Instruction} (h : Traverses is) : ∀ i ∈ is, i.depth ≤ 1 ∧ ¬ i.Writes := by
  obtain ⟨className, rest, rfl, hrest⟩ := h
  have hstep : ∀ name arguments, name ≠ "addV" → name ≠ "property" →
      (Instruction.step name arguments).depth ≤ 1 ∧ ¬ (Instruction.step name arguments).Writes := by
    intro name arguments hadd hset
    refine ⟨Nat.zero_le 1, fun hwrites => ?_⟩
    cases hwrites with
    | step _ hname => exact hname.elim hadd hset
  intro i hi
  rcases List.mem_cons.1 hi with rfl | hi
  · exact hstep _ _ (by decide) (by decide)
  rcases List.mem_cons.1 hi with rfl | hi
  · exact hstep _ _ (by decide) (by decide)
  · exact ⟨(hrest i hi).depth_le, (hrest i hi).not_writes⟩

end Compile

open Compile

theorem Expr.compile_form {m : Metamodel} {e : Expr} {checked : Bool} {s : Script}
    (h : e.compile m checked = .ok s) : (∃ t, s.instructions = [.statement t]) ∨ Traverses s.instructions := by
  obtain ⟨out, hout, rfl, -⟩ := compile_eq_ok.1 h
  have hreads := onlyReads_of_becomes (translate_becomes e hout)
  cases out with
  | value t => exact .inl ⟨t, rfl⟩
  | traversal className is => exact .inr hreads

theorem Executor.execute_reads {s : Script} (h : ¬ s.Writes) (x : Executor) (parameters : Parameters)
    (stores : Stores) : (x.execute s parameters stores).2 = stores := by
  unfold execute
  split
  · rfl
  · rename_i env _
    have hrun : (Machine.run env s stores).2 = stores := Machine.run_reads h
    split
    · rename_i heq
      rw [heq] at hrun
      exact hrun
    · rename_i heq
      rw [heq] at hrun
      exact hrun

/-- A compiled expression is a single statement, or the elements of a class followed by reading steps and by closures
around one statement. Running it changes no store, whether it succeeds or fails, and a query with this script gives the
same result when it is executed again. -/
theorem Expr.compile_readOnly {m : Metamodel} {e : Expr} {checked : Bool} {s : Script}
    (h : e.compile m checked = .ok s) :
    ((∃ t, s.instructions = [.statement t]) ∨ Traverses s.instructions) ∧ s.depth ≤ 1 ∧
      (∀ env stores, (Machine.run env s stores).2 = stores) ∧
      ∀ q : Query, q.script = s → ∀ parameters stores, (q.execute parameters stores).2 = stores ∧
        q.execute parameters (q.execute parameters stores).2 = q.execute parameters stores := by
  have hform := compile_form h
  have hall : ∀ i ∈ s.instructions, i.depth ≤ 1 ∧ ¬ i.Writes := by
    rcases hform with ⟨t, ht⟩ | htraverses
    · intro i hi
      rw [ht] at hi
      rw [List.mem_singleton.1 hi]
      exact ⟨Nat.zero_le 1, fun hwrites => by cases hwrites⟩
    · exact htraverses.all
  have hreads : ¬ s.Writes := fun ⟨i, hi, hwrites⟩ => (hall i hi).2 hwrites
  refine ⟨hform, depths_le_one fun i hi => (hall i hi).1, fun env stores => Machine.run_reads hreads, ?_⟩
  rintro q rfl parameters stores
  have hstores : (q.execute parameters stores).2 = stores := q.executor.execute_reads hreads parameters stores
  exact ⟨hstores, by rw [hstores]⟩

def Expr.firstFriend : Expr :=
  let here : Span := ⟨0, 1⟩
  let elders : Expr := .iterator here (.extent here none "Person") .select (some "p")
    (.binary here .greater (.navigation here (.var here "p") "age") (.var here "limit"))
  .collectionCall here (.collectionCall here (.navigation here elders "friends") "asSet" []) "first" []

def friends : Metamodel :=
  Metamodel.withClass default ((MetaClass.mk "Person" []).withAttribute "age" |>.withReference "friends" "Person")

theorem Expr.compile_readOnly_firstFriend : ∃ s, firstFriend.compile friends true = .ok s ∧
    s.instructions = [.step "V" [.var "input"], .step "hasLabel" [.literal (.string "Person")],
      .closure "filter" (some "p") [.statement (.binary .greater (.property (.var "p") "age") (.var "limit"))],
      .step "out" [.literal (.string "friends")], .step "dedup" [], .step "limit" [.literal (.integer 1)]] ∧
    Traverses s.instructions ∧ s.depth = 1 ∧ ∀ env stores, (Machine.run env s stores).2 = stores := by
  have hcompile : firstFriend.compile friends true = .ok _ := compile_eq_ok.2 ⟨_, rfl, rfl, fun _ => rfl⟩
  obtain ⟨hform, -, hrun, -⟩ := compile_readOnly hcompile
  refine ⟨_, hcompile, rfl, hform.resolve_left ?_, rfl, hrun⟩
  rintro ⟨t, ht⟩
  cases ht

end GraphQuery
