import GraphQuery.Proofs.Compile.ReadOnly

namespace GraphQuery

open Compile Meaning

namespace Machine

abbrev Condition := Value → Except RunError Value

namespace Condition

variable {p : Condition} {x : Value}

def holds (p : Condition) (x : Value) : Bool :=
  match p x with
  | .ok (.boolean b) => b
  | _ => false

def Decides (p : Condition) (x : Value) : Prop :=
  p x = .ok (.boolean (p.holds x))

def filter (p : Condition) (x : Value) : Except RunError (List Value) := do
  ClosureKind.filter.outcome x [← p x]

def negated (p : Condition) : Condition := fun x => p x >>= Value.applyUnary .not

theorem filter_eq_ok {out : List Value} :
    p.filter x = .ok out ↔ p.Decides x ∧ out = if p.holds x then [x] else [] := by
  unfold filter Decides holds
  rcases p x with _ | (_ | _ | _ | _ | _ | _ | _) <;> simp [ClosureKind.outcome, eq_comm]

theorem decides_negated : p.negated.Decides x ↔ p.Decides x := by
  dsimp only [negated, Decides, holds]
  rcases p x with _ | (_ | _ | _ | _ | _ | _ | _) <;> simp [Value.applyUnary]

theorem holds_negated (h : p.Decides x) : p.negated.holds x = !p.holds x := by
  have hx : p.negated x = .ok (.boolean !p.holds x) := by
    rw [negated, h]
    rfl
  rw [holds, hx]

theorem concat_filter_eq_ok {xs kept : List Value} :
    concat p.filter xs = .ok kept ↔ (∀ x ∈ xs, p.Decides x) ∧ kept = xs.filter p.holds := by
  induction xs generalizing kept with
  | nil => simp [concat, pure, Except.pure, eq_comm]
  | cons x xs ih =>
    simp only [concat_cons, bind_eq_ok, filter_eq_ok, ih, List.forall_mem_cons, List.filter_cons]
    constructor
    · rintro ⟨out, ⟨hx, rfl⟩, rest, ⟨hxs, rfl⟩, ⟨⟩⟩
      refine ⟨⟨hx, hxs⟩, ?_⟩
      split <;> rfl
    · rintro ⟨⟨hx, hxs⟩, rfl⟩
      refine ⟨_, ⟨hx, rfl⟩, _, ⟨hxs, rfl⟩, ?_⟩
      split <;> rfl

theorem concat_filter_negated_eq_ok {xs kept : List Value} :
    concat p.negated.filter xs = .ok kept ↔ (∀ x ∈ xs, p.Decides x) ∧ kept = xs.filter (!p.holds ·) := by
  simp only [concat_filter_eq_ok, decides_negated]
  apply and_congr_right
  intro hdecides
  rw [List.filter_congr fun x hx => holds_negated (hdecides x hx)]

end Condition

theorem run_append {is : List Instruction} (h : Traverses is) (js : List Instruction) (env : Environment)
    (stores : Stores) :
    (run env ⟨is ++ js⟩ stores).1 = (run env ⟨is⟩ stores).1 >>= fun xs => (runBlock env [] js xs stores).1 := by
  have hreads : (runBlock env [] is [] stores).2 = stores := runBlock_reads is (fun i hi => (h.all i hi).2) [] []
  unfold run
  dsimp only
  rw [runBlock_append]
  cases hrun : runBlock env [] is [] stores with
  | mk result stores' =>
    rw [hrun] at hreads
    obtain rfl : stores' = stores := hreads
    cases result <;> rfl

variable {is : List Instruction} {env : Environment} {stores : Stores} {declared : Option String} {p : Condition}
  {t : Term}

theorem run_filter (h : Traverses is) (hp : ∀ x, evaluate ⟨env, stores⟩ [(boundName declared, x)] t = p x) :
    (run env ⟨is ++ [Instruction.closure "filter" declared [.statement t]]⟩ stores).1 =
      (run env ⟨is⟩ stores).1 >>= concat p.filter := by
  rw [run_append h]
  congr 1
  funext xs
  rw [runBlock_closure rfl]
  simp only [hp]
  rfl

theorem run_step (h : Traverses is) {i : Instruction} {out : List Value → List Value}
    (hi : ∀ xs, runBlock env [] [i] xs stores = (.ok (out xs), stores)) :
    (run env ⟨is ++ [i]⟩ stores).1 = (run env ⟨is⟩ stores).1.map out := by
  rw [run_append h]
  simp only [hi]
  cases (run env ⟨is⟩ stores).1 <;> rfl

theorem run_size (h : Traverses is) : (run env ⟨is ++ [Instruction.step "count" []]⟩ stores).1 =
    (run env ⟨is⟩ stores).1.map fun xs => [.integer (Int64.ofNat xs.length)] :=
  run_step h fun xs => runBlock_readStep (rfl : Step.ofName? "count" = _) (by decide) [] env xs stores

section Scripts

variable (className declared : Option String) (is : List Instruction) (t : Term)

theorem script_select : (iterated className is .select declared t).script =
    ⟨is ++ [Instruction.closure "filter" declared [.statement t]]⟩ := rfl

theorem script_reject : (iterated className is .reject declared t).script =
    ⟨is ++ [Instruction.closure "filter" declared [.statement (.unary .not t)]]⟩ := rfl

theorem script_exist : (iterated className is .exist declared t).script =
    ⟨is ++ [Instruction.closure "filter" declared [.statement t], Instruction.step "hasNext" []]⟩ := rfl

theorem script_forAll : (iterated className is .forAll declared t).script =
    ⟨is ++ [Instruction.closure "filter" declared [.statement (.unary .not t)], Instruction.step "isEmpty" []]⟩ := rfl

end Scripts

variable {className : Option String}

theorem run_select_eq_ok (h : Traverses is) (hp : ∀ x, evaluate ⟨env, stores⟩ [(boundName declared, x)] t = p x)
    {kept : List Value} : (run env (iterated className is .select declared t).script stores).1 = .ok kept ↔
      ∃ xs, (run env ⟨is⟩ stores).1 = .ok xs ∧ (∀ x ∈ xs, p.Decides x) ∧ kept = xs.filter p.holds := by
  rw [script_select, run_filter h hp, bind_eq_ok]
  simp only [Condition.concat_filter_eq_ok]

theorem run_reject_eq_ok (h : Traverses is) (hp : ∀ x, evaluate ⟨env, stores⟩ [(boundName declared, x)] t = p x)
    {kept : List Value} : (run env (iterated className is .reject declared t).script stores).1 = .ok kept ↔
      ∃ xs, (run env ⟨is⟩ stores).1 = .ok xs ∧ (∀ x ∈ xs, p.Decides x) ∧ kept = xs.filter (!p.holds ·) := by
  have hnot : ∀ x, evaluate ⟨env, stores⟩ [(boundName declared, x)] (.unary .not t) = p.negated x := by
    intro x
    rw [evaluate, hp]
    rfl
  rw [script_reject, run_filter h hnot, bind_eq_ok]
  simp only [Condition.concat_filter_negated_eq_ok]

theorem run_exist (h : Traverses is) : (run env (iterated className is .exist declared t).script stores).1 =
    (run env (iterated className is .select declared t).script stores).1.map fun kept => [.boolean !kept.isEmpty] := by
  rw [script_exist, script_select, List.append_cons]
  apply run_step (h.next (.filter declared t))
  intro xs
  exact runBlock_readStep (rfl : Step.ofName? "hasNext" = _) (by decide) [] env xs stores

theorem run_forAll (h : Traverses is) : (run env (iterated className is .forAll declared t).script stores).1 =
    (run env (iterated className is .reject declared t).script stores).1.map fun kept => [.boolean kept.isEmpty] := by
  rw [script_forAll, script_reject, List.append_cons]
  apply run_step (h.next (.filter declared (.unary .not t)))
  intro xs
  exact runBlock_readStep (rfl : Step.ofName? "isEmpty" = _) (by decide) [] env xs stores

end Machine

namespace Compile

variable {m : Metamodel} {scope : Option IteratorScope} {context : Context} {e : Expr} {a b : Arena}

theorem exists_stands {l : Lowered} (h : lower m scope context e {} = .ok (l, b)) :
    ∃ t, translate m scope context e = .ok t ∧ Stands {} [] t l b := by
  have hsimulates := lower_simulates m e scope context Arena.Ready.empty
  unfold Simulates at hsimulates
  split at hsimulates
  · rw [h] at hsimulates
    cases hsimulates
  · rename_i t ht
    obtain ⟨l', b', hl', hstands⟩ := hsimulates
    rw [h] at hl'
    cases hl'
    exact ⟨t, ht, hstands⟩

theorem exists_steps {className : Option String} (h : lower m scope context e {} = .ok (.traversal className, b)) :
    ∃ is, translate m scope context e = .ok (.traversal className is) := by
  obtain ⟨⟨_, is⟩ | t, ht, hstands⟩ := exists_stands h
  · obtain ⟨rfl, -⟩ := hstands
    exact ⟨is, ht⟩
  · cases hstands

theorem exists_term {id : TermId} (h : lower m scope context e {} = .ok (.value id, b)) :
    ∃ t, translate m scope context e = .ok (.value t) := by
  obtain ⟨⟨_, is⟩ | t, ht, hstands⟩ := exists_stands h
  · cases hstands
  · exact ⟨t, ht⟩

end Compile

def Expr.CompilesTo (m : Metamodel) (e : Expr) (s : Script) : Prop :=
  ∀ checked, e.compile m checked = inspected checked s

namespace Compile

variable {m : Metamodel} {source body : Expr} {declared className : Option String} {is : List Instruction} {t : Term}

theorem compilesTo_script {e : Expr} {out : Translated} (h : translate m none .root e = .ok out) :
    e.CompilesTo m out.script := by
  intro checked
  rw [Expr.compile_eq, h, ok_bind]

theorem compilesTo_iterator (hs : translate m none .root source = .ok (.traversal className is))
    (hb : translate m (some ⟨declared, className⟩) .body body = .ok (.value t)) (span : Span)
    (kind : Expr.IteratorKind) :
    (Expr.iterator span source kind declared body).CompilesTo m (iterated className is kind declared t).script := by
  apply compilesTo_script
  rw [translate, hs, ok_bind]
  simp only
  rw [hb]
  rfl

theorem translate_not {scope : Option IteratorScope} {context : Context}
    (hb : translate m scope context body = .ok (.value t)) (span : Span) :
    translate m scope context (.unary span .not body) = .ok (.value (.unary .not t)) := by
  rw [translate, hb]
  rfl

theorem compilesTo_size (hs : translate m none .root source = .ok (.traversal className is)) (span : Span) :
    (Expr.collectionCall span source "size" []).CompilesTo m ⟨is ++ [Instruction.step "count" []]⟩ := by
  have hsize : translate m none .root (.collectionCall span source "size" []) =
      .ok (.traversal none (is ++ [Instruction.step "count" []])) := by
    rw [translate, hs]
    rfl
  exact compilesTo_script hsize

end Compile

open Machine

/-- Let an expression be a traversal, and another one a value in an iterator over it. Selecting by the value succeeds if
and only if rejecting does; then the value is a boolean at every item, the items at which it is true are selected and
the others rejected, and there is one that is selected, or none that is rejected, as the quantifiers say. To reject is
to select by the negation, and all items have the value if and only if none has the negation, also as far as this
fails. -/
theorem Expr.iterator_laws {m : Metamodel} {source body : Expr} {declared className : Option String} {a b : Arena}
    {id : TermId} (hsource : lower m none .root source {} = .ok (.traversal className, a))
    (hbody : lower m (some ⟨declared, className⟩) .body body {} = .ok (.value id, b)) :
    ∃ (whole size : Script) (plain negated : IteratorKind → Script) (reading : Reading Value),
      source.CompilesTo m whole ∧
      (∀ span, (Expr.collectionCall span source "size" []).CompilesTo m size) ∧
      (∀ span kind, (Expr.iterator span source kind declared body).CompilesTo m (plain kind)) ∧
      (∀ span span' kind,
        (Expr.iterator span source kind declared (.unary span' .not body)).CompilesTo m (negated kind)) ∧
      value? (itemName m declared className) body = some reading ∧
      ∀ env stores,
        let result (s : Script) := (Machine.run env s stores).1
        ((∃ as, result (plain .select) = .ok as) ↔ ∃ bs, result (plain .reject) = .ok bs) ∧
        (∀ as bs, result (plain .select) = .ok as → result (plain .reject) = .ok bs →
          ∃ (xs : List Value) (holds : Value → Bool), result whole = .ok xs ∧
            (∀ x ∈ xs, reading ⟨env, stores⟩ x = .ok (.boolean (holds x))) ∧
            as = xs.filter holds ∧ bs = xs.filter (!holds ·) ∧ as.length + bs.length = xs.length ∧
            result (plain .exist) = .ok [.boolean !as.isEmpty] ∧ result (plain .forAll) = .ok [.boolean bs.isEmpty] ∧
            ∃ n : Int64, result size = .ok [.integer n] ∧ (xs.length ≤ Int64.maxValue.toInt → n.toInt = xs.length)) ∧
        result (plain .reject) = result (negated .select) ∧
        ∃ exist : Except RunError Bool, result (negated .exist) = exist.map (fun c => [.boolean c]) ∧
          result (plain .forAll) = exist.map (fun c => [.boolean !c]) := by
  obtain ⟨is, hs⟩ := exists_steps hsource
  obtain ⟨t, hb⟩ := exists_term hbody
  have hvalue := translate_value (resolves_item m declared className) body .body
  rw [hb] at hvalue
  obtain ⟨reading, hreading, heval⟩ := hvalue.exists_some rfl
  have hread : Traverses is := onlyReads_of_becomes (translate_becomes source hs)
  refine ⟨⟨is⟩, ⟨is ++ [Instruction.step "count" []]⟩, fun kind => (iterated className is kind declared t).script,
    fun kind => (iterated className is kind declared (.unary .not t)).script, reading, compilesTo_script hs,
    compilesTo_size hs, compilesTo_iterator hs hb,
    fun span span' => compilesTo_iterator hs (translate_not hb span') span, hreading, ?_⟩
  intro env stores result
  have hcondition : ∀ x, evaluate ⟨env, stores⟩ [(boundName declared, x)] t = reading ⟨env, stores⟩ x :=
    fun x => heval ⟨env, stores⟩ x _ rfl
  refine ⟨⟨?_, ?_⟩, ?_, rfl, (result (iterated className is .reject declared t).script).map (!List.isEmpty ·), ?_, ?_⟩
  · rintro ⟨as, has⟩
    obtain ⟨xs, hxs, hdecides, -⟩ := (run_select_eq_ok hread hcondition).1 has
    exact ⟨_, (run_reject_eq_ok hread hcondition).2 ⟨xs, hxs, hdecides, rfl⟩⟩
  · rintro ⟨bs, hbs⟩
    obtain ⟨xs, hxs, hdecides, -⟩ := (run_reject_eq_ok hread hcondition).1 hbs
    exact ⟨_, (run_select_eq_ok hread hcondition).2 ⟨xs, hxs, hdecides, rfl⟩⟩
  · intro as bs has hbs
    obtain ⟨xs, hxs, hdecides, rfl⟩ := (run_select_eq_ok hread hcondition).1 has
    obtain ⟨xs', hxs', -, rfl⟩ := (run_reject_eq_ok hread hcondition).1 hbs
    obtain rfl : xs = xs' := Except.ok.inj (hxs.symm.trans hxs')
    refine ⟨xs, _, hxs, hdecides, rfl, rfl, (List.length_eq_length_filter_add _).symm, ?_, ?_, ?_⟩
    · exact (run_exist hread).trans (congrArg _ has)
    · exact (run_forAll hread).trans (congrArg _ hbs)
    · refine ⟨_, (run_size hread).trans (congrArg _ hxs), fun hlength => Int64.toInt_ofNat_of_lt ?_⟩
      rw [Int64.toInt_maxValue] at hlength
      omega
  · apply (run_exist hread).trans
    change (result (iterated className is .reject declared t).script).map _ = _
    cases result (iterated className is .reject declared t).script <;> rfl
  · apply (run_forAll hread).trans
    change (result (iterated className is .reject declared t).script).map _ = _
    cases result (iterated className is .reject declared t).script with
    | error e => rfl
    | ok bs => rw [map_ok, map_ok, map_ok, Bool.not_not]

theorem Expr.iterator_laws_older :
    let here : Span := ⟨0, 1⟩
    let persons : Expr := .extent here none "Person"
    let older : Expr := .binary here .greater (.var here "age") (.var here "limit")
    (∃ a, lower friends none .root persons {} = .ok (.traversal (some "Person"), a)) ∧
    (∃ id b, lower friends (some ⟨none, some "Person"⟩) .body older {} = .ok (.value id, b)) ∧
    ∃ select reject : Script, (Expr.iterator here persons .select none older).CompilesTo friends select ∧
      (Expr.iterator here persons .reject none older).CompilesTo friends reject ∧
      ∀ env stores, (∃ as, (Machine.run env select stores).1 = .ok as) ↔
        ∃ bs, (Machine.run env reject stores).1 = .ok bs := by
  intro here persons older
  have hsource : lower friends none .root persons {} = .ok (.traversal (some "Person"), _) := rfl
  have hbody : lower friends (some ⟨none, some "Person"⟩) .body older {} = .ok (.value _, _) := rfl
  obtain ⟨whole, size, plain, negated, reading, -, -, hplain, -, -, hlaws⟩ := iterator_laws hsource hbody
  exact ⟨⟨_, hsource⟩, ⟨_, _, hbody⟩, plain .select, plain .reject, hplain here .select, hplain here .reject,
    fun env stores => (hlaws env stores).1⟩

end GraphQuery
