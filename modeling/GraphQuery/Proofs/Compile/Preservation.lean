import GraphQuery.Proofs.Compile.Lowering
import GraphQuery.Proofs.Compile.Names
import GraphQuery.Proofs.Machine.Reading

/-!
Compilation preserves meaning: an expression has a script if and only if it has a meaning, and a run of the
script gives what the expression denotes.
-/

namespace GraphQuery.Compile

open Machine Meaning

def Computes (steps : Option String × List Instruction) (t : Traversal) : Prop :=
  t.className = steps.1 ∧ Turns steps.2 (fun w _ => t.items w)

theorem Computes.extend {steps : Option String × List Instruction} {t : Traversal} {is : List Instruction}
    {g : World → List Value → Except RunError (List Value)} (h : Computes steps t) (hg : Turns is g)
    {className : Option String} {items : World → Except RunError (List Value)}
    (hitems : ∀ w, items w = t.items w >>= g w) :
    Computes (className, steps.2 ++ is) ⟨className, items⟩ :=
  ⟨rfl, (h.2.append hg).congr fun w _ _ => (hitems w).symm⟩

theorem isEmpty_filter (test : Value × Bool → Bool) (judged : List (Value × Bool)) :
    (judged.filter test).isEmpty = !judged.any test := by
  induction judged with
  | nil => rfl
  | cons p judged ih =>
    rw [List.filter_cons, List.any_cons]
    cases test p with
    | true => rfl
    | false => simpa using ih

section Steps

variable {className : Option String} {is : List Instruction} {t : Traversal}

theorem follow_computes (m : Metamodel) (feature : String) (h : Computes (className, is) t) :
    Computes ((featureStep m className feature).1, is ++ [(featureStep m className feature).2])
      (t.follow m feature) := by
  obtain rfl : t.className = className := h.1
  unfold featureStep Traversal.follow
  rw [← m.feature?_eq]
  cases (m.feature? t.className feature).filter (·.isReference) with
  | some f => exact h.extend (Turns.out feature) fun _ => rfl
  | none => exact h.extend (Turns.values feature) fun _ => rfl

theorem call_computes (name : String) (h : Computes (className, is) t) :
    Option.Rel Computes ((traversalCall? name).map fun call =>
      (if call.2 then className else none, is ++ [Instruction.step call.1 (callArguments call.1)])) (t.call? name) := by
  obtain rfl : t.className = className := h.1
  unfold traversalCall?
  split
  · exact .some (h.extend (Turns.readStep [] (rfl : Step.ofName? "count" = _) (by decide)) fun _ => rfl)
  · exact .some (h.extend (Turns.readStep [] (rfl : Step.ofName? "isEmpty" = _) (by decide)) fun _ => rfl)
  · exact .some (h.extend (Turns.readStep [] (rfl : Step.ofName? "hasNext" = _) (by decide)) fun _ => rfl)
  · exact .some (h.extend (Turns.readStep [] (rfl : Step.ofName? "dedup" = _) (by decide)) fun _ => rfl)
  · have hlimit := Turns.readStep [.literal (.integer 1)] (rfl : Step.ofName? "limit" = _) (by decide)
    exact .some (h.extend hlimit fun _ => rfl)
  · unfold Traversal.call?
    split
    · contradiction
    · contradiction
    · contradiction
    · contradiction
    · contradiction
    · exact .none

theorem translateCall_traversal (node : Expr) (name : String) (arguments : List Expr)
    (h : Computes (className, is) t) :
    Agrees Translated.steps? Computes (translateCall node className is name arguments.length)
      (if arguments.isEmpty then t.call? name else none) := by
  have hcall := call_computes name h
  unfold translateCall
  cases arguments with
  | nil =>
    cases hname : traversalCall? name with
    | none =>
      rw [hname] at hcall
      cases hcall' : t.call? name with
      | none => rfl
      | some t' => rw [hcall'] at hcall; cases hcall
    | some call =>
      rw [hname] at hcall
      exact hcall
  | cons e es =>
    split
    · rfl
    · rfl

theorem map_computes {parameter : Option String} {body : Reading Value} {u : Term}
    (h : Computes (className, is) t) (hbody : ∀ w v, evaluate w [(boundName parameter, v)] u = body w v) :
    Computes (none, is ++ [Instruction.closure "transform" parameter [.statement u]]) (t.map body) :=
  h.extend (Turns.transform hbody) fun _ => rfl

theorem iterate_computes (kind : Expr.IteratorKind) {declared : Option String} {body : Reading Value} {u : Term}
    (h : Computes (className, is) t) (hbody : ∀ w v, evaluate w [(boundName declared, v)] u = body w v) :
    Option.Rel Computes (iterated className is kind declared u).steps? (some (t.iterate body kind)) := by
  obtain rfl : t.className = className := h.1
  cases kind with
  | select => exact .some (h.extend (Turns.select hbody) fun _ => rfl)
  | reject => exact .some (h.extend (Turns.reject hbody) fun _ => rfl)
  | collect => exact .some (map_computes h hbody)
  | exist =>
    have hnext := Turns.readStep [] (rfl : Step.ofName? "hasNext" = _) (by decide)
    refine .some (h.extend ((Turns.select hbody).append hnext) fun w => ?_)
    congr 1
    funext items
    cases verdicts body (fun v => .badFilter [v]) w items with
    | error e => rfl
    | ok judged => simp [readStep, isEmpty_filter]
  | forAll =>
    have hempty := Turns.readStep [] (rfl : Step.ofName? "isEmpty" = _) (by decide)
    refine .some (h.extend ((Turns.reject hbody).append hempty) fun w => ?_)
    congr 1
    funext items
    cases verdicts body (.unaryMismatch .not) w items with
    | error e => rfl
    | ok judged => simp [readStep, isEmpty_filter, List.all_eq_not_any_not]

end Steps

theorem translate_traversal (m : Metamodel) : (e : Expr) →
    Agrees Translated.steps? Computes (translate m none .root e) (traversal? m e)
  | .literal .. => by
    simp only [translate, traversal?]
    exact .none
  | .var span name => by
    simp only [translate, traversal?, translateName]
    split
    · rfl
    · split
      · exact .none
      · exact .none
  | .collection _ _ items => by
    simp only [translate, traversal?]
    apply Agrees.bind_none
    intro ts
    exact .none
  | .extent span metamodel className => by
    simp only [translate, traversal?, translateExtent]
    by_cases hclass : m.isEmpty ∨ m.hasClass className
    · rw [if_pos hclass, if_neg (by simpa [or_iff_not_imp_left] using hclass)]
      exact .some ⟨rfl, Turns.extent className⟩
    · rw [if_neg hclass, if_pos (by simpa using hclass)]
      rfl
  | .navigation _ source feature => by
    simp only [translate, traversal?]
    apply (translate_traversal m source).bind
    · rintro (⟨className, is⟩ | t) _ t ⟨⟩ h
      exact .some (follow_computes m feature h)
    · rintro (_ | t) ⟨⟩
      exact .none
  | .collectionCall span source name arguments => by
    simp only [translate, traversal?]
    apply (translate_traversal m source).bind
    · rintro (⟨className, is⟩ | t) _ t ⟨⟩ h
      exact translateCall_traversal _ name arguments h
    · rintro (_ | t) ⟨⟩
      simp only
      split
      · rfl
      · apply Agrees.bind_none
        intro right
        exact .none
  | .iterator span source kind declared body => by
    simp only [translate, traversal?]
    apply (translate_traversal m source).bind
    · rintro (⟨className, is⟩ | t) _ t ⟨⟩ h
      simp only
      rw [← bind_assoc]
      obtain rfl : t.className = className := h.1
      have hbody := (translate_value (resolves_item m declared t.className) body .body).asTerm body
      apply hbody.bind
      · rintro u _ reading ⟨⟩ hr
        exact iterate_computes kind h fun w v => hr w v _ rfl
      · rintro u ⟨⟩
    · rintro (_ | t) ⟨⟩
      rfl
  | .binary _ op left right => by
    simp only [translate, traversal?]
    apply (translate_traversal m left).bind
    · rintro (⟨className, is⟩ | t) _ t ⟨⟩ h
      rw [← bind_assoc]
      apply ((translate_value (resolves_root m) right .operand).asTerm right).bind
      · rintro r _ reading ⟨⟩ hr
        refine .some (map_computes h fun w v => ?_)
        rw [evaluate_combineTerms, hr w () [(boundName none, v)] (.inr ⟨v, rfl⟩), evaluate]
        exact congrArg (binary op · _) (valueOf_bound w implicitName v)
      · rintro r ⟨⟩
    · rintro (_ | t) ⟨⟩
      apply Agrees.bind_none
      intro t
      apply Agrees.bind_none
      intro r
      exact .none
  | .unary _ op operand => by
    simp only [translate, traversal?]
    apply (translate_traversal m operand).bind
    · rintro (⟨className, is⟩ | t) _ t ⟨⟩ h
      refine .some (map_computes h fun w v => ?_)
      rw [evaluate, evaluate, boundName, Option.getD_none, valueOf_bound, ok_bind]
      cases op <;> rfl
    · rintro (_ | t) ⟨⟩
      exact .none
  | .operation .. => by
    simp only [translate, traversal?]
    rfl
  | .typeName .. => by
    simp only [translate, traversal?]
    rfl
  | .conditional .. => by
    simp only [translate, traversal?]
    rfl
  | .letIn .. => by
    simp only [translate, traversal?]
    rfl

def Realises (s : Script) (denoted : World → Except RunError (List Value)) : Prop :=
  ∀ (env : Environment) (stores : Stores), stores.Consistent →
    run env s stores = (denoted ⟨env, stores⟩, stores)

theorem translate_whole (m : Metamodel) (e : Expr) :
    Agrees some (fun t denoted => Realises t.script denoted) (translate m none .root e) (whole? m e) := by
  have hvalue := translate_value (resolves_root m) e .root
  have htraversal := translate_traversal m e
  unfold whole?
  generalize translate m none .root e = x at hvalue htraversal
  rcases x with err | (⟨className, is⟩ | t)
  · rw [show traversal? m e = none from htraversal, show value? rootName e = none from hvalue]
    rfl
  · obtain ⟨t, ht, -, hturns⟩ := htraversal.exists_some rfl
    rw [ht]
    exact .some fun env stores hs => hturns env stores [] hs
  · obtain ⟨reading, hreading, heval⟩ := hvalue.exists_some rfl
    rw [htraversal.eq_none rfl, hreading]
    refine .some fun env stores _ => ?_
    rw [run, Translated.script, runBlock_singleton, runInstruction, heval ⟨env, stores⟩ () [] (.inl rfl)]
    simp only
    cases reading ⟨env, stores⟩ () <;> rfl

theorem inspected_eq_ok {checked : Bool} {s s' : Script} :
    inspected checked s = .ok s' ↔ s = s' ∧ (checked → s.validate = .ok ()) := by
  cases checked with
  | false => simp [inspected, pure, Except.pure]
  | true =>
    cases hvalid : s.validate with
    | error cause => simp [inspected, hvalid, Except.mapError]
    | ok u => simp [inspected, hvalid, Except.mapError, pure, Except.pure]

end GraphQuery.Compile

namespace GraphQuery

open Compile Machine Meaning

theorem Expr.compile_eq_ok {m : Metamodel} {e : Expr} {checked : Bool} {s : Script} :
    e.compile m checked = .ok s ↔
      ∃ t, translate m none .root e = .ok t ∧ t.script = s ∧ (checked → t.script.validate = .ok ()) := by
  rw [compile_eq, bind_eq_ok]
  simp only [inspected_eq_ok]

theorem Expr.exists_compile {m : Metamodel} {e : Expr} {denoted : World → Except RunError (List Value)}
    (h : whole? m e = some denoted) : ∃ s, e.compile m false = .ok s ∧ Realises s denoted := by
  have hwhole := translate_whole m e
  rw [h] at hwhole
  cases ht : translate m none .root e with
  | error err =>
    rw [ht] at hwhole
    cases hwhole
  | ok t =>
    rw [ht] at hwhole
    obtain ⟨_, ⟨⟩, hrealises⟩ := hwhole.exists_some rfl
    exact ⟨t.script, compile_eq_ok.2 ⟨t, ht, rfl, nofun⟩, hrealises⟩

/-- An expression compiles if and only if it has a meaning, the check of scripts only refuses invalid ones,
and any run of the script over consistent stores gives what the expression denotes, a failure included, and
changes nothing. -/
theorem Expr.compile_preserves_meaning (m : Metamodel) (e : Expr) :
    ((∃ s, e.compile m false = .ok s) ↔ (whole? m e).isSome) ∧
      (∀ s, e.compile m true = .ok s ↔ e.compile m false = .ok s ∧ s.validate = .ok ()) ∧
      ∀ checked s, e.compile m checked = .ok s → ∃ denoted, whole? m e = some denoted ∧
        ∀ env stores, stores.Consistent → Machine.run env s stores = (denoted ⟨env, stores⟩, stores) := by
  have hwhole := translate_whole m e
  refine ⟨⟨?_, ?_⟩, fun s => ?_, fun checked s hs => ?_⟩
  · rintro ⟨s, hs⟩
    obtain ⟨t, ht, -⟩ := compile_eq_ok.1 hs
    rw [ht] at hwhole
    obtain ⟨denoted, hdenoted, -⟩ := hwhole.exists_some rfl
    rw [hdenoted]
    rfl
  · intro hsome
    obtain ⟨denoted, hdenoted⟩ := Option.isSome_iff_exists.1 hsome
    obtain ⟨s, hs, -⟩ := exists_compile hdenoted
    exact ⟨s, hs⟩
  · rw [compile_eq_ok, compile_eq_ok]
    constructor
    · rintro ⟨t, ht, rfl, hvalid⟩
      exact ⟨⟨t, ht, rfl, nofun⟩, hvalid rfl⟩
    · rintro ⟨⟨t, ht, rfl, -⟩, hvalid⟩
      exact ⟨t, ht, rfl, fun _ => hvalid⟩
  · obtain ⟨t, ht, rfl, -⟩ := compile_eq_ok.1 hs
    rw [ht] at hwhole
    exact hwhole.exists_some rfl

theorem Meaning.Traversal.items_select {t : Traversal} {body : Reading Value} {w : World} {items : List Value}
    {p : Value → Bool} (hitems : t.items w = .ok items)
    (hbody : ∀ item ∈ items, body w item = .ok (.boolean (p item))) :
    (t.iterate body .select).items w = .ok (items.filter p) := by
  have hverdicts : verdicts body (fun v => .badFilter [v]) w items = .ok (items.map fun item => (item, p item)) := by
    apply mapM_eq_pure
    intro item hitem
    rw [verdict, hbody item hitem]
    rfl
  change t.items w >>= (fun items => verdicts body (fun v => .badFilter [v]) w items >>= fun judged =>
    pure ((judged.filter (·.2)).map (·.1))) = _
  rw [hitems, ok_bind, hverdicts, ok_bind, List.filter_map, List.map_map]
  exact congrArg Except.ok (List.map_id _)

namespace Staff

def model : Metamodel :=
  ((Metamodel.mk ∅).withClass (((MetaClass.mk "Person" []).withAttribute "age").withReference "boss" "Boss")).withClass
    ((MetaClass.mk "Team" []).withAttribute "limit")

def person : Element :=
  { Element.withLabels ⟨⟨1⟩, ⟨1⟩⟩ ["Person"] with properties := Dict.empty.insert "age" (.integer 30) }

def boss : Element := .withLabels ⟨⟨1⟩, ⟨2⟩⟩ ["Boss"]

def store : Graph where
  id := ⟨1⟩
  name := "staff"
  ids := ⟨3⟩
  elements := #[person, boss]
  index := (({} : Std.HashMap ElementId Nat).insert ⟨1⟩ 0).insert ⟨2⟩ 1
  edges := #[⟨⟨1⟩, "boss", ⟨2⟩⟩]

def world : World :=
  ⟨(Dict.empty.insert inputName (.store store.handle)).insert "limit" (.value (.integer 5)), ⟨[store]⟩⟩

theorem consistent_store : store.Consistent := by
  have hadded : (((Graph.empty ⟨1⟩ "staff").add ["Person"] person.properties).2.add ["Boss"] ∅).2.Consistent :=
    ((Graph.consistent_empty ⟨1⟩ "staff").add rfl ["Person"] person.properties).add rfl ["Boss"] ∅
  have hindex : ∀ id, store.index.contains id ↔ ∃ k, store.index[id]? = some k := by
    intro id
    rw [Std.HashMap.contains_eq_isSome_getElem?, Option.isSome_iff_exists]
  refine { hadded with edges := ?_ }
  intro e he
  obtain rfl := List.mem_singleton.1 (Array.mem_toList_iff.2 he)
  exact ⟨(hindex _).2 ⟨0, (hadded.index _ 0).2 (by decide)⟩, (hindex _).2 ⟨1, (hadded.index _ 1).2 (by decide)⟩⟩

theorem consistent_stores : world.stores.Consistent := by
  intro g hg
  rw [List.mem_singleton.1 hg]
  exact consistent_store

theorem lookup_eq {e : Element} (h : e ∈ store.elements.toList) : world.lookup e.ref = .ok e := by
  obtain ⟨hstore, hfind⟩ := consistent_store.find?_of_mem h
  have hcontents : world.contents e.ref = .ok store := by
    rw [World.contents, World.graphOf, hstore]
    rfl
  rw [World.lookup, hcontents, ok_bind, hfind]

def people : Traversal := ⟨some "Person", extent "Person"⟩

theorem traversal?_people (span : Span) : traversal? model (.extent span none "Person") = some people := by
  rw [traversal?, if_pos (by decide)]
  rfl

def olderThanLimit : Expr :=
  .iterator ⟨0, 43⟩ (.extent ⟨0, 21⟩ none "Person") .select none
    (.binary ⟨30, 42⟩ .greater (.var ⟨30, 33⟩ "age") (.var ⟨36, 41⟩ "limit"))

theorem whole?_olderThanLimit : whole? model olderThanLimit = some (people.iterate
    (fun w item => binary .greater (navigation w "age" item) (w.valueOf [] "limit")) .select).items := by
  have hage : itemName model none people.className "age" = some fun w item => navigation w "age" item := by
    rw [itemName, if_neg (by decide), if_pos (by decide)]
  have hlimit : itemName model none people.className "limit" = some fun w _ => w.valueOf [] "limit" := by
    rw [itemName, if_neg (by decide), if_neg (by decide)]
  rw [whole?, olderThanLimit, traversal?, traversal?_people]
  simp only [Option.bind_eq_bind, Option.bind_some, value?, hage, hlimit]

theorem run_olderThanLimit : world.stores.Consistent ∧ ∃ s, olderThanLimit.compile model false = .ok s ∧
    Machine.run world.environment s world.stores = (.ok [.element person.ref], world.stores) := by
  obtain ⟨hcompiles, -, hruns⟩ := Expr.compile_preserves_meaning model olderThanLimit
  rw [whole?_olderThanLimit] at hcompiles hruns
  obtain ⟨s, hs⟩ := hcompiles.2 rfl
  obtain ⟨_, ⟨⟩, hrun⟩ := hruns false s hs
  refine ⟨consistent_stores, s, hs, ?_⟩
  have hage : navigation world "age" (.element person.ref) = .ok (.integer 30) := by
    rw [navigation, lookup_eq List.mem_cons_self]
    rfl
  have hpeople : people.items world = .ok [.element person.ref] := rfl
  rw [hrun _ _ consistent_stores]
  apply congrArg (·, world.stores)
  apply Traversal.items_select (p := fun _ => true) hpeople
  intro item hitem
  rw [List.mem_singleton.1 hitem, hage]
  rfl

def bosses : Traversal := people.follow model "boss"

def overLimit : Expr :=
  .iterator ⟨0, 45⟩ (.navigation ⟨0, 26⟩ (.extent ⟨0, 21⟩ none "Person") "boss") .select none
    (.binary ⟨35, 44⟩ .greater (.var ⟨35, 40⟩ "limit") (.literal ⟨43, 44⟩ (.integer 3)))

theorem traversal?_bosses (outer inner : Span) :
    traversal? model (.navigation outer (.extent inner none "Person") "boss") = some bosses := by
  rw [traversal?, traversal?_people]
  rfl

theorem whole?_overLimit : whole? model overLimit = some (bosses.iterate
    (fun w item => binary .greater (navigation w "limit" item) (.ok (.integer 3))) .select).items := by
  have hlimit : itemName model none bosses.className "limit" = some fun w item => navigation w "limit" item := by
    rw [itemName, if_neg (by decide), if_pos (by decide)]
  rw [whole?, overLimit, traversal?, traversal?_bosses]
  simp only [Option.bind_eq_bind, Option.bind_some, value?, hlimit]
  rfl

/-- Where the class is not known, the feature of any class takes a name from the environment: the boss, whom the value
of the environment would select, is left out. -/
theorem run_overLimit : bosses.className = some "Boss" ∧ ¬ model.isEmpty ∧ ¬ DeclaresFor model "Boss" "limit" ∧
    (bosses.iterate (fun w _ => binary .greater (w.valueOf [] "limit") (.ok (.integer 3))) .select).items world =
      .ok [.element boss.ref] ∧
    ∃ s, overLimit.compile model false = .ok s ∧
      Machine.run world.environment s world.stores = (.ok [], world.stores) := by
  have hbosses : bosses.items world = .ok [.element boss.ref] := rfl
  have hlimit : navigation world "limit" (.element boss.ref) = .ok .null := by
    rw [navigation, lookup_eq (List.mem_cons_of_mem _ List.mem_cons_self)]
    rfl
  refine ⟨rfl, by decide, by decide, ?_, ?_⟩
  · apply Traversal.items_select (p := fun _ => true) hbosses
    intro item hitem
    rfl
  · obtain ⟨s, hs, hrun⟩ := Expr.exists_compile whole?_overLimit
    refine ⟨s, hs, (hrun _ _ consistent_stores).trans (congrArg (·, world.stores) ?_)⟩
    apply Traversal.items_select (p := fun _ => false) hbosses
    intro item hitem
    rw [List.mem_singleton.1 hitem, hlimit]
    rfl

end Staff

end GraphQuery
