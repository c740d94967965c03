import GraphQuery.Proofs.Json.Records
import GraphQuery.Proofs.Json.Spelling
import GraphQuery.Script.JsonForm

namespace GraphQuery

namespace Json

mutual
def nesting : Json → Nat
  | array items => 1 + nestingItems items
  | object members => 1 + nestingMembers members
  | _ => 0

def nestingItems : List Json → Nat
  | [] => 0
  | j :: js => max j.nesting (nestingItems js)

def nestingMembers : List (String × Json) → Nat
  | [] => 0
  | (_, j) :: ms => max j.nesting (nestingMembers ms)
end

def ReadsBack (x : Float) : Prop :=
  (ofReal x).real? = some x

theorem nesting_ofText (s : String) : (ofText s).nesting = 0 := rfl

theorem nesting_ofReal (x : Float) : (ofReal x).nesting = 0 := by
  unfold ofReal
  split <;> rfl

theorem legible_ofReal (x : Float) : (ofReal x).Legible := by
  unfold ofReal
  split
  · rename_i hx
    exact isNumber_real hx
  · trivial

end Json

/-- A reader with room for so many brackets refuses what opens more, and otherwise gives the value if and only if
the doubles in it are read back. -/
structure Rereads {α : Type} (read : Nat → Option α) (a : α) (nesting : Nat) (reals : List Float) : Prop where
  refused : ∀ room < nesting, read room = none
  read_iff : ∀ room ≥ nesting, (read room = some a ↔ ∀ x ∈ reals, Json.ReadsBack x)

namespace Rereads

variable {α β γ : Type} {read read' : Nat → Option α} {a : α} {n m : Nat} {xs ys : List Float}

theorem const (a : α) : Rereads (fun _ => some a) a 0 [] where
  refused _ h := absurd h (Nat.not_lt_zero _)
  read_iff _ _ := by simp

theorem both {more : Nat → Option β} {b : β} {f : α → β → γ} (hf : Function.Injective2 f)
    (h : Rereads read a n xs) (h' : Rereads more b m ys) :
    Rereads (fun room => (read room).bind fun a => (more room).bind fun b => some (f a b)) (f a b) (max n m)
      (xs ++ ys) where
  refused room hroom := by
    -- Either part may be the one that nests too deeply.
    by_cases hread : room < n
    · rw [h.refused room hread, Option.bind_none]
    · rw [h'.refused room (by omega)]
      cases read room <;> rfl
  read_iff room hroom := by
    rw [List.forall_mem_append, ← h.read_iff room (by omega), ← h'.read_iff room (by omega)]
    cases read room with
    | none => simp
    | some a' =>
      cases more room with
      | none => simp
      | some b' => simp [hf.eq_iff]

theorem map {f : α → β} (hf : Function.Injective f) (h : Rereads read a n xs) :
    Rereads (fun room => (read room).map f) (f a) n xs where
  refused room hroom := by rw [h.refused room hroom, Option.map_none]
  read_iff room hroom := by
    rw [← h.read_iff room hroom]
    cases read room with
    | none => simp
    | some a' => simp [hf.eq_iff]

theorem inside {k : Nat} (h : Rereads read a n xs) (hnone : ∀ room < k, read' room = none)
    (hsome : ∀ room, read' (room + k) = read room) : Rereads read' a (k + n) xs where
  refused room hroom := by
    by_cases hk : room < k
    · exact hnone room hk
    · obtain ⟨room, rfl⟩ := Nat.exists_eq_add_of_le' (Nat.le_of_not_lt hk)
      rw [hsome, h.refused room (by omega)]
  read_iff room hroom := by
    obtain ⟨room, rfl⟩ := Nat.exists_eq_add_of_le' (show k ≤ room by omega)
    rw [hsome, h.read_iff room (by omega)]

end Rereads

namespace Literal

def reals : Literal → List Float
  | real x => [x]
  | _ => []

theorem legible_toJson (v : Literal) : v.toJson.Legible := by
  cases v with
  | null => exact Json.legible_ofText _
  | boolean b => exact ⟨Json.isBody_of_plain rfl, trivial, trivial⟩
  | integer n => exact ⟨Json.isBody_of_plain rfl, Json.isNumber_integer _, trivial⟩
  | real x => exact ⟨Json.isBody_of_plain rfl, Json.legible_ofReal x, trivial⟩
  | string s => exact ⟨Json.isBody_of_plain rfl, Json.legible_ofText s, trivial⟩

theorem rereads (v : Literal) : Rereads (fun room => ofJson? room v.toJson) v v.toJson.nesting v.reals := by
  have hzero : ∀ key content, ∀ room < 1, ofJson? room (.object [(key, content)]) = none := by
    intro key content room h
    obtain rfl : room = 0 := by omega
    rfl
  cases v with
  | null =>
    have hread : (fun room => ofJson? room null.toJson) = fun _ => some null := by
      funext room
      rw [toJson, Json.ofText, ofJson?, Json.decodeText?_of_plain rfl]
      rfl
    rw [hread]
    exact .const null
  | boolean b =>
    refine (Rereads.const (boolean b)).inside (hzero _ _) fun room => ?_
    rw [toJson, ofJson?, Json.decodeText?_of_plain rfl]
    rfl
  | integer n =>
    refine (Rereads.const (integer n)).inside (hzero _ _) fun room => ?_
    rw [toJson, ofJson?, Json.decodeText?_of_plain rfl]
    simp only [Option.bind_eq_bind, Option.bind_some, Json.integer?_ofInteger, Option.map_some]
  | real x =>
    have hread : Rereads (fun _ => (Json.ofReal x).real?.map real) (real x) 0 [x] := by
      constructor
      · intro room h
        exact absurd h (Nat.not_lt_zero _)
      · intro room _
        rw [List.forall_mem_singleton, Json.ReadsBack, Option.map_eq_some_iff]
        simp
    have hnesting : (real x).toJson.nesting = 1 + 0 := by
      rw [toJson, Json.nesting, Json.nestingMembers, Json.nesting_ofReal]
      rfl
    rw [hnesting]
    refine hread.inside (hzero _ _) fun room => ?_
    rw [toJson, ofJson?, Json.decodeText?_of_plain rfl]
    rfl
  | string s =>
    refine (Rereads.const (string s)).inside (hzero _ _) fun room => ?_
    rw [toJson, ofJson?, Json.decodeText?_of_plain rfl]
    simp only [Option.bind_eq_bind, Option.bind_some, Json.text?_ofText, Option.map_some]

end Literal

namespace Term

mutual
def reals : Term → List Float
  | literal value => value.reals
  | var _ => []
  | property target _ => target.reals
  | list items => realsAll items
  | unary _ operand => operand.reals
  | binary _ left right => left.reals ++ right.reals

def realsAll : List Term → List Float
  | [] => []
  | t :: ts => t.reals ++ realsAll ts
end

mutual
theorem legible_toJson : (t : Term) → t.toJson.Legible
  | literal value => ⟨Json.isBody_of_plain rfl, value.legible_toJson, trivial⟩
  | var name =>
    ⟨Json.isBody_of_plain rfl, ⟨Json.isBody_of_plain rfl, Json.legible_ofText name, trivial⟩, trivial⟩
  | property target name =>
    ⟨Json.isBody_of_plain rfl, ⟨Json.isBody_of_plain rfl, target.legible_toJson, Json.isBody_of_plain rfl,
      Json.legible_ofText name, trivial⟩, trivial⟩
  | list items => ⟨Json.isBody_of_plain rfl, legible_toJsonAll items, trivial⟩
  | unary op operand =>
    ⟨Json.isBody_of_plain rfl, ⟨Json.isBody_of_plain rfl, Json.legible_ofText op.name, Json.isBody_of_plain rfl,
      operand.legible_toJson, trivial⟩, trivial⟩
  | binary op left right =>
    ⟨Json.isBody_of_plain rfl, ⟨Json.isBody_of_plain rfl, Json.legible_ofText op.name, Json.isBody_of_plain rfl,
      left.legible_toJson, Json.isBody_of_plain rfl, right.legible_toJson, trivial⟩, trivial⟩

theorem legible_toJsonAll : (ts : List Term) → Json.LegibleItems (toJsonAll ts)
  | [] => trivial
  | t :: ts => ⟨t.legible_toJson, legible_toJsonAll ts⟩
end

theorem name?_unary (room : Nat) (op : UnaryOp) :
    ((Json.ofText op.name).name? room).bind UnaryOp.ofName? = some op := by
  have hname : (Json.ofText op.name).name? room = some op.name := Json.decodeText?_keyOf op.name
  rw [hname, Option.bind_some]
  cases op <;> rfl

theorem name?_binary (room : Nat) (op : BinaryOp) :
    ((Json.ofText op.name).name? room).bind BinaryOp.ofName? = some op := by
  have hname : (Json.ofText op.name).name? room = some op.name := Json.decodeText?_keyOf op.name
  rw [hname, Option.bind_some]
  cases op <;> rfl

theorem ofJson?_of_lt {key : String} (content : Json) (hplain : Json.keyOf key = key) (hkey : key ≠ "Literal") :
    ∀ room < 2, ofJson? room (.object [(key, content)]) = none := by
  intro room hroom
  obtain rfl | rfl : room = 0 ∨ room = 1 := by omega
  · rfl
  · rw [ofJson?, Json.decodeText?_of_plain hplain, Option.bind_eq_bind, Option.bind_some, if_neg hkey]

section Alternatives

variable (room : Nat)

theorem ofJson?_literal (value : Literal) :
    ofJson? (room + 1) (literal value).toJson = (Literal.ofJson? room value.toJson).map literal := by
  cases room with
  | zero =>
    rw [toJson, ofJson?, Json.decodeText?_of_plain rfl]
    rfl
  | succ room =>
    rw [toJson, ofJson?, Json.decodeText?_of_plain rfl]
    rfl

theorem ofJson?_var (name : String) : ofJson? (room + 2) (var name).toJson = some (var name) := by
  have hfields : (Json.object [("name", Json.ofText name)]).fields? false ["name"] = some [some (Json.ofText name)] :=
    Json.fields?_object false _ (show ∀ n ∈ ["name"], Json.keyOf n = n by decide) (show ["name"].Nodup by decide)
  rw [toJson, ofJson?, Json.decodeText?_of_plain rfl]
  simp only [Option.bind_eq_bind, Option.bind_some]
  rw [hfields]
  dsimp only
  rw [Json.text?_ofText, Option.map_some]

theorem ofJson?_property (target : Term) (name : String) :
    ofJson? (room + 2) (property target name).toJson = (ofJson? room target.toJson).map (property · name) := by
  have hfields : (Json.object [("target", target.toJson), ("name", Json.ofText name)]).fields? false
      ["target", "name"] = some [some target.toJson, some (Json.ofText name)] :=
    Json.fields?_object false _ (show ∀ n ∈ ["target", "name"], Json.keyOf n = n by decide)
      (show ["target", "name"].Nodup by decide)
  rw [toJson, ofJson?, Json.decodeText?_of_plain rfl]
  simp only [Option.bind_eq_bind, Option.bind_some]
  rw [hfields]
  dsimp only
  rw [Json.text?_ofText, Option.map_eq_bind]
  rfl

theorem ofJson?_list (items : List Term) :
    ofJson? (room + 2) (list items).toJson = ((toJsonAll items).mapM (ofJson? room)).map list := by
  rw [toJson, ofJson?, Json.decodeText?_of_plain rfl]
  rfl

theorem ofJson?_unary (op : UnaryOp) (operand : Term) :
    ofJson? (room + 2) (unary op operand).toJson = (ofJson? room operand.toJson).map (unary op) := by
  have hfields : (Json.object [("op", Json.ofText op.name), ("operand", operand.toJson)]).fields? false
      ["op", "operand"] = some [some (Json.ofText op.name), some operand.toJson] :=
    Json.fields?_object false _ (show ∀ n ∈ ["op", "operand"], Json.keyOf n = n by decide)
      (show ["op", "operand"].Nodup by decide)
  rw [toJson, ofJson?, Json.decodeText?_of_plain rfl]
  simp only [Option.bind_eq_bind, Option.bind_some]
  rw [hfields]
  dsimp only
  rw [name?_unary, Option.map_eq_bind]
  rfl

theorem ofJson?_binary (op : BinaryOp) (left right : Term) :
    ofJson? (room + 2) (binary op left right).toJson =
      (ofJson? room left.toJson).bind fun l => (ofJson? room right.toJson).bind fun r => some (binary op l r) := by
  have hfields : (Json.object [("op", Json.ofText op.name), ("left", left.toJson), ("right", right.toJson)]).fields?
      false ["op", "left", "right"] = some [some (Json.ofText op.name), some left.toJson, some right.toJson] :=
    Json.fields?_object false _ (show ∀ n ∈ ["op", "left", "right"], Json.keyOf n = n by decide)
      (show ["op", "left", "right"].Nodup by decide)
  rw [toJson, ofJson?, Json.decodeText?_of_plain rfl]
  simp only [Option.bind_eq_bind, Option.bind_some]
  rw [hfields]
  dsimp only
  rw [name?_binary]
  rfl

end Alternatives

mutual
theorem rereads : (t : Term) → Rereads (fun room => ofJson? room t.toJson) t t.toJson.nesting t.reals
  | literal value => by
    have hnesting : (literal value).toJson.nesting = 1 + value.toJson.nesting := by
      simp only [toJson, Json.nesting, Json.nestingMembers]
      omega
    rw [hnesting]
    refine (value.rereads.map fun _ _ => literal.inj).inside ?_ (ofJson?_literal · value)
    intro room hroom
    obtain rfl : room = 0 := by omega
    rfl
  | var name => (Rereads.const (var name)).inside (ofJson?_of_lt _ rfl (by decide)) (ofJson?_var · name)
  | property target name => by
    have hnesting : (property target name).toJson.nesting = 2 + target.toJson.nesting := by
      simp only [toJson, Json.nesting, Json.nestingMembers, Json.nesting_ofText]
      omega
    rw [hnesting]
    exact (target.rereads.map fun _ _ h => (property.inj h).1).inside (ofJson?_of_lt _ rfl (by decide))
      (ofJson?_property · target name)
  | list items => by
    have hnesting : (list items).toJson.nesting = 2 + Json.nestingItems (toJsonAll items) := by
      simp only [toJson, Json.nesting, Json.nestingMembers]
      omega
    rw [hnesting]
    exact ((rereadsAll items).map fun _ _ => list.inj).inside (ofJson?_of_lt _ rfl (by decide))
      (ofJson?_list · items)
  | unary op operand => by
    have hnesting : (unary op operand).toJson.nesting = 2 + operand.toJson.nesting := by
      simp only [toJson, Json.nesting, Json.nestingMembers, Json.nesting_ofText]
      omega
    rw [hnesting]
    exact (operand.rereads.map fun _ _ h => (unary.inj h).2).inside (ofJson?_of_lt _ rfl (by decide))
      (ofJson?_unary · op operand)
  | binary op left right => by
    have hnesting : (binary op left right).toJson.nesting = 2 + max left.toJson.nesting right.toJson.nesting := by
      simp only [toJson, Json.nesting, Json.nestingMembers, Json.nesting_ofText]
      omega
    rw [hnesting]
    exact (Rereads.both (fun _ _ _ _ h => (binary.inj h).2) left.rereads right.rereads).inside
      (ofJson?_of_lt _ rfl (by decide)) (ofJson?_binary · op left right)

theorem rereadsAll : (ts : List Term) → Rereads (fun room => (toJsonAll ts).mapM (ofJson? room)) ts
    (Json.nestingItems (toJsonAll ts)) (realsAll ts)
  | [] => .const []
  | t :: ts => by
    have h := Rereads.both (fun _ _ _ _ => List.cons.inj) t.rereads (rereadsAll ts)
    simp only [toJsonAll, List.mapM_cons]
    exact h
end

end Term

namespace Instruction

mutual
def reals : Instruction → List Float
  | step _ arguments => Term.realsAll arguments
  | closure _ _ body => realsAll body
  | statement term => term.reals

def realsAll : List Instruction → List Float
  | [] => []
  | i :: is => i.reals ++ realsAll is
end

mutual
theorem legible_toJson : (i : Instruction) → i.toJson.Legible
  | step name arguments =>
    ⟨Json.isBody_of_plain rfl, ⟨Json.isBody_of_plain rfl, Json.legible_ofText name, Json.isBody_of_plain rfl,
      Term.legible_toJsonAll arguments, trivial⟩, trivial⟩
  | closure name _ body =>
    ⟨Json.isBody_of_plain rfl, ⟨Json.isBody_of_plain rfl, Json.legible_ofText name, Json.isBody_of_plain rfl,
      Json.legible_getD fun p _ => Json.legible_ofText p, Json.isBody_of_plain rfl, legible_toJsonAll body, trivial⟩,
      trivial⟩
  | statement term => ⟨Json.isBody_of_plain rfl, term.legible_toJson, trivial⟩

theorem legible_toJsonAll : (is : List Instruction) → Json.LegibleItems (toJsonAll is)
  | [] => trivial
  | i :: is => ⟨i.legible_toJson, legible_toJsonAll is⟩
end

theorem ofJson?_of_lt {key : String} (content : Json) (hplain : Json.keyOf key = key) (hkey : key ≠ "Expression") :
    ∀ room < 3, ofJson? room (.object [(key, content)]) = none := by
  intro room hroom
  obtain rfl | rfl | rfl : room = 0 ∨ room = 1 ∨ room = 2 := by omega
  · rfl
  · rw [ofJson?, Json.decodeText?_of_plain hplain, Option.bind_eq_bind, Option.bind_some, if_neg hkey]
    omega
  · rw [ofJson?, Json.decodeText?_of_plain hplain, Option.bind_eq_bind, Option.bind_some, if_neg hkey]
    omega

section Alternatives

variable (room : Nat)

theorem ofJson?_statement (term : Term) :
    ofJson? (room + 1) (statement term).toJson = (Term.ofJson? room term.toJson).map statement := by
  by_cases hroom : room < 2
  · rw [toJson, ofJson?, Json.decodeText?_of_plain rfl]
    · rfl
    · intro k hk
      omega
  · obtain ⟨room, rfl⟩ := Nat.exists_eq_add_of_le' (Nat.le_of_not_lt hroom)
    rw [toJson, ofJson?, Json.decodeText?_of_plain rfl]
    rfl

theorem ofJson?_step (name : String) (arguments : List Term) :
    ofJson? (room + 3) (step name arguments).toJson =
      ((Term.toJsonAll arguments).mapM (Term.ofJson? room)).map (step name) := by
  have hfields : (Json.object [("name", Json.ofText name), ("arguments", .array (Term.toJsonAll arguments))]).fields?
      false ["name", "arguments"] = some [some (Json.ofText name), some (.array (Term.toJsonAll arguments))] :=
    Json.fields?_object false _ (show ∀ n ∈ ["name", "arguments"], Json.keyOf n = n by decide)
      (show ["name", "arguments"].Nodup by decide)
  rw [toJson, ofJson?, Json.decodeText?_of_plain rfl]
  simp only [Option.bind_eq_bind, Option.bind_some]
  rw [hfields]
  dsimp only
  rw [Json.text?_ofText, Option.map_eq_bind]
  rfl

theorem ofJson?_closure (name : String) (parameter : Option String) (body : List Instruction) :
    ofJson? (room + 3) (closure name parameter body).toJson =
      ((toJsonAll body).mapM (ofJson? room)).map (closure name parameter) := by
  have hfields : (Json.object [("name", Json.ofText name), ("parameter", (parameter.map Json.ofText).getD .null),
      ("body", .array (toJsonAll body))]).fields? false ["name", "parameter", "body"] =
        some [some (Json.ofText name), some ((parameter.map Json.ofText).getD .null), some (.array (toJsonAll body))] :=
    Json.fields?_object false _ (show ∀ n ∈ ["name", "parameter", "body"], Json.keyOf n = n by decide)
      (show ["name", "parameter", "body"].Nodup by decide)
  rw [toJson, ofJson?, Json.decodeText?_of_plain rfl]
  simp only [Option.bind_eq_bind, Option.bind_some]
  rw [hfields]
  dsimp only
  rw [Json.text?_ofText, Json.optional?_getD rfl fun p _ => Json.text?_ofText p, Option.map_eq_bind]
  rfl

end Alternatives

mutual
theorem rereads : (i : Instruction) → Rereads (fun room => ofJson? room i.toJson) i i.toJson.nesting i.reals
  | step name arguments => by
    have hnesting : (step name arguments).toJson.nesting = 3 + Json.nestingItems (Term.toJsonAll arguments) := by
      simp only [toJson, Json.nesting, Json.nestingMembers, Json.nesting_ofText]
      omega
    rw [hnesting]
    exact ((Term.rereadsAll arguments).map fun _ _ h => (step.inj h).2).inside (ofJson?_of_lt _ rfl (by decide))
      (ofJson?_step · name arguments)
  | closure name parameter body => by
    have hparameter : ((parameter.map Json.ofText).getD .null).nesting = 0 := by
      cases parameter <;> rfl
    have hnesting : (closure name parameter body).toJson.nesting = 3 + Json.nestingItems (toJsonAll body) := by
      simp only [toJson, Json.nesting, Json.nestingMembers, Json.nesting_ofText, hparameter]
      omega
    rw [hnesting]
    exact ((rereadsAll body).map fun _ _ h => (closure.inj h).2.2).inside (ofJson?_of_lt _ rfl (by decide))
      (ofJson?_closure · name parameter body)
  | statement term => by
    have hnesting : (statement term).toJson.nesting = 1 + term.toJson.nesting := by
      simp only [toJson, Json.nesting, Json.nestingMembers]
      omega
    rw [hnesting]
    refine (term.rereads.map fun _ _ => statement.inj).inside ?_ (ofJson?_statement · term)
    intro room hroom
    obtain rfl : room = 0 := by omega
    rfl

theorem rereadsAll : (is : List Instruction) → Rereads (fun room => (toJsonAll is).mapM (ofJson? room)) is
    (Json.nestingItems (toJsonAll is)) (realsAll is)
  | [] => .const []
  | i :: is => by
    have h := Rereads.both (fun _ _ _ _ => List.cons.inj) i.rereads (rereadsAll is)
    simp only [toJsonAll, List.mapM_cons]
    exact h
end

end Instruction

namespace Script

def reals (s : Script) : List Float :=
  Instruction.realsAll s.instructions

theorem legible_toJson (s : Script) : s.toJson.Legible :=
  ⟨Json.isBody_of_plain rfl, Instruction.legible_toJsonAll s.instructions, trivial⟩

theorem nesting_toJson (s : Script) :
    s.toJson.nesting = 2 + Json.nestingItems (Instruction.toJsonAll s.instructions) := by
  simp only [toJson, Json.nesting, Json.nestingMembers]
  omega

theorem readJson?_toJson (s : Script) :
    readJson? s.toJson = ((Instruction.toJsonAll s.instructions).mapM
      (Instruction.ofJson? (Json.maxNesting - 2))).map Script.mk := by
  have hfields : s.toJson.fields? false ["instructions"] =
      some [some (.array (Instruction.toJsonAll s.instructions))] :=
    Json.fields?_object false _ (show ∀ n ∈ ["instructions"], Json.keyOf n = n by decide)
      (show ["instructions"].Nodup by decide)
  rw [readJson?, hfields, Option.map_eq_bind]
  rfl

theorem readJson?_eq_none {s : Script} (h : Json.maxNesting < s.toJson.nesting) : readJson? s.toJson = none := by
  have hmax : Json.maxNesting = 127 := rfl
  rw [nesting_toJson] at h
  rw [readJson?_toJson, (Instruction.rereadsAll s.instructions).refused _ (by omega), Option.map_none]

theorem readJson?_eq_some {s : Script} (h : s.toJson.nesting ≤ Json.maxNesting) :
    readJson? s.toJson = some s ↔ ∀ x ∈ s.reals, Json.ReadsBack x := by
  have hmax : Json.maxNesting = 127 := rfl
  rw [nesting_toJson] at h
  rw [reals, ← (Instruction.rereadsAll s.instructions).read_iff (Json.maxNesting - 2) (by omega), readJson?_toJson,
    Option.map_eq_some_iff]
  constructor
  · rintro ⟨is, his, rfl⟩
    exact his
  · intro his
    exact ⟨_, his, rfl⟩

theorem ofJsonText_of_deep {s : Script} (h : Json.maxNesting < s.toJson.nesting) :
    ofJsonText s.toJson.compact = .error .malformed := by
  rw [ofJsonText, Json.parse?_compact s.legible_toJson, Option.bind_some, readJson?_eq_none h]

theorem ofJsonText_eq_ok {s : Script} (hvalid : s.validate = .ok ()) :
    ofJsonText s.toJson.compact = .ok s ↔ readJson? s.toJson = some s := by
  rw [ofJsonText, Json.parse?_compact s.legible_toJson, Option.bind_some]
  constructor
  · intro h
    split at h
    · cases h
    · rename_i s' hread
      split at h
      · cases h
        exact hread
      · cases h
  · intro hread
    rw [hread]
    dsimp only
    rw [hvalid]

/-- A valid script is loaded from its JSON form if and only if the form opens no more brackets than may be open and each
double is read back from its text. A form that opens more is refused. -/
theorem ofJsonText_toJson_iff {s : Script} (hvalid : s.validate = .ok ()) :
    (ofJsonText s.toJson.compact = .ok s ↔
      s.toJson.nesting ≤ Json.maxNesting ∧ ∀ x ∈ s.reals, Json.ReadsBack x) ∧
    (Json.maxNesting < s.toJson.nesting → ofJsonText s.toJson.compact = .error .malformed) := by
  refine ⟨⟨fun h => ?_, fun ⟨hnesting, hreals⟩ => ?_⟩, ofJsonText_of_deep⟩
  · have hnesting : s.toJson.nesting ≤ Json.maxNesting := by
      by_contra hdeep
      rw [ofJsonText_of_deep (by omega)] at h
      cases h
    exact ⟨hnesting, (readJson?_eq_some hnesting).1 ((ofJsonText_eq_ok hvalid).1 h)⟩
  · exact (ofJsonText_eq_ok hvalid).2 ((readJson?_eq_some hnesting).2 hreals)

def tallPeople : Script where
  instructions := [
    .step "V" [.var "input"],
    .closure "filter" (some "p")
      [.statement (.binary .greater (.property (.var "p") "height") (.literal (.real 1.5)))],
    .step "has" [.literal (.string "\"name\"\t\\\x01é"), .list [.literal (.integer (-7)), .literal .null]]]

theorem ofJsonText_tallPeople :
    tallPeople.validate = .ok () ∧ ofJsonText tallPeople.toJson.compact = .ok tallPeople := by
  have hvalid : tallPeople.validate = .ok () := rfl
  have hreal : Json.ReadsBack 1.5 := by
    unfold Json.ReadsBack
    decide +kernel
  refine ⟨hvalid, (ofJsonText_toJson_iff hvalid).1.2 ⟨by decide, ?_⟩⟩
  rw [show tallPeople.reals = [1.5] from rfl, List.forall_mem_singleton]
  exact hreal

def negations : Nat → Term
  | 0 => .var "x"
  | n + 1 => .unary .not (negations n)

theorem check_negations (n : Nat) : (negations n).check = .ok () := by
  induction n with
  | zero => rfl
  | succ n ih => rw [negations, Term.check, ih]

theorem nesting_negations (n : Nat) : (negations n).toJson.nesting = 2 * n + 2 := by
  induction n with
  | zero => rfl
  | succ n ih =>
    simp only [negations, Term.toJson, Json.nesting, Json.nestingMembers, Json.nesting_ofText, ih]
    omega

theorem ofJsonText_negations :
    (Script.mk [.statement (negations 62)]).validate = .ok () ∧
      ofJsonText (Script.mk [.statement (negations 62)]).toJson.compact = .error .malformed := by
  constructor
  · rw [validate, Instruction.checkAll, Instruction.check, check_negations]
    rfl
  · apply ofJsonText_of_deep
    have hmax : Json.maxNesting = 127 := rfl
    simp only [nesting_toJson, Instruction.toJsonAll, Instruction.toJson, Json.nestingItems, Json.nesting,
      Json.nestingMembers, nesting_negations]
    omega

end Script

end GraphQuery
