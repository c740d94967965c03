import GraphQuery.Error
import GraphQuery.Proofs.Compile.Preservation
import GraphQuery.Proofs.Expr.Nodes

namespace GraphQuery.Compile

open Meaning

inductive IsValue (declared : Option String) : Expr → Prop
  | literal (span : Span) (value : Literal) : IsValue declared (.literal span value)
  | var (span : Span) {name : String} (h : name = implicitName → declared = some implicitName) :
      IsValue declared (.var span name)
  | collection (span : Span) (kind : Expr.CollectionKind) {items : List Expr}
      (h : ∀ e ∈ items, IsValue declared e) : IsValue declared (.collection span kind items)
  | navigation (span : Span) {source : Expr} (feature : String) (h : IsValue declared source) :
      IsValue declared (.navigation span source feature)
  | operation (span : Span) {source argument : Expr} {name : String}
      (hname : name ∈ ["union", "including", "intersection"]) (hs : IsValue declared source)
      (ha : IsValue declared argument) : IsValue declared (.collectionCall span source name [argument])
  | binary (span : Span) (op : Expr.BinaryOp) {left right : Expr} (hl : IsValue declared left)
      (hr : IsValue declared right) : IsValue declared (.binary span op left right)
  | unary (span : Span) (op : Expr.UnaryOp) {operand : Expr} (h : IsValue declared operand) :
      IsValue declared (.unary span op operand)

inductive IsTraversal (m : Metamodel) : Expr → Prop
  | extent (span : Span) (metamodel : Option String) {className : String}
      (h : m.isEmpty = true ∨ m.hasClass className = true) : IsTraversal m (.extent span metamodel className)
  | navigation (span : Span) {source : Expr} (feature : String) (h : IsTraversal m source) :
      IsTraversal m (.navigation span source feature)
  | call (span : Span) {source : Expr} {name : String}
      (hname : name ∈ ["size", "isEmpty", "notEmpty", "asSet", "first"]) (h : IsTraversal m source) :
      IsTraversal m (.collectionCall span source name [])
  | iterator (span : Span) {source body : Expr} (kind : Expr.IteratorKind) {declared : Option String}
      (hs : IsTraversal m source) (hb : IsValue declared body) :
      IsTraversal m (.iterator span source kind declared body)
  | binary (span : Span) (op : Expr.BinaryOp) {left right : Expr} (hl : IsTraversal m left)
      (hr : IsValue none right) : IsTraversal m (.binary span op left right)
  | unary (span : Span) (op : Expr.UnaryOp) {operand : Expr} (h : IsTraversal m operand) :
      IsTraversal m (.unary span op operand)

section Meanings

variable {ι : Type} {names : String → Option (Reading ι)} {declared : Option String}

theorem isSome_operation? (name : String) :
    (operation? name).isSome = true ↔ name ∈ ["union", "including", "intersection"] := by
  unfold operation?
  split <;> simp_all

theorem isSome_call? (t : Traversal) (name : String) :
    (t.call? name).isSome = true ↔ name ∈ ["size", "isEmpty", "notEmpty", "asSet", "first"] := by
  unfold Traversal.call?
  split <;> simp_all

def Admits (names : String → Option (Reading ι)) (declared : Option String) : Prop :=
  ∀ name, (names name).isSome = true ↔ (name = implicitName → declared = some implicitName)

theorem admits_rootName : Admits rootName none := by
  intro name
  unfold rootName
  split <;> simp_all

theorem admits_itemName (m : Metamodel) (declared className : Option String) :
    Admits (itemName m declared className) declared := by
  intro name
  unfold itemName
  cases declared with
  | some given =>
    by_cases hgiven : name = given
    · simp [hgiven]
    · by_cases hname : name = implicitName
      · simp [← hname, hgiven, Ne.symm hgiven]
      · simp [hgiven, hname]
  | none =>
    by_cases hname : name = implicitName
    · simp [hname]
    · simp only [hname, if_false, false_implies, iff_true]
      split <;> rfl

theorem isSome_bind_iff {α β : Type} {x : Option α} {f : α → Option β} {p : Prop}
    (hf : ∀ a, (f a).isSome = true ↔ p) : (x >>= f).isSome = true ↔ x.isSome = true ∧ p := by
  cases x with
  | none => simp
  | some a => simpa using hf a

theorem isSome_bind_some {α β : Type} (x : Option α) (f : α → β) :
    (x >>= fun a => some (f a)).isSome = true ↔ x.isSome = true := by
  cases x <;> rfl

mutual
theorem isSome_value? (h : Admits names declared) :
    (e : Expr) → ((value? names e).isSome = true ↔ IsValue declared e)
  | .literal span value => by
    rw [value?]
    exact iff_of_true rfl (.literal span value)
  | .var span name => by
    rw [value?, h name]
    constructor
    · exact .var span
    · rintro ⟨⟩
      assumption
  | .collection span kind items => by
    rw [value?, isSome_bind_some, isSome_values? h items]
    constructor
    · exact .collection span kind
    · rintro ⟨⟩
      assumption
  | .navigation span source feature => by
    rw [value?, isSome_bind_some, isSome_value? h source]
    constructor
    · exact .navigation span feature
    · rintro ⟨⟩
      assumption
  | .collectionCall span source name arguments => by
    rw [value?, isSome_bind_iff fun _ => isSome_bind_iff fun _ => isSome_bind_some _ _,
      isSome_value? h source, isSome_operation?, isSome_sole? h arguments]
    constructor
    · rintro ⟨hs, hname, argument, rfl, ha⟩
      exact .operation span hname hs ha
    · rintro (⟨⟩ | ⟨⟩ | ⟨⟩ | ⟨⟩ | ⟨_, hname, hs, ha⟩)
      exact ⟨hs, hname, _, rfl, ha⟩
  | .binary span op left right => by
    rw [value?, isSome_bind_iff fun _ => isSome_bind_some _ _,
      isSome_value? h left, isSome_value? h right]
    constructor
    · rintro ⟨hl, hr⟩
      exact .binary span op hl hr
    · rintro ⟨⟩
      exact ⟨‹_›, ‹_›⟩
  | .unary span op operand => by
    rw [value?, isSome_bind_some, isSome_value? h operand]
    constructor
    · exact .unary span op
    · rintro ⟨⟩
      assumption
  | .typeName .. | .extent .. | .operation .. | .iterator .. | .conditional .. | .letIn .. => by
    simp only [value?, Option.isSome_none, Bool.false_eq_true, false_iff]
    rintro ⟨⟩

theorem isSome_values? (h : Admits names declared) :
    (es : List Expr) → ((values? names es).isSome = true ↔ ∀ e ∈ es, IsValue declared e)
  | [] => by simp [values?]
  | e :: es => by
    rw [values?, isSome_bind_iff fun _ => isSome_bind_some _ _, isSome_value? h e,
      isSome_values? h es, List.forall_mem_cons]

theorem isSome_sole? (h : Admits names declared) :
    (es : List Expr) → ((sole? names es).isSome = true ↔ ∃ e, es = [e] ∧ IsValue declared e)
  | [] | _ :: _ :: _ => by simp [sole?]
  | [e] => by
    rw [sole?, isSome_value? h e]
    simp
end

theorem isSome_traversal? (m : Metamodel) : (e : Expr) → ((traversal? m e).isSome = true ↔ IsTraversal m e)
  | .extent span metamodel className => by
    rw [traversal?]
    split
    · exact iff_of_true rfl (.extent span metamodel ‹_›)
    · refine iff_of_false (by simp) ?_
      rintro ⟨⟩
      contradiction
  | .navigation span source feature => by
    rw [traversal?, isSome_bind_some, isSome_traversal? m source]
    constructor
    · exact .navigation span feature
    · rintro ⟨⟩
      assumption
  | .collectionCall span source name arguments => by
    have hcall : ∀ t : Traversal, (if arguments.isEmpty then t.call? name else none).isSome = true ↔
        arguments = [] ∧ name ∈ ["size", "isEmpty", "notEmpty", "asSet", "first"] := by
      intro t
      cases arguments with
      | nil => simpa using isSome_call? t name
      | cons e es => simp
    rw [traversal?, isSome_bind_iff hcall, isSome_traversal? m source]
    constructor
    · rintro ⟨hs, rfl, hname⟩
      exact .call span hname hs
    · rintro (⟨⟩ | ⟨⟩ | ⟨_, hname, hs⟩)
      exact ⟨hs, rfl, hname⟩
  | .iterator span source kind declared body => by
    have hbody : ∀ t : Traversal, (value? (itemName m declared t.className) body >>= fun body =>
        some (t.iterate body kind)).isSome = true ↔ IsValue declared body := by
      intro t
      rw [isSome_bind_some, isSome_value? (admits_itemName m declared t.className)]
    rw [traversal?, isSome_bind_iff hbody, isSome_traversal? m source]
    constructor
    · rintro ⟨hs, hb⟩
      exact .iterator span kind hs hb
    · rintro ⟨⟩
      exact ⟨‹_›, ‹_›⟩
  | .binary span op left right => by
    rw [traversal?, isSome_bind_iff fun _ => (isSome_bind_some _ _).trans (isSome_value? admits_rootName right),
      isSome_traversal? m left]
    constructor
    · rintro ⟨hl, hr⟩
      exact .binary span op hl hr
    · rintro ⟨⟩
      exact ⟨‹_›, ‹_›⟩
  | .unary span op operand => by
    rw [traversal?, isSome_bind_some, isSome_traversal? m operand]
    constructor
    · exact .unary span op
    · rintro ⟨⟩
      assumption
  | .literal .. | .var .. | .typeName .. | .operation .. | .collection .. | .conditional .. | .letIn .. => by
    simp only [traversal?, Option.isSome_none, Bool.false_eq_true, false_iff]
    rintro ⟨⟩

theorem isSome_whole? (m : Metamodel) (e : Expr) :
    (whole? m e).isSome = true ↔ IsValue none e ∨ IsTraversal m e := by
  rw [← isSome_value? admits_rootName, ← isSome_traversal? m e, whole?]
  cases traversal? m e <;> simp

end Meanings

theorem Agrees.exists_ok {τ β : Type} {R : τ → β → Prop} {x : Except Error τ} {d : Option β}
    (h : Agrees some R x d) : (∃ t, x = .ok t) ↔ d.isSome = true := by
  cases x with
  | error err =>
    rw [show d = none from h]
    simp
  | ok t =>
    obtain ⟨b, rfl, -⟩ := h.exists_some rfl
    simp

section Refusals

variable {m : Metamodel} {scope : Option IteratorScope} {context : Context}

theorem inner_ne_root (context : Context) : context.inner ≠ .root := by
  cases context <;> simp [Context.inner]

theorem translateName_value {node : Expr} {name : String} {t : Translated}
    (h : translateName m scope node name = .ok t) : ∃ u, t = .value u := by
  unfold translateName at h
  split at h
  · cases h
  · split at h <;> cases h <;> exact ⟨_, rfl⟩

theorem translate_inner (hc : context ≠ .root) : (e : Expr) → ∀ {t : Translated},
    translate m scope context e = .ok t → ∃ u, t = .value u
  | .literal .., t, h => by
    rw [translate] at h
    cases h
    exact ⟨_, rfl⟩
  | .var .., t, h => by
    rw [translate] at h
    exact translateName_value h
  | .collection .., t, h => by
    rw [translate] at h
    obtain ⟨ts, -, ⟨⟩⟩ := bind_eq_ok.1 h
    exact ⟨_, rfl⟩
  | .extent .., t, h => by
    rw [translate] at h
    cases context with
    | root => exact absurd rfl hc
    | operand => cases h
    | body => cases h
  | .navigation _ source _, t, h => by
    rw [translate] at h
    obtain ⟨s, hs, h⟩ := bind_eq_ok.1 h
    obtain ⟨u, rfl⟩ := translate_inner hc source hs
    cases h
    exact ⟨_, rfl⟩
  | .collectionCall _ source name _, t, h => by
    rw [translate] at h
    obtain ⟨s, hs, h⟩ := bind_eq_ok.1 h
    obtain ⟨u, rfl⟩ := translate_inner hc source hs
    simp only at h
    split at h
    · cases h
    · obtain ⟨r, -, ⟨⟩⟩ := bind_eq_ok.1 h
      exact ⟨_, rfl⟩
  | .iterator _ source _ _ _, t, h => by
    rw [translate] at h
    obtain ⟨s, hs, h⟩ := bind_eq_ok.1 h
    obtain ⟨u, rfl⟩ := translate_inner hc source hs
    cases h
  | .binary _ _ left _, t, h => by
    rw [translate] at h
    obtain ⟨l, hl, h⟩ := bind_eq_ok.1 h
    obtain ⟨u, rfl⟩ := translate_inner hc left hl
    obtain ⟨_, -, h⟩ := bind_eq_ok.1 h
    obtain ⟨r, -, ⟨⟩⟩ := bind_eq_ok.1 h
    exact ⟨_, rfl⟩
  | .unary _ _ operand, t, h => by
    rw [translate] at h
    obtain ⟨s, hs, h⟩ := bind_eq_ok.1 h
    obtain ⟨u, rfl⟩ := translate_inner hc operand hs
    cases h
    exact ⟨_, rfl⟩
  | .operation .., t, h | .typeName .., t, h | .conditional .., t, h | .letIn .., t, h => by
    rw [translate] at h
    cases h

def Refuses (e : Expr) (err : Error) : Prop :=
  ∃ node reason, err = .refused node reason ∧ node.Occurs e ∧ reason ≠ .notValue

variable {err : Error}

theorem Refuses.here {e : Expr} {reason : Refusal} (h : reason ≠ .notValue) : Refuses e (.refused e reason) :=
  ⟨e, reason, rfl, .here, h⟩

theorem Refuses.inside {c e : Expr} (h : Refuses c err) (hc : c ∈ e.children) : Refuses e err := by
  obtain ⟨node, reason, herr, hnode, hreason⟩ := h
  exact ⟨node, reason, herr, .inside hc hnode, hreason⟩

theorem refuses_operand (hc : context ≠ .root) {e : Expr}
    (h : ∀ {err}, translate m scope context e = .error err → Refuses e err)
    (herr : (translate m scope context e >>= valueOnly e) = .error err) : Refuses e err := by
  obtain herr | ⟨t, ht, herr⟩ := bind_eq_error.1 herr
  · exact h herr
  · obtain ⟨u, rfl⟩ := translate_inner hc e ht
    cases herr

mutual
theorem translate_refuses : (e : Expr) → ∀ {scope : Option IteratorScope} {context : Context} {err : Error},
    translate m scope context e = .error err → Refuses e err
  | .literal .., _, _, err, h => by
    rw [translate] at h
    cases h
  | .var .., scope, _, err, h => by
    rw [translate, translateName] at h
    split at h
    · cases h
      exact .here (by simp)
    · split at h <;> cases h
  | .collection _ _ items, _, context, err, h => by
    rw [translate] at h
    obtain h | ⟨ts, -, ⟨⟩⟩ := bind_eq_error.1 h
    obtain ⟨e, he, hrefuses⟩ := translateAll_refuses items (inner_ne_root context) h
    exact hrefuses.inside he
  | .extent .., _, context, err, h => by
    rw [translate] at h
    cases context with
    | operand =>
      cases h
      exact .here (by simp)
    | body =>
      cases h
      exact .here (by simp)
    | root =>
      rw [translateExtent] at h
      split at h <;> cases h
      exact .here (by simp)
  | .navigation _ source _, _, _, err, h => by
    rw [translate] at h
    obtain h | ⟨t, -, h⟩ := bind_eq_error.1 h
    · exact (translate_refuses source h).inside (by simp [Expr.children])
    · cases t <;> cases h
  | .collectionCall _ source name arguments, _, context, err, h => by
    rw [translate] at h
    obtain h | ⟨t, -, h⟩ := bind_eq_error.1 h
    · exact (translate_refuses source h).inside (by simp [Expr.children])
    cases t with
    | traversal className is =>
      simp only [translateCall] at h
      split at h
      · cases h
        exact .here (by simp)
      · split at h <;> cases h
        exact .here (by simp)
    | value left =>
      simp only at h
      split at h
      · cases h
        exact .here (by simp)
      · obtain h | ⟨r, -, ⟨⟩⟩ := bind_eq_error.1 h
        obtain rfl | ⟨e, he, hrefuses⟩ := translateSole_refuses arguments (inner_ne_root context) h
        · exact .here (by simp)
        · exact hrefuses.inside (List.mem_cons_of_mem _ he)
  | .iterator _ source _ _ body, _, _, err, h => by
    rw [translate] at h
    obtain h | ⟨t, -, h⟩ := bind_eq_error.1 h
    · exact (translate_refuses source h).inside (by simp [Expr.children])
    cases t with
    | value u =>
      cases h
      exact .here (by simp)
    | traversal className is =>
      simp only [← bind_assoc] at h
      obtain h | ⟨u, -, ⟨⟩⟩ := bind_eq_error.1 h
      have hbody := refuses_operand (by simp) (translate_refuses body) h
      exact hbody.inside (by simp [Expr.children])
  | .binary _ _ left right, _, context, err, h => by
    rw [translate] at h
    obtain h | ⟨l, -, h⟩ := bind_eq_error.1 h
    · exact (translate_refuses left h).inside (by simp [Expr.children])
    rw [← bind_assoc] at h
    obtain h | ⟨r, -, h⟩ := bind_eq_error.1 h
    · have hright := refuses_operand (inner_ne_root context) (translate_refuses right) h
      exact hright.inside (by simp [Expr.children])
    · cases l <;> cases h
  | .unary _ _ operand, _, _, err, h => by
    rw [translate] at h
    obtain h | ⟨t, -, h⟩ := bind_eq_error.1 h
    · exact (translate_refuses operand h).inside (by simp [Expr.children])
    · cases t <;> cases h
  | .operation .., _, _, err, h | .typeName .., _, _, err, h | .conditional .., _, _, err, h
  | .letIn .., _, _, err, h => by
    rw [translate] at h
    cases h
    exact .here (by simp)

theorem translateAll_refuses : (es : List Expr) → ∀ {scope : Option IteratorScope} {context : Context} {err : Error},
    context ≠ .root → translateAll m scope context es = .error err → ∃ e ∈ es, Refuses e err
  | [], _, _, err, _, h => by
    rw [translateAll] at h
    cases h
  | e :: es, _, _, err, hc, h => by
    rw [translateAll, ← bind_assoc] at h
    obtain h | ⟨t, -, h⟩ := bind_eq_error.1 h
    · exact ⟨e, List.mem_cons_self, refuses_operand hc (translate_refuses e) h⟩
    · obtain h | ⟨ts, -, ⟨⟩⟩ := bind_eq_error.1 h
      obtain ⟨e', he', hrefuses⟩ := translateAll_refuses es hc h
      exact ⟨e', List.mem_cons_of_mem _ he', hrefuses⟩

theorem translateSole_refuses : (es : List Expr) → ∀ {scope : Option IteratorScope} {context : Context}
    {otherwise err : Error}, context ≠ .root → translateSole m scope context otherwise es = .error err →
    err = otherwise ∨ ∃ e ∈ es, Refuses e err
  | [e], _, _, _, err, hc, h => by
    rw [translateSole] at h
    exact .inr ⟨e, List.mem_cons_self, refuses_operand hc (translate_refuses e) h⟩
  | [], _, _, _, err, _, h | _ :: _ :: _, _, _, _, err, _, h => by
    simp only [translateSole, Except.error.injEq] at h
    exact .inl h.symm
end

end Refusals

end GraphQuery.Compile

namespace GraphQuery

open Compile

theorem Expr.compile_eq_error {m : Metamodel} {e : Expr} {checked : Bool} {err : Compile.Error}
    (h : e.compile m checked = .error err) :
    translate m none .root e = .error err ∨ checked = true ∧ ∃ cause, err = .invalid cause := by
  rw [compile_eq] at h
  obtain h | ⟨t, -, h⟩ := bind_eq_error.1 h
  · exact .inl h
  cases checked with
  | false => cases h
  | true =>
    rw [inspected] at h
    cases hvalid : t.script.validate with
    | ok u =>
      rw [hvalid] at h
      cases h
    | error cause =>
      rw [hvalid] at h
      cases h
      exact .inr ⟨rfl, cause, rfl⟩

/-- Without the check of scripts exactly the value trees and the traversal trees are compiled. Any other expression
fails with an error of compilation at one of its nodes. The arena never fails, with or without the check. -/
theorem Expr.compile_supported (m : Metamodel) (e : Expr) :
    ((∃ s, e.compile m false = .ok s) ↔ IsValue none e ∨ IsTraversal m e) ∧
      (∀ err, e.compile m false = .error err → ∃ node reason, err = .refused node reason ∧ node.Occurs e ∧
        reason ≠ .notValue ∧ (Error.ofCompile err).category = .compilation ∧
        (Error.ofCompile err).display = "Translation error at " ++ node.describe ++ ": " ++ reason.message) ∧
      ∀ checked cause, e.compile m checked ≠ .error (.arena cause) := by
  refine ⟨?_, fun err herr => ?_, fun checked cause herr => ?_⟩
  · rw [← isSome_whole?, ← (translate_whole m e).exists_ok]
    simp [compile_eq_ok]
  · obtain h | ⟨⟨⟩, -⟩ := compile_eq_error herr
    obtain ⟨node, reason, rfl, hnode, hreason⟩ := translate_refuses e h
    exact ⟨node, reason, rfl, hnode, hreason, rfl, rfl⟩
  · obtain h | ⟨-, _, ⟨⟩⟩ := compile_eq_error herr
    obtain ⟨node, reason, ⟨⟩, -⟩ := translate_refuses e h

end GraphQuery
