import GraphQuery.Error
import GraphQuery.Proofs.Except
import Mathlib

namespace GraphQuery

def Term.HasPart : Term → Term → Prop :=
  Relation.ReflTransGen fun t u => u ∈ t.operands

theorem Term.hasPart_iff {t u : Term} : t.HasPart u ↔ t = u ∨ ∃ s ∈ t.operands, s.HasPart u := by
  unfold HasPart
  rw [Relation.ReflTransGen.cases_head_iff]

namespace Machine

def InRange (a : Int) : Prop := -2 ^ 63 ≤ a ∧ a ≤ 2 ^ 63 - 1

theorem inRange_toInt (n : Int64) : InRange n.toInt := by
  have hle := Int64.le_toInt n
  have hlt := Int64.toInt_lt n
  unfold InRange
  omega

theorem inRange_iff (a : Int) : InRange a ↔ Int64.minValue.toInt ≤ a ∧ a ≤ Int64.maxValue.toInt := by
  rw [InRange, Int64.toInt_minValue, Int64.toInt_maxValue]

def integerOp? : Term.BinaryOp → Option (Int → Int → Int)
  | .add => some (· + ·)
  | .subtract => some (· - ·)
  | .multiply => some (· * ·)
  | _ => none

/-- The terms of integers, with their values over all integers. -/
inductive Exact (w : World) (scope : Scope) : Term → Int → Prop
  | literal (n : Int64) : Exact w scope (.literal (.integer n)) n.toInt
  | var {name : String} {n : Int64} (h : w.valueOf scope name = .ok (.integer n)) :
      Exact w scope (.var name) n.toInt
  | negate {t : Term} {a : Int} (h : Exact w scope t a) : Exact w scope (.unary .negate t) (-a)
  | binary {op : Term.BinaryOp} {f : Int → Int → Int} {l r : Term} {a b : Int} (hop : integerOp? op = some f)
      (hl : Exact w scope l a) (hr : Exact w scope r b) : Exact w scope (.binary op l r) (f a b)

variable {w : World} {scope : Scope}

theorem Exact.unique {t : Term} {a b : Int} (h : Exact w scope t a) (h' : Exact w scope t b) : a = b := by
  induction h generalizing b with
  | literal n =>
    cases h'
    rfl
  | var hn =>
    cases h' with
    | var hn' =>
      rw [hn] at hn'
      cases hn'
      rfl
  | negate _ ih =>
    cases h' with
    | negate h' => rw [ih h']
  | binary hop _ _ ihl ihr =>
    cases h' with
    | binary hop' hl' hr' =>
      rw [hop] at hop'
      cases hop'
      rw [ihl hl', ihr hr']

def Bounded (w : World) (scope : Scope) (t : Term) : Prop :=
  ∀ u a, t.HasPart u → Exact w scope u a → InRange a

theorem Exact.bounded_iff {t : Term} {a : Int} (h : Exact w scope t a) :
    Bounded w scope t ↔ (∀ s ∈ t.operands, Bounded w scope s) ∧ InRange a := by
  constructor
  · intro hall
    refine ⟨fun s hs u b hu => hall u b (Term.hasPart_iff.2 (.inr ⟨s, hs, hu⟩)), ?_⟩
    exact hall t a (Term.hasPart_iff.2 (.inl rfl)) h
  · rintro ⟨hparts, ha⟩ u b hu hb
    rcases Term.hasPart_iff.1 hu with rfl | ⟨s, hs, hu⟩
    · rw [hb.unique h]
      exact ha
    · exact hparts s hs u b hu hb

def Gives (r : Except RunError Value) (a : Int) (bounded : Prop) : Prop :=
  (bounded → ∃ n : Int64, n.toInt = a ∧ r = .ok (.integer n)) ∧ (¬ bounded → r = .error .overflow)

theorem gives_integer (n : Int64) : Gives (.ok (.integer n)) n.toInt (InRange n.toInt) :=
  ⟨fun _ => ⟨n, rfl, rfl⟩, fun h => absurd (inRange_toInt n) h⟩

theorem gives_ofInt (a : Int) : Gives (Value.ofInt a) a (InRange a) := by
  unfold Value.ofInt
  constructor
  · intro h
    rw [if_pos ((inRange_iff a).1 h)]
    obtain ⟨hle, hlt⟩ := h
    exact ⟨Int64.ofInt a, Int64.toInt_ofInt_of_le hle (by omega), rfl⟩
  · intro h
    rw [if_neg (mt (inRange_iff a).2 h)]

theorem Gives.bind {r : Except RunError Value} {k : Value → Except RunError Value} {a b : Int} {p q : Prop}
    (h : Gives r a p) (hk : ∀ n : Int64, n.toInt = a → Gives (k (.integer n)) b q) : Gives (r >>= k) b (p ∧ q) := by
  by_cases hp : p
  · obtain ⟨n, hn, rfl⟩ := h.1 hp
    simpa only [ok_bind, hp, true_and] using hk n hn
  · rw [h.2 hp, error_bind]
    exact ⟨fun hpq => absurd hpq.1 hp, fun _ => rfl⟩

theorem evaluate_binary {op : Term.BinaryOp} {f : Int → Int → Int} (hop : integerOp? op = some f) (l r : Term) :
    evaluate w scope (.binary op l r) = (do
      let x ← evaluate w scope l
      let y ← evaluate w scope r
      Value.applyBinary op x y) := by
  cases op with
  | add | subtract | multiply => simp only [evaluate]
  | _ => cases hop

theorem applyBinary_integers {op : Term.BinaryOp} {f : Int → Int → Int} (hop : integerOp? op = some f) (m n : Int64) :
    Value.applyBinary op (.integer m) (.integer n) = Value.ofInt (f m.toInt n.toInt) := by
  cases op with
  | add | subtract | multiply =>
    cases hop
    rfl
  | _ => cases hop

theorem Exact.gives {t : Term} {a : Int} (h : Exact w scope t a) :
    Gives (evaluate w scope t) a (Bounded w scope t) := by
  induction h with
  | literal n =>
    rw [(Exact.literal n).bounded_iff, evaluate, Value.ofLiteral]
    simpa [Term.operands] using gives_integer n
  | var hn =>
    rw [(Exact.var hn).bounded_iff, evaluate, hn]
    simpa [Term.operands] using gives_integer _
  | negate h ih =>
    rw [h.negate.bounded_iff, evaluate]
    simp only [Term.operands, List.forall_mem_singleton]
    apply ih.bind
    rintro n rfl
    exact gives_ofInt _
  | binary hop hl hr ihl ihr =>
    rw [(Exact.binary hop hl hr).bounded_iff, evaluate_binary hop]
    simp only [Term.operands, List.forall_mem_cons, List.not_mem_nil, false_imp_iff, implies_true, and_true,
      and_assoc]
    apply ihl.bind
    rintro m rfl
    apply ihr.bind
    rintro n rfl
    rw [applyBinary_integers hop]
    exact gives_ofInt _

/-- A term of integers evaluates to the integer of its exact value if every part's exact value has 64 bits, and fails
with the integer overflow if that of some part has not, whatever the exact value of the whole. -/
theorem evaluate_exact {t : Term} {a : Int} (h : Exact w scope t a) :
    ((∀ u b, t.HasPart u → Exact w scope u b → InRange b) →
      ∃ n : Int64, n.toInt = a ∧ evaluate w scope t = .ok (.integer n)) ∧
    ((∃ u b, t.HasPart u ∧ Exact w scope u b ∧ ¬ InRange b) → evaluate w scope t = .error .overflow) ∧
    (Error.run .overflow).display = "Execution error: integer overflow" := by
  refine ⟨h.gives.1, ?_, rfl⟩
  rintro ⟨u, b, hu, hb, hout⟩
  exact h.gives.2 fun hbounded => hout (hbounded u b hu hb)

theorem evaluate_exact_limits :
    let one : Scope := [("x", .integer 1)]
    let greatest : Term := .literal (.integer Int64.maxValue)
    let back : Term := .binary .subtract (.binary .add greatest (.var "x")) (.var "x")
    let least : Term := .binary .subtract (.unary .negate greatest) (.var "x")
    (Exact ⟨∅, {}⟩ one back (2 ^ 63 - 1 + 1 - 1) ∧ evaluate ⟨∅, {}⟩ one back = .error .overflow) ∧
      Exact ⟨∅, {}⟩ one least (-(2 ^ 63 - 1) - 1) ∧
        ∃ n : Int64, n.toInt = -(2 ^ 63 - 1) - 1 ∧ evaluate ⟨∅, {}⟩ one least = .ok (.integer n) := by
  intro one greatest back least
  have hgreatest : Exact ⟨∅, {}⟩ one greatest (2 ^ 63 - 1) := .literal Int64.maxValue
  have hx : Exact ⟨∅, {}⟩ one (.var "x") 1 := .var (n := 1) rfl
  have hsum : Exact ⟨∅, {}⟩ one (.binary .add greatest (.var "x")) (2 ^ 63 - 1 + 1) := .binary rfl hgreatest hx
  have hback : Exact ⟨∅, {}⟩ one back (2 ^ 63 - 1 + 1 - 1) := .binary rfl hsum hx
  have hleast : Exact ⟨∅, {}⟩ one least (-(2 ^ 63 - 1) - 1) := .binary rfl hgreatest.negate hx
  refine ⟨⟨hback, (evaluate_exact hback).2.1 ⟨_, _, ?_, hsum, by unfold InRange; omega⟩⟩, hleast,
    (evaluate_exact hleast).1 ?_⟩
  · exact Term.hasPart_iff.2 (.inr ⟨_, List.mem_cons_self, Term.hasPart_iff.2 (.inl rfl)⟩)
  · change Bounded _ _ least
    rw [hleast.bounded_iff]
    simp [least, Term.operands, hgreatest.negate.bounded_iff, hgreatest.bounded_iff, hx.bounded_iff, greatest, InRange]

end Machine

end GraphQuery
