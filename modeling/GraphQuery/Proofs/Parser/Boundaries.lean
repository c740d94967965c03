import GraphQuery.Expr.Parser
import GraphQuery.Proofs.Parser.Grammar

/-!
What expressions begin with, and which tokens after an expression leave it alone.
-/

namespace GraphQuery.Expr

namespace Grammar

def openingRank : Token → Nat
  | .mark .notWord | .mark .minus => 1
  | .mark .letWord => 2
  | .mark .rightParen | .mark .rightBrace => 3
  | _ => 0

def Opens (n : Nat) : List Token → Prop
  | [] => False
  | .identifier _ :: t :: _ => t ≠ .mark .pipe ∧ t ≠ .mark .colon
  | t :: _ => openingRank t ≤ n

theorem Opens.mono {n n' : Nat} {ts : List Token} (hle : n ≤ n') (h : Opens n ts) : Opens n' ts := by
  unfold Opens at h ⊢
  split at h
  · exact h
  · exact h
  · exact Nat.le_trans h hle

theorem Opens.append {n : Nat} {ts us : List Token} {t : Token} (h : Opens n ts) (hp : t ≠ .mark .pipe)
    (hc : t ≠ .mark .colon) : Opens n (ts ++ t :: us) := by
  cases ts with
  | nil => cases h
  | cons t' ts =>
    cases ts with
    | nil => cases t' <;> simp_all [Opens]
    | cons t'' ts => cases t' <;> simp_all [Opens]

mutual
theorem Operators.opens {n : Nat} {ts : List Token} {e : Expr} : Operators n ts e → Opens 1 ts
  | .unary h => h.opens
  | .higher h => h.opens
  | .binary hop hl _ => hl.opens.append (by cases hop <;> simp) (by cases hop <;> simp)

theorem Unary.opens {ts : List Token} {e : Expr} : Unary ts e → Opens 1 ts
  | .not _ => by simp [Opens, openingRank]
  | .minus _ => by simp [Opens, openingRank]
  | .postfixed h => h.opens.mono (Nat.zero_le 1)

theorem Postfixed.opens {ts : List Token} {e : Expr} : Postfixed ts e → Opens 0 ts
  | .primary h => h.opens
  | .navigation h => h.opens.append (by simp) (by simp)
  | .operation h _ _ => by simpa using h.opens.append (by simp) (by simp)
  | .iterator h _ _ => by simpa using h.opens.append (by simp) (by simp)
  | .collectionCall h _ _ => by simpa using h.opens.append (by simp) (by simp)

theorem Primary.opens {ts : List Token} {e : Expr} : Primary ts e → Opens 0 ts
  | .literal h => by cases h <;> simp [Opens, openingRank]
  | .parenthesized _ => by simp [Opens, openingRank]
  | .conditional .. => by simp [Opens, openingRank]
  | .typeName .. => by simp [Opens]
  | .collection _ => by simp [Opens]
  | .var _ => by simp [Opens, openingRank]
end

theorem Expression.opens {ts : List Token} {e : Expr} : Expression ts e → Opens 2 ts
  | .letIn .. => by simp [Opens, openingRank]
  | .operators h => h.opens.mono (by decide)

theorem Items.opens {ts : List Token} {es : List Expr} : Items ts es → Opens 2 ts
  | .one h => h.opens
  | .more h _ => h.opens.append (by simp) (by simp)

end Grammar

namespace Parser

open Grammar

/-- How strongly a token pulls on an expression before it: operators by their level, what continues a
navigation or a call more, and what belongs to a name most. All other tokens leave it alone. -/
def pull : Token → Nat
  | .mark .impliesWord => 1
  | .mark .orWord => 2
  | .mark .andWord => 3
  | .mark .equals | .mark .notEquals => 4
  | .mark .less | .mark .lessEquals | .mark .greater | .mark .greaterEquals => 5
  | .mark .plus | .mark .minus => 6
  | .mark .star | .mark .slash => 7
  | .mark .dot | .mark .arrow => 9
  | .mark .bang | .mark .leftBrace | .mark .leftParen => 10
  | _ => 0

def Below (n : Nat) : List Located → Prop
  | [] => True
  | t :: _ => pull t.token ≤ n

variable {n n' : Nat} {m : Mark} {rest : List Located}

theorem Below.mono (hle : n ≤ n') (h : Below n rest) : Below n' rest := by
  cases rest with
  | nil => trivial
  | cons t rest => exact Nat.le_trans h hle

theorem pull_operatorAt {op : BinaryOp} (h : OperatorAt n m op) : pull (.mark m) = n := by
  cases h <;> rfl

theorem binaryOp?_operatorAt {op : BinaryOp} (h : OperatorAt n m op) :
    binaryOp? (.mark m) = some op ∧ op.precedence = n := by
  cases h <;> exact ⟨rfl, rfl⟩

theorem precedence_eq_pull {t : Token} {op : BinaryOp} (h : binaryOp? t = some op) :
    op.precedence = pull t := by
  unfold binaryOp? at h
  split at h <;> cases h <;> rfl

def Spells (ts : List Token) (us rest : List Located) : Prop :=
  ∃ vs, vs.map (·.token) = ts ∧ us = vs ++ rest

@[simp] theorem spells_nil {us : List Located} : Spells [] us rest ↔ us = rest := by
  simp [Spells]

@[simp] theorem spells_cons {t : Token} {ts : List Token} {us : List Located} :
    Spells (t :: ts) us rest ↔ ∃ s vs, us = ⟨t, s⟩ :: vs ∧ Spells ts vs rest := by
  simp only [Spells, List.map_eq_cons_iff]
  constructor
  · rintro ⟨_, ⟨⟨_, s⟩, vs, rfl, rfl, h⟩, rfl⟩
    exact ⟨s, vs ++ rest, rfl, vs, h, rfl⟩
  · rintro ⟨s, _, rfl, vs, h, rfl⟩
    exact ⟨⟨t, s⟩ :: vs, ⟨⟨t, s⟩, vs, rfl, rfl, h⟩, rfl⟩

@[simp] theorem spells_append {ts ts' : List Token} {us : List Located} :
    Spells (ts ++ ts') us rest ↔ ∃ vs, Spells ts us vs ∧ Spells ts' vs rest := by
  simp only [Spells, List.map_eq_append_iff]
  constructor
  · rintro ⟨_, ⟨vs, ws, rfl, h, h'⟩, rfl⟩
    exact ⟨ws ++ rest, ⟨vs, h, by simp⟩, ws, h', rfl⟩
  · rintro ⟨_, ⟨vs, h, rfl⟩, ws, h', rfl⟩
    exact ⟨vs ++ ws, ⟨vs, ws, rfl, h, h'⟩, by simp⟩

theorem ne_cons_of_opens {ts : List Token} {us : List Located} (h : Opens n ts) (hus : Spells ts us rest)
    (hm : n < openingRank (.mark m)) (s : Span) (r : List Located) : us ≠ ⟨.mark m, s⟩ :: r := by
  rintro rfl
  cases ts with
  | nil => cases h
  | cons t ts =>
    obtain ⟨_, _, heq, _⟩ := spells_cons.1 hus
    cases heq
    exact Nat.not_le.2 hm (by simpa [Opens] using h)

end Parser

end GraphQuery.Expr
