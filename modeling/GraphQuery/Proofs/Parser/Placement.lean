import GraphQuery.Proofs.Expr.Nodes
import GraphQuery.Proofs.Parser.Soundness
import GraphQuery.Proofs.Token.Places

namespace GraphQuery.Expr

def down (k : Nat) (e : Expr) : Expr :=
  e.mapSpan (Span.down k)

theorem mapSpans_down (k : Nat) (es : List Expr) : mapSpans (Span.down k) es = es.map (down k) :=
  mapSpans_eq_map _ es

theorem span_down (k : Nat) (e : Expr) : (e.down k).span = e.span.down k := by
  cases e <;> rfl

theorem down_withSpan (k : Nat) (s : Span) (e : Expr) : (e.withSpan s).down k = (e.down k).withSpan (s.down k) := by
  cases e <;> rfl

theorem children_withSpan (s : Span) (e : Expr) : (e.withSpan s).children = e.children := by
  cases e <;> rfl

mutual
theorem mapSpan_down_zero : (e : Expr) → e.mapSpan (Span.down 0) = e
  | literal .. | var .. | typeName .. | extent .. => by simp only [mapSpan, Span.down_zero]
  | navigation _ source _ => by simp only [mapSpan, Span.down_zero, mapSpan_down_zero source]
  | operation _ source _ arguments | collectionCall _ source _ arguments => by
    simp only [mapSpan, Span.down_zero, mapSpan_down_zero source, mapSpans_down_zero arguments]
  | iterator _ source _ _ body => by
    simp only [mapSpan, Span.down_zero, mapSpan_down_zero source, mapSpan_down_zero body]
  | binary _ _ left right => by
    simp only [mapSpan, Span.down_zero, mapSpan_down_zero left, mapSpan_down_zero right]
  | unary _ _ operand => by simp only [mapSpan, Span.down_zero, mapSpan_down_zero operand]
  | collection _ _ items => by simp only [mapSpan, Span.down_zero, mapSpans_down_zero items]
  | conditional _ condition yes no => by
    simp only [mapSpan, Span.down_zero, mapSpan_down_zero condition, mapSpan_down_zero yes, mapSpan_down_zero no]
  | letIn _ _ value body => by
    simp only [mapSpan, Span.down_zero, mapSpan_down_zero value, mapSpan_down_zero body]

theorem mapSpans_down_zero : (es : List Expr) → mapSpans (Span.down 0) es = es
  | [] => rfl
  | e :: es => by simp only [mapSpans, mapSpan_down_zero e, mapSpans_down_zero es]
end

theorem down_zero (e : Expr) : e.down 0 = e :=
  mapSpan_down_zero e

namespace Parser

open Grammar Located

theorem down_operationCall (k : Nat) (s : Span) (source : Expr) (name : String) (arguments : List Expr) :
    (operationCall s source name arguments).down k =
      operationCall (s.down k) (source.down k) name (arguments.map (down k)) := by
  unfold operationCall
  split
  · rfl
  · rfl
  · rename_i hvar htype
    rw [down, mapSpan, mapSpans_down]
    split
    · rename_i hname harguments hsource
      obtain rfl := List.map_eq_nil_iff.1 harguments
      cases source <;> simp_all [down, mapSpan]
    · rename_i hname harguments hsource
      obtain rfl := List.map_eq_nil_iff.1 harguments
      cases source <;> simp_all [down, mapSpan]
    · rfl

theorem span_operationCall (s : Span) (source : Expr) (name : String) (arguments : List Expr) :
    (operationCall s source name arguments).span = s := by
  unfold operationCall
  split <;> rfl

theorem children_operationCall (s : Span) (source : Expr) (name : String) (arguments : List Expr) :
    (operationCall s source name arguments).children = [] ∨
      (operationCall s source name arguments).children = source :: arguments := by
  unfold operationCall
  split
  · exact .inl rfl
  · exact .inl rfl
  · exact .inr rfl

def Closes (close : Mark) : Prop :=
  close = .rightParen ∨ close = .rightBrace

theorem Closes.pull_eq {close : Mark} (h : Closes close) : pull (.mark close) = 0 := by
  rcases h with rfl | rfl <;> rfl

theorem Closes.openingRank_eq {close : Mark} (h : Closes close) : openingRank (.mark close) = 3 := by
  rcases h with rfl | rfl <;> rfl

def Shifts (k : Nat) (us vs rest : List Located) : Prop :=
  vs = moved k us ++ rest

section Shifts

variable {k : Nat} {us vs rest : List Located}

theorem shifts_nil : Shifts k [] vs rest ↔ vs = rest :=
  Iff.rfl

theorem shifts_cons {t : Token} {s : Span} :
    Shifts k (⟨t, s⟩ :: us) vs rest ↔ ∃ ws, vs = ⟨t, s.down k⟩ :: ws ∧ Shifts k us ws rest := by
  simp [Shifts, moved_cons]

theorem shifts_append {us' : List Located} :
    Shifts k (us ++ us') vs rest ↔ ∃ ws, Shifts k us vs ws ∧ Shifts k us' ws rest := by
  simp [Shifts, moved_append]

theorem Shifts.spells (h : Shifts k us vs rest) : Spells (us.map (·.token)) vs rest :=
  ⟨moved k us, map_token_moved k us, h⟩

end Shifts

/-- The expression is read from the tokens before anything that pulls no more than so strongly on it. -/
def ReadsAs (read : Nat → (ts : List Located) → Except ParseError (Expr × Shorter ts)) (n : Nat)
    (us : List Located) (e : Expr) : Prop :=
  ∀ finish k vs rest, Shifts k us vs rest → Below n rest → ∃ h, read finish vs = .ok (e.down k, ⟨rest, h⟩)

def LeadsTo (read : Nat → (ts : List Located) → Except ParseError (Expr × Shorter ts))
    (tail : Nat → Expr → (ts : List Located) → Except ParseError (Expr × NoLonger ts)) (n : Nat)
    (us : List Located) (e : Expr) : Prop :=
  ∀ finish k vs rest, Shifts k us vs rest → Below n rest →
    ∀ e' r h, tail finish (e.down k) rest = .ok (e', ⟨r, h⟩) → ∃ h', read finish vs = .ok (e', ⟨r, h'⟩)

def ReadsAllAs (read : Nat → Mark → (ts : List Located) → Except ParseError (List Expr × Span × Shorter ts))
    (us : List Located) (es : List Expr) : Prop :=
  ∀ finish close k vs s rest, Shifts k us vs (⟨.mark close, s⟩ :: rest) → Closes close →
    ∃ h, read finish close vs = .ok (es.map (down k), s, ⟨rest, h⟩)

mutual
inductive Stands : List Located → Expr → Prop
  | node {us : List Located} {e : Expr} (hread : ReadsAs expression 0 us e)
      (hspan : Ordered us → e.span = Located.extent us) (hparts : Row us e.children) : Stands us e

inductive Row : List Located → List Expr → Prop
  | nil (ts : List Located) : Row ts []
  | cons {ts : List Located} {e : Expr} {es : List Expr} (gap us vs : List Located)
      (hts : ts = gap ++ us ++ vs) (h : Stands us e) (hrest : Row vs es) : Row ts (e :: es)
end

section Placement

variable {us vs ts : List Located} {e : Expr} {es : List Expr}

theorem ReadsAs.ne_nil (h : ReadsAs expression 0 us e) : us ≠ [] := by
  rintro rfl
  obtain ⟨h, -⟩ := h 0 0 [] [] rfl trivial
  cases h

theorem Stands.ne_nil (h : Stands us e) : us ≠ [] := by
  obtain ⟨hread⟩ := h
  exact hread.ne_nil

theorem Stands.join (h : Stands us e) (hrest : Row vs es) : Row (us ++ vs) (e :: es) :=
  .cons [] us vs rfl h hrest

theorem Stands.row (h : Stands us e) : Row us [e] :=
  .cons [] us [] (by simp) h (.nil [])

theorem Row.prepend (h : Row ts es) (us : List Located) : Row (us ++ ts) es := by
  cases h with
  | nil => exact .nil _
  | cons gap vs ws hts h hrest => exact .cons (us ++ gap) vs ws (by simp [hts]) h hrest

theorem Row.skip {t : Located} (h : Row ts es) : Row (t :: ts) es :=
  h.prepend [t]

theorem Row.append (h : Row ts es) (us : List Located) : Row (ts ++ us) es := by
  induction es generalizing ts with
  | nil => exact .nil _
  | cons e es ih =>
    cases h with
    | cons gap vs ws hts h hrest => exact .cons gap vs (ws ++ us) (by simp [hts]) h (ih hrest)

structure Placed (us : List Located) (e : Expr) : Prop where
  span : Ordered us → e.span = Located.extent us
  parts : Row us e.children

theorem Placed.stands (h : Placed us e) (hread : ReadsAs expression 0 us e) : Stands us e :=
  .node hread h.span h.parts

theorem placed_of_hull {a b : Span} (us ms vs : List Located) (hts : ts = us ++ ms ++ vs) (hus : us ≠ [])
    (hvs : vs ≠ []) (ha : Ordered us → a = Located.extent us) (hb : Ordered vs → b = Located.extent vs) (hspan : e.span = a.hull b)
    (hparts : Row ts e.children) : Placed ts e := by
  refine ⟨fun h => ?_, hparts⟩
  subst hts
  rw [hspan, ha (h.sublist (by simp)), hb (h.sublist (by simp)), h.hull_extent hus hvs]

end Placement

end Parser

end GraphQuery.Expr
