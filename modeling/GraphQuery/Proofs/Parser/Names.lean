import GraphQuery.Proofs.Except
import GraphQuery.Proofs.Parser.Boundaries

namespace GraphQuery.Expr.Parser

open Grammar

variable {finish : Nat} {m : Mark} {ts r rest : List Located} {name : String} {s : Span}

theorem collectionKind_ofName?_eq_some {kind : CollectionKind} :
    CollectionKind.ofName? name = some kind ↔ kind.name = name := by
  constructor
  · intro h
    simpa using List.find?_some h
  · rintro rfl
    cases kind <;> decide

theorem iteratorKind_ofName?_name (kind : IteratorKind) : IteratorKind.ofName? kind.name = some kind := by
  cases kind <;> decide

theorem iteratorKind_ofName?_eq_some {kind : IteratorKind} :
    IteratorKind.ofName? name = some kind ↔ kind.name = name := by
  constructor
  · intro h
    simpa using List.find?_some h
  · rintro rfl
    exact iteratorKind_ofName?_name kind

theorem iteratorKind_ofName?_eq_none :
    IteratorKind.ofName? name = none ↔ ∀ kind : IteratorKind, kind.name ≠ name := by
  constructor
  · rintro h kind rfl
    simp [iteratorKind_ofName?_name] at h
  · intro h
    rw [Option.eq_none_iff_forall_ne_some]
    intro kind hkind
    exact h kind (iteratorKind_ofName?_eq_some.1 hkind)

theorem eq_of_expect {h : r.length < ts.length} (hr : expect finish m ts = .ok (s, ⟨r, h⟩)) :
    ts = ⟨.mark m, s⟩ :: r := by
  fun_cases expect finish m ts <;> simp_all [expect]

theorem expect_cons (finish : Nat) (m : Mark) (s : Span) (r : List Located) :
    expect finish m (⟨.mark m, s⟩ :: r) = .ok (s, ⟨r, Nat.lt_succ_self _⟩) := by
  rw [expect, if_pos rfl]

theorem eq_of_identifier {h : r.length < ts.length} (hr : identifier finish ts = .ok (name, s, ⟨r, h⟩)) :
    ts = ⟨.identifier name, s⟩ :: r := by
  fun_cases identifier finish ts <;> simp_all [identifier]

theorem identifier_cons (finish : Nat) (name : String) (s : Span) (r : List Located) :
    identifier finish (⟨.identifier name, s⟩ :: r) = .ok (name, s, ⟨r, Nat.lt_succ_self _⟩) :=
  rfl

theorem typeHead_of_qualifier (name : String) {h : r.length ≤ ts.length}
    (hr : typeExpr.qualifier finish ts = .ok ⟨r, h⟩) :
    ∃ us, ts = us ++ r ∧ TypeHead (.identifier name :: us.map (·.token)) := by
  unfold typeExpr.qualifier at hr
  split at hr
  · simp only [bind_eq_ok, Prod.exists, Subtype.exists] at hr
    obtain ⟨className, s, r, _, hname, hr⟩ := hr
    obtain rfl := eq_of_identifier hname
    cases hr
    exact ⟨[_, _], rfl, .qualified name className⟩
  · cases hr
    exact ⟨[], rfl, .name name⟩

theorem typeName_of_typeExpr {h : r.length < ts.length} (hr : typeExpr finish ts = .ok ⟨r, h⟩) :
    ∃ us, ts = us ++ r ∧ TypeName (us.map (·.token)) := by
  induction ts using typeExpr.induct generalizing r with
  | case1 ts ih =>
    rw [typeExpr] at hr
    simp only [bind_eq_ok, Prod.exists, Subtype.exists] at hr
    obtain ⟨name, s, r₁, h₁, hname, r₂, h₂, hq, hr⟩ := hr
    obtain rfl := eq_of_identifier hname
    obtain ⟨qs, rfl, hhead⟩ := typeHead_of_qualifier name hq
    split at hr
    · rename_i s₁ rest _ _
      simp only [bind_eq_ok, Prod.exists, Subtype.exists] at hr
      obtain ⟨r₃, h₃, hread, s₂, r₄, h₄, hclose, hr⟩ := hr
      obtain ⟨us, rfl, ht⟩ := ih _ h₁ [] s₁ rest h₂ hread
      obtain rfl := eq_of_expect hclose
      cases hr
      exact ⟨⟨.identifier name, s⟩ :: qs ++ ⟨.mark .leftParen, s₁⟩ :: us ++ [⟨.mark .rightParen, s₂⟩],
        by simp, by simpa using TypeName.applied hhead ht⟩
    · cases hr
      exact ⟨⟨.identifier name, s⟩ :: qs, rfl, .head hhead⟩

theorem annotation_of_annotation {h : r.length ≤ ts.length} (hr : annotation finish ts = .ok ⟨r, h⟩) :
    ∃ us, ts = us ++ r ∧ Annotation (us.map (·.token)) := by
  unfold annotation at hr
  split at hr
  · rename_i s rest
    simp only [bind_eq_ok, Subtype.exists] at hr
    obtain ⟨r, _, hread, hr⟩ := hr
    obtain ⟨us, rfl, ht⟩ := typeName_of_typeExpr hread
    cases hr
    exact ⟨⟨.mark .colon, s⟩ :: us, rfl, .given ht⟩
  · cases hr
    exact ⟨[], rfl, .missing⟩

theorem declaration_of_iteratorVariable {declared : Option String} {h : r.length ≤ ts.length}
    (hr : iteratorVariable finish ts = .ok (declared, ⟨r, h⟩)) :
    ∃ us, ts = us ++ r ∧ Declaration (us.map (·.token)) declared := by
  unfold iteratorVariable at hr
  split at hr
  · rename_i name s rest
    split at hr
    · simp only [bind_eq_ok, Prod.exists, Subtype.exists] at hr
      obtain ⟨r₁, _, hread, s', r₂, _, hpipe, hr⟩ := hr
      obtain ⟨us, rfl, ha⟩ := annotation_of_annotation hread
      obtain rfl := eq_of_expect hpipe
      cases hr
      exact ⟨⟨.identifier name, s⟩ :: us ++ [⟨.mark .pipe, s'⟩], by simp, by simpa using Declaration.given ha⟩
    · cases hr
      exact ⟨[], rfl, .missing⟩
  · cases hr
    exact ⟨[], rfl, .missing⟩

theorem qualifier_of_ne (h : ∀ s r, ts ≠ ⟨.mark .bang, s⟩ :: r) :
    typeExpr.qualifier finish ts = .ok ⟨ts, Nat.le_refl _⟩ := by
  unfold typeExpr.qualifier
  split
  · exact absurd rfl (h _ _)
  · rfl

theorem typeHead_read (finish : Nat) {us rest : List Located} {ts : List Token} (h : TypeHead ts)
    (hus : Spells ts us rest) (hrest : ∀ s r, rest ≠ ⟨.mark .bang, s⟩ :: r) :
    ∃ name s r h₁ h₂, identifier finish us = .ok (name, s, ⟨r, h₁⟩) ∧
      typeExpr.qualifier finish r = .ok ⟨rest, h₂⟩ := by
  cases h with
  | name name =>
    simp only [spells_cons, spells_nil] at hus
    obtain ⟨s, _, rfl, rfl⟩ := hus
    exact ⟨name, s, _, _, _, rfl, qualifier_of_ne hrest⟩
  | qualified metamodel name =>
    simp only [spells_cons, spells_nil] at hus
    obtain ⟨s, _, rfl, s₁, _, rfl, s₂, _, rfl, rfl⟩ := hus
    exact ⟨metamodel, s, _, _, _, rfl, rfl⟩

theorem typeName_read (finish : Nat) {us rest : List Located} {ts : List Token} (h : TypeName ts)
    (hus : Spells ts us rest) (hrest : Below 9 rest) : ∃ h, typeExpr finish us = .ok ⟨rest, h⟩ := by
  induction h generalizing us rest with
  | head h =>
    have hbang : ∀ s r, rest ≠ ⟨.mark .bang, s⟩ :: r := by
      rintro s r rfl
      simp [Below, pull] at hrest
    obtain ⟨name, s, r, h₁, h₂, hname, hq⟩ := typeHead_read finish h hus hbang
    refine ⟨Nat.lt_of_le_of_lt h₂ h₁, ?_⟩
    rw [typeExpr]
    simp only [hname, ok_bind, hq]
    split
    · simp [Below, pull] at hrest
    · rfl
  | applied h _ ih =>
    simp only [spells_append, spells_cons, spells_nil] at hus
    obtain ⟨_, ⟨_, hvs, s, vs, rfl, hws⟩, s', _, rfl, rfl⟩ := hus
    obtain ⟨h₃, hread⟩ := ih hws (by simp [Below, pull])
    obtain ⟨name, s₁, r₁, h₁, h₂, hname, hq⟩ := typeHead_read finish h hvs (by simp)
    simp only [List.length_cons] at h₂ h₃
    refine ⟨by omega, ?_⟩
    rw [typeExpr]
    simp only [hname, ok_bind, hq, hread, expect_cons]

theorem annotation_read (finish : Nat) {us rest : List Located} {ts : List Token} (h : Annotation ts)
    (hus : Spells ts us rest) (hrest : Below 9 rest) (hcolon : ∀ s r, rest ≠ ⟨.mark .colon, s⟩ :: r) :
    ∃ h, annotation finish us = .ok ⟨rest, h⟩ := by
  cases h with
  | missing =>
    obtain rfl := spells_nil.1 hus
    refine ⟨Nat.le_refl _, ?_⟩
    unfold annotation
    split
    · exact absurd rfl (hcolon _ _)
    · rfl
  | given ht =>
    obtain ⟨s, vs, rfl, hvs⟩ := spells_cons.1 hus
    obtain ⟨h, hread⟩ := typeName_read finish ht hvs hrest
    refine ⟨Nat.le_succ_of_le (Nat.le_of_lt h), ?_⟩
    simp only [ annotation, hread, ok_bind]

theorem declares_of_opens {n : Nat} {ts : List Token} {s s' : Span} (h : Opens n ts)
    (hus : Spells ts (⟨.identifier name, s'⟩ :: r) (⟨.mark .rightParen, s⟩ :: rest)) :
    iteratorVariable.declares r = false := by
  match ts, h with
  | [_], _ =>
    simp only [spells_cons, spells_nil] at hus
    obtain ⟨_, _, heq, rfl⟩ := hus
    cases heq
    rfl
  | _ :: t :: ts, h =>
    simp only [spells_cons] at hus
    obtain ⟨_, _, heq, _, _, rfl, _⟩ := hus
    cases heq
    obtain ⟨hpipe, hcolon⟩ : t ≠ .mark .pipe ∧ t ≠ .mark .colon := h
    unfold iteratorVariable.declares
    split <;> simp_all

theorem iteratorVariable_of_opens {n : Nat} {us : List Located} {ts : List Token} (h : Opens n ts)
    (hus : Spells ts us (⟨.mark .rightParen, s⟩ :: rest)) :
    iteratorVariable finish us = .ok (none, ⟨us, Nat.le_refl _⟩) := by
  unfold iteratorVariable
  split
  · rw [if_neg (by simp [declares_of_opens h hus])]
  · rfl

theorem declares_annotation {us : List Located} {ts : List Token} (h : Annotation ts)
    (hus : Spells ts us (⟨.mark .pipe, s⟩ :: rest)) : iteratorVariable.declares us = true := by
  cases h with
  | missing =>
    obtain rfl := spells_nil.1 hus
    rfl
  | given _ =>
    obtain ⟨s, vs, rfl, -⟩ := spells_cons.1 hus
    rfl

theorem declaration_read (finish : Nat) {n : Nat} {us vs : List Located} {ts bs : List Token}
    {declared : Option String} (h : Declaration ts declared) (hus : Spells ts us vs) (hbs : Opens n bs)
    (hvs : Spells bs vs (⟨.mark .rightParen, s⟩ :: rest)) :
    ∃ h, iteratorVariable finish us = .ok (declared, ⟨vs, h⟩) := by
  cases h with
  | missing =>
    obtain rfl := spells_nil.1 hus
    exact ⟨Nat.le_refl _, iteratorVariable_of_opens hbs hvs⟩
  | given ha =>
    simp only [List.cons_append, spells_cons, spells_append, spells_nil] at hus
    obtain ⟨s₁, as, rfl, _, has, s₂, _, rfl, rfl⟩ := hus
    obtain ⟨h, hread⟩ := annotation_read finish ha has (by simp [Below, pull]) (by simp)
    simp only [List.length_cons] at h
    refine ⟨by simp only [List.length_cons]; omega, ?_⟩
    simp only [iteratorVariable, declares_annotation ha has, if_true, hread, ok_bind, expect_cons]

end GraphQuery.Expr.Parser
