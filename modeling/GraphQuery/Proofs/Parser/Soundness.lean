import GraphQuery.Proofs.Parser.Names

namespace GraphQuery.Expr.Parser

open Grammar

variable {finish level : Nat} {ts : List Located}

theorem operatorAt_of_binaryOp? {t : Token} {op : BinaryOp} (h : binaryOp? t = some op) :
    ∃ m, t = .mark m ∧ OperatorAt op.precedence m op := by
  unfold binaryOp? at h
  split at h <;> cases h <;> exact ⟨_, rfl, by constructor⟩

theorem precedence_le_seven (op : BinaryOp) : op.precedence ≤ 7 := by
  cases op <;> decide

theorem literalToken_of_literal? {t : Token} {value : Literal} (h : literal? t = some value) :
    LiteralToken t value := by
  unfold literal? at h
  split at h <;> cases h <;> constructor

theorem call_operationCall (s : Span) (source : Expr) (name : String) (arguments : List Expr) :
    Call source.bare name (arguments.map bare) (operationCall s source name arguments).bare := by
  unfold operationCall
  split
  · exact .extentOfVar nowhere _
  · exact .extentOfType nowhere _ _
  · rename_i hvar htype
    simp only [bare, mapSpan, mapSpans_nowhere]
    apply Call.operation
    rintro rfl harguments
    obtain rfl := List.map_eq_nil_iff.1 harguments
    cases source <;> simp_all [mapSpan]

theorem unary_of_unaryOp? {t : Token} {op : UnaryOp} {us : List Token} {e : Expr}
    (h : unaryOp? t = some op) (hd : Unary us e) : Unary (t :: us) (.unary nowhere op e) := by
  unfold unaryOp? at h
  split at h <;> cases h
  · exact .not hd
  · exact .minus hd

theorem operators_of_le {n n' : Nat} {us : List Token} {e : Expr} (hle : n ≤ n') (h : Operators n' us e) :
    Operators n us e := by
  induction hle with
  | refl => exact h
  | step _ ih => exact ih (.higher h)

def NextBelow (level : Nat) (ts : List Located) : Prop :=
  ∀ t rest op, ts = t :: rest → binaryOp? t.token = some op → op.precedence < level

def Sound {α : Type} {Q : List Located → Prop} (p : Except ParseError (α × { r : List Located // Q r }))
    (ts : List Located) (P : List Token → α → List Located → Prop) : Prop :=
  ∀ a r h, p = .ok (a, ⟨r, h⟩) → ∃ us, ts = us ++ r ∧ P (us.map (·.token)) a r

def SoundList (p : Except ParseError (List Expr × Span × Shorter ts)) (close : Mark)
    (P : List Token → List Expr → Prop) : Prop :=
  ∀ es s r h, p = .ok (es, s, ⟨r, h⟩) →
    ∃ us, ts = us ++ ⟨.mark close, s⟩ :: r ∧ P (us.map (·.token)) (es.map bare)

structure SoundBelow (finish n : Nat) : Prop where
  expression : ∀ ts, ts.length < n → Sound (expression finish ts) ts fun us e _ => Expression us e.bare
  binaryFrom : ∀ level ts, level ≤ 8 → ts.length < n →
    Sound (binaryFrom finish level ts) ts fun us e r => Operators level us e.bare ∧ NextBelow level r
  binaryTail : ∀ level left ts q vs, level ≤ q → Operators q vs left.bare → NextBelow (q + 1) ts →
    ts.length < n →
    Sound (binaryTail finish level left ts) ts fun us e r =>
      Operators level (vs ++ us) e.bare ∧ NextBelow level r
  unary : ∀ ts, ts.length < n → Sound (unary finish ts) ts fun us e _ => Unary us e.bare
  postfixTail : ∀ source ts vs, Postfixed vs source.bare → ts.length < n →
    Sound (postfixTail finish source ts) ts fun us e _ => Postfixed (vs ++ us) e.bare
  items : ∀ close ts, ts.length < n → SoundList (items finish close ts) close Items
  arguments : ∀ close ts, ts.length < n → SoundList (arguments finish close ts) close Arguments

theorem sound_primary (ih : SoundBelow finish ts.length) :
    Sound (primary finish ts) ts fun us e _ => Primary us e.bare := by
  intro e r hr h
  rw [primary.eq_def] at h
  split at h
  · cases h
  · rename_i start rest
    simp only [bind_eq_ok, Prod.exists, Subtype.exists] at h
    obtain ⟨inner, r₁, _, hinner, close, r₂, _, hclose, h⟩ := h
    obtain ⟨us, rfl, hd⟩ := ih.expression _ (by simp) _ _ _ hinner
    obtain rfl := eq_of_expect hclose
    cases h
    exact ⟨⟨.mark .leftParen, start⟩ :: us ++ [⟨.mark .rightParen, close⟩], by simp,
      by simpa [bare_withSpan] using Primary.parenthesized hd⟩
  · rename_i start rest
    obtain ⟨⟨condition, r₁, h₁⟩, hc, h⟩ := bind_eq_ok.1 h
    obtain ⟨⟨s₁, r₂, h₂⟩, hthen, h⟩ := bind_eq_ok.1 h
    obtain ⟨⟨yes, r₃, h₃⟩, hy, h⟩ := bind_eq_ok.1 h
    obtain ⟨⟨s₂, r₄, h₄⟩, helse, h⟩ := bind_eq_ok.1 h
    obtain ⟨⟨no, r₅, _⟩, hn, h⟩ := bind_eq_ok.1 h
    obtain ⟨⟨s₃, r₆, _⟩, hend, h⟩ := bind_eq_ok.1 h
    obtain ⟨ns, rfl, hno⟩ := ih.expression r₄ (by simp only [List.length_cons]; omega) _ _ _ hn
    obtain ⟨ys, rfl, hyes⟩ := ih.expression r₂ (by simp only [List.length_cons]; omega) _ _ _ hy
    obtain ⟨cs, rfl, hcondition⟩ := ih.expression rest (by simp) _ _ _ hc
    obtain rfl := eq_of_expect hend
    obtain rfl := eq_of_expect helse
    obtain rfl := eq_of_expect hthen
    cases h
    exact ⟨⟨.mark .ifWord, start⟩ :: cs ++ ⟨.mark .thenWord, s₁⟩ :: ys ++ ⟨.mark .elseWord, s₂⟩ :: ns ++
      [⟨.mark .endifWord, s₃⟩], by simp,
      by simpa [bare, mapSpan] using Primary.conditional hcondition hyes hno⟩
  · rename_i name start s rest
    simp only [bind_eq_ok, Prod.exists, Subtype.exists] at h
    obtain ⟨className, stop, r, _, hname, h⟩ := h
    obtain rfl := eq_of_identifier hname
    cases h
    exact ⟨[⟨.identifier name, start⟩, ⟨.mark .bang, s⟩, ⟨.identifier className, stop⟩], rfl,
      .typeName name className⟩
  · rename_i name start s rest
    split at h
    · rename_i kind hkind
      simp only [bind_eq_ok, Prod.exists, Subtype.exists] at h
      obtain ⟨es, close, r, _, hitems, h⟩ := h
      obtain ⟨us, rfl, ha⟩ := ih.arguments _ rest (by simp only [List.length_cons]; omega) _ _ _ _ hitems
      cases h
      obtain rfl := collectionKind_ofName?_eq_some.1 hkind
      exact ⟨⟨.identifier kind.name, start⟩ :: ⟨.mark .leftBrace, s⟩ :: us ++ [⟨.mark .rightBrace, close⟩],
        by simp, by simpa [bare_collection] using Primary.collection ha⟩
    · cases h
      exact ⟨[⟨.identifier name, start⟩], rfl, .var name⟩
  · rename_i name start rest _ _
    cases h
    exact ⟨[⟨.identifier name, start⟩], rfl, .var name⟩
  · rename_i t rest _ _ _ _ _
    split at h
    · rename_i value hvalue
      cases h
      exact ⟨[t], rfl, .literal (literalToken_of_literal? hvalue)⟩
    · cases h

theorem sound_postfixTail (ih : SoundBelow finish ts.length) {source : Expr} {vs : List Token}
    (hs : Postfixed vs source.bare) :
    Sound (postfixTail finish source ts) ts fun us e _ => Postfixed (vs ++ us) e.bare := by
  intro e r hr h
  rw [postfixTail.eq_def] at h
  split at h
  · rename_i s rest
    simp only [bind_eq_ok, Prod.exists, Subtype.exists] at h
    obtain ⟨name, s₁, r₁, h₁, hname, h⟩ := h
    obtain rfl := eq_of_identifier hname
    split at h
    · rename_i s₂ inner _ _
      simp only [bind_eq_ok, Prod.exists, Subtype.exists] at h
      obtain ⟨es, close, r₂, h₂, hes, e', r₃, h₃, htail, h⟩ := h
      obtain ⟨as, rfl, ha⟩ := ih.arguments _ inner (by simp only [List.length_cons]; omega) _ _ _ _ hes
      have hcall := Postfixed.operation hs ha (call_operationCall (source.span.hull close) source name es)
      obtain ⟨us, rfl, hd⟩ := ih.postfixTail _ r₂ _ hcall (by simp only [List.length_cons]; omega) _ _ _ htail
      cases h
      exact ⟨⟨.mark .dot, s⟩ :: ⟨.identifier name, s₁⟩ :: ⟨.mark .leftParen, s₂⟩ :: as ++
        ⟨.mark .rightParen, close⟩ :: us, by simp, by simpa using hd⟩
    · simp only [bind_eq_ok, Prod.exists, Subtype.exists] at h
      obtain ⟨e', r₂, h₂, htail, h⟩ := h
      obtain ⟨us, rfl, hd⟩ := ih.postfixTail _ r₁ _ (.navigation hs)
        (by simp only [List.length_cons]; omega) _ _ _ htail
      cases h
      exact ⟨⟨.mark .dot, s⟩ :: ⟨.identifier name, s₁⟩ :: us, by simp, by simpa using hd⟩
  · rename_i s rest
    simp only [bind_eq_ok, Prod.exists, Subtype.exists] at h
    obtain ⟨name, s₁, r₁, h₁, hname, s₂, r₂, h₂, hopen, h⟩ := h
    obtain rfl := eq_of_expect hopen
    obtain rfl := eq_of_identifier hname
    split at h
    · rename_i kind hkind
      simp only [bind_eq_ok, Prod.exists, Subtype.exists] at h
      obtain ⟨declared, r₃, h₃, hvar, body, r₄, h₄, hbody, close, r₅, h₅, hclose, e', r₆, h₆, htail, h⟩ := h
      obtain rfl := iteratorKind_ofName?_eq_some.1 hkind
      obtain ⟨bs, rfl, hb⟩ := ih.expression r₃ (by simp only [List.length_cons]; omega) _ _ _ hbody
      obtain ⟨ds, rfl, hd⟩ := declaration_of_iteratorVariable hvar
      obtain rfl := eq_of_expect hclose
      obtain ⟨us, rfl, hd⟩ := ih.postfixTail (iterator (source.span.hull close) source kind declared body) r₅
        _ (.iterator hs hd hb) (by simp only [List.length_cons]; omega) _ _ _ htail
      cases h
      exact ⟨⟨.mark .arrow, s⟩ :: ⟨.identifier kind.name, s₁⟩ :: ⟨.mark .leftParen, s₂⟩ :: ds ++ bs ++
        ⟨.mark .rightParen, close⟩ :: us, by simp, by simpa using hd⟩
    · rename_i hkind
      simp only [bind_eq_ok, Prod.exists, Subtype.exists] at h
      obtain ⟨es, close, r₃, h₃, hes, e', r₄, h₄, htail, h⟩ := h
      obtain ⟨as, rfl, ha⟩ := ih.arguments _ r₂ (by simp only [List.length_cons]; omega) _ _ _ _ hes
      have hcall := Postfixed.collectionCall hs (iteratorKind_ofName?_eq_none.1 hkind) ha
      rw [← bare_collectionCall (source.span.hull close)] at hcall
      obtain ⟨us, rfl, hd⟩ := ih.postfixTail _ r₃ _ hcall (by simp only [List.length_cons]; omega) _ _ _ htail
      cases h
      exact ⟨⟨.mark .arrow, s⟩ :: ⟨.identifier name, s₁⟩ :: ⟨.mark .leftParen, s₂⟩ :: as ++
        ⟨.mark .rightParen, close⟩ :: us, by simp, by simpa using hd⟩
  · cases h
    exact ⟨[], rfl, by simpa using hs⟩

theorem sound_postfixed (ih : SoundBelow finish ts.length) :
    Sound (postfixed finish ts) ts fun us e _ => Postfixed us e.bare := by
  intro e r hr h
  rw [postfixed] at h
  simp only [bind_eq_ok, Prod.exists, Subtype.exists] at h
  obtain ⟨source, r₁, h₁, hsource, e', r₂, h₂, htail, h⟩ := h
  obtain ⟨us, rfl, hs⟩ := sound_primary ih _ _ _ hsource
  obtain ⟨vs, rfl, hd⟩ := ih.postfixTail _ r₁ _ (.primary hs) h₁ _ _ _ htail
  cases h
  exact ⟨us ++ vs, by simp, by simpa using hd⟩

theorem sound_unary (ih : SoundBelow finish ts.length) :
    Sound (unary finish ts) ts fun us e _ => Unary us e.bare := by
  intro e r hr h
  rw [unary.eq_def] at h
  split at h
  · obtain ⟨us, hus, hd⟩ := sound_postfixed ih e r hr h
    exact ⟨us, hus, .postfixed hd⟩
  · rename_i t rest
    split at h
    · rename_i op hop
      simp only [bind_eq_ok, Prod.exists, Subtype.exists] at h
      obtain ⟨operand, r₁, h₁, hoperand, h⟩ := h
      obtain ⟨us, rfl, hd⟩ := ih.unary rest (by simp) _ _ _ hoperand
      cases h
      exact ⟨t :: us, rfl, unary_of_unaryOp? hop hd⟩
    · obtain ⟨us, hus, hd⟩ := sound_postfixed ih e r hr h
      exact ⟨us, hus, .postfixed hd⟩

theorem sound_binaryTail (ih : SoundBelow finish ts.length) {left : Expr} {q : Nat} {vs : List Token}
    (hq : level ≤ q) (hl : Operators q vs left.bare) (hnext : NextBelow (q + 1) ts) :
    Sound (binaryTail finish level left ts) ts fun us e r =>
      Operators level (vs ++ us) e.bare ∧ NextBelow level r := by
  intro e r hr h
  rw [binaryTail.eq_def] at h
  have hstop : Operators level (vs ++ []) left.bare := by simpa using operators_of_le hq hl
  split at h
  · cases h
    exact ⟨[], rfl, hstop, by simp [NextBelow]⟩
  · rename_i t rest
    split at h
    · rename_i op hop
      split at h
      · rename_i hlt
        cases h
        refine ⟨[], rfl, hstop, ?_⟩
        rintro _ _ op' ⟨⟩ hop'
        obtain rfl := Option.some.inj (hop.symm.trans hop')
        exact hlt
      · rename_i hlt
        simp only [bind_eq_ok, Prod.exists, Subtype.exists] at h
        obtain ⟨right, r₁, h₁, hright, e', r₂, h₂, htail, h⟩ := h
        obtain ⟨m, hm, hat⟩ := operatorAt_of_binaryOp? hop
        have hp : op.precedence < q + 1 := hnext t rest op rfl hop
        have hseven := precedence_le_seven op
        obtain ⟨us, rfl, hr, hnext⟩ := ih.binaryFrom _ rest (by omega) (by simp) _ _ _ hright
        have hbinary := Operators.binary hat (operators_of_le (Nat.le_of_lt_succ hp) hl) hr
        obtain ⟨ws, rfl, hd⟩ := ih.binaryTail level _ r₁ _ _ (Nat.le_of_not_lt hlt) hbinary hnext
          (by simp only [List.length_cons]; omega) _ _ _ htail
        cases h
        refine ⟨t :: us ++ ws, by simp, ?_⟩
        simpa [hm] using hd
    · rename_i hop
      cases h
      refine ⟨[], rfl, hstop, ?_⟩
      rintro _ _ op' ⟨⟩ hop'
      rw [hop] at hop'
      cases hop'

theorem sound_binaryFrom (ih : SoundBelow finish ts.length) (hlevel : level ≤ 8) :
    Sound (binaryFrom finish level ts) ts fun us e r => Operators level us e.bare ∧ NextBelow level r := by
  intro e r hr h
  rw [binaryFrom] at h
  simp only [bind_eq_ok, Prod.exists, Subtype.exists] at h
  obtain ⟨left, r₁, h₁, hleft, e', r₂, h₂, htail, h⟩ := h
  obtain ⟨us, rfl, hl⟩ := sound_unary ih _ _ _ hleft
  have hnext : NextBelow 9 r₁ := fun _ _ op _ _ => Nat.lt_of_le_of_lt (precedence_le_seven op) (by decide)
  obtain ⟨vs, rfl, hd⟩ := ih.binaryTail level left r₁ 8 _ hlevel (.unary hl) hnext h₁ _ _ _ htail
  cases h
  exact ⟨us ++ vs, by simp, by simpa using hd⟩

theorem sound_expression (ih : SoundBelow finish ts.length) :
    Sound (expression finish ts) ts fun us e _ => Expression us e.bare := by
  intro e r hr h
  rw [expression.eq_def] at h
  split at h
  · rename_i start rest
    obtain ⟨⟨name, s, r₁, h₁⟩, hname, h⟩ := bind_eq_ok.1 h
    obtain ⟨⟨r₂, h₂⟩, htype, h⟩ := bind_eq_ok.1 h
    obtain ⟨⟨s₁, r₃, h₃⟩, heq, h⟩ := bind_eq_ok.1 h
    obtain ⟨⟨value, r₄, h₄⟩, hvalue, h⟩ := bind_eq_ok.1 h
    obtain ⟨⟨s₂, r₅, h₅⟩, hin, h⟩ := bind_eq_ok.1 h
    obtain ⟨⟨body, r₆, h₆⟩, hbody, h⟩ := bind_eq_ok.1 h
    obtain ⟨bs, rfl, hb⟩ := ih.expression r₅ (by simp only [List.length_cons]; omega) _ _ _ hbody
    obtain ⟨vs, rfl, hv⟩ := ih.expression r₃ (by simp only [List.length_cons]; omega) _ _ _ hvalue
    obtain ⟨as, rfl, ha⟩ := annotation_of_annotation htype
    obtain rfl := eq_of_identifier hname
    obtain rfl := eq_of_expect heq
    obtain rfl := eq_of_expect hin
    cases h
    exact ⟨⟨.mark .letWord, start⟩ :: ⟨.identifier name, s⟩ :: as ++ ⟨.mark .equals, s₁⟩ :: vs ++
      ⟨.mark .inWord, s₂⟩ :: bs, by simp, by simpa [bare, mapSpan] using Expression.letIn ha hv hb⟩
  · obtain ⟨us, hus, hd, _⟩ := sound_binaryFrom ih (by decide) e r hr h
    exact ⟨us, hus, .operators hd⟩

theorem sound_items (ih : SoundBelow finish ts.length) (close : Mark) :
    SoundList (items finish close ts) close Items := by
  intro es s r hr h
  rw [items] at h
  simp only [bind_eq_ok, Prod.exists, Subtype.exists] at h
  obtain ⟨e, r₁, h₁, he, h⟩ := h
  obtain ⟨us, rfl, hd⟩ := sound_expression ih _ _ _ he
  split at h
  · rename_i s₁ rest _ _
    simp only [bind_eq_ok, Prod.exists, Subtype.exists] at h
    obtain ⟨es, s₂, r₂, h₂, hes, h⟩ := h
    obtain ⟨vs, rfl, hs⟩ := ih.items close rest
      (by simp only [List.length_append, List.length_cons]; omega) _ _ _ _ hes
    cases h
    exact ⟨us ++ ⟨.mark .comma, s₁⟩ :: vs, by simp, by simpa using Items.more hd hs⟩
  · simp only [bind_eq_ok, Prod.exists, Subtype.exists] at h
    obtain ⟨s₂, r₂, h₂, hclose, h⟩ := h
    obtain rfl := eq_of_expect hclose
    cases h
    exact ⟨us, rfl, .one hd⟩

theorem sound_arguments (ih : SoundBelow finish ts.length) (close : Mark) :
    SoundList (arguments finish close ts) close Arguments := by
  intro es s r hr h
  rw [arguments] at h
  split at h
  · rename_i s₁ rest hclose
    cases h
    exact ⟨[], eq_of_expect hclose, .none⟩
  · obtain ⟨us, hus, hd⟩ := sound_items ih close es s r hr h
    exact ⟨us, hus, .some hd⟩

theorem soundBelow (finish n : Nat) : SoundBelow finish n := by
  induction n using Nat.strongRecOn with
  | ind n ih =>
    exact {
      expression := fun ts h => sound_expression (ih _ h)
      binaryFrom := fun level ts hlevel h => sound_binaryFrom (ih _ h) hlevel
      binaryTail := fun level left ts q vs hq hl hnext h => sound_binaryTail (ih _ h) hq hl hnext
      unary := fun ts h => sound_unary (ih _ h)
      postfixTail := fun source ts vs hs h => sound_postfixTail (ih _ h) hs
      items := fun close ts h => sound_items (ih _ h) close
      arguments := fun close ts h => sound_arguments (ih _ h) close }

theorem expression_of_complete {e : Expr} (h : complete finish ts = .ok e) :
    Expression (ts.map (·.token)) e.bare := by
  unfold complete at h
  simp only [bind_eq_ok, Prod.exists, Subtype.exists] at h
  obtain ⟨e', r, hr, hread, h⟩ := h
  obtain ⟨us, rfl, hd⟩ := sound_expression (soundBelow finish ts.length) _ _ _ hread
  split at h
  · cases h
    simpa using hd
  · cases h

end GraphQuery.Expr.Parser
