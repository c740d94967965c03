import GraphQuery.Proofs.Parser.Placement

namespace GraphQuery.Expr.Parser

open Grammar Located

section

variable {finish n level : Nat} {close : Mark} {ts rest : List Located} {e : Expr}

theorem binaryTail_of_below (h : Below n rest) (hn : n < level) :
    binaryTail finish level e rest = .ok (e, ⟨rest, Nat.le_refl _⟩) := by
  cases rest with
  | nil => rw [binaryTail]
  | cons t rest =>
    rw [binaryTail]
    split
    · rename_i op hop
      have hp : op.precedence ≤ n := by rw [precedence_eq_pull hop]; exact h
      rw [if_pos (Nat.lt_of_le_of_lt hp hn)]
    · rfl

theorem postfixTail_of_below (h : Below 8 rest) :
    postfixTail finish e rest = .ok (e, ⟨rest, Nat.le_refl _⟩) := by
  rw [postfixTail.eq_def]
  split
  · simp [Below, pull] at h
  · simp [Below, pull] at h
  · rfl

theorem primary_name_of_below {name : String} {s : Span} (h : Below 9 rest) :
    primary finish (⟨.identifier name, s⟩ :: rest) = .ok (.var s name, ⟨rest, Nat.lt_succ_self _⟩) := by
  rw [primary]
  · rintro s r rfl
    simp [Below, pull] at h
  · rintro s r rfl
    simp [Below, pull] at h

theorem expression_eq_binaryFrom (h : ∀ s r, ts ≠ ⟨.mark .letWord, s⟩ :: r) :
    expression finish ts = binaryFrom finish 1 ts := by
  rw [expression.eq_def]
  split
  · exact absurd rfl (h _ _)
  · rfl

theorem unary_eq_postfixed (hnot : ∀ s r, ts ≠ ⟨.mark .notWord, s⟩ :: r)
    (hminus : ∀ s r, ts ≠ ⟨.mark .minus, s⟩ :: r) : unary finish ts = postfixed finish ts := by
  cases ts with
  | nil => rw [unary]
  | cons t rest =>
    obtain ⟨t, s⟩ := t
    have hop : unaryOp? t = none := by
      unfold unaryOp?
      split
      · exact absurd rfl (hnot _ _)
      · exact absurd rfl (hminus _ _)
      · rfl
    rw [unary, hop]

theorem arguments_eq_items (h : ∀ s r, ts ≠ ⟨.mark close, s⟩ :: r) :
    arguments finish close ts = items finish close ts := by
  rw [arguments]
  split
  · rename_i hclose
    exact absurd (eq_of_expect hclose) (h _ _)
  · rfl

theorem call_unique {source call call' : Expr} {name : String} {arguments : List Expr}
    (h : Call source name arguments call) (h' : Call source name arguments call') : call = call' := by
  cases h <;> cases h' <;> simp_all

theorem bare_operationCall (s : Span) {source call : Expr} {name : String} {arguments : List Expr}
    (h : Call source.bare name (arguments.map bare) call) :
    (operationCall s source name arguments).bare = call :=
  call_unique (call_operationCall s source name arguments) h

end

section Levels

variable {us : List Located} {e : Expr}

theorem ReadsAs.toPostfixed (h : ReadsAs primary 9 us e) : LeadsTo postfixed postfixTail 9 us e := by
  intro finish k vs rest hvs hrest e' r h' htail
  obtain ⟨hlt, he⟩ := h finish k vs rest hvs hrest
  refine ⟨Nat.lt_of_le_of_lt h' hlt, ?_⟩
  rw [postfixed]
  simp only [he, ok_bind, htail]

theorem LeadsTo.toUnary (h : LeadsTo postfixed postfixTail 9 us e) (hopens : Opens 0 (us.map (·.token))) :
    ReadsAs unary 8 us e := by
  intro finish k vs rest hvs hrest
  obtain ⟨h', hread⟩ := h finish k vs rest hvs (hrest.mono (Nat.le_succ 8)) _ rest _ (postfixTail_of_below hrest)
  refine ⟨h', ?_⟩
  rw [unary_eq_postfixed, hread]
  · exact ne_cons_of_opens hopens hvs.spells (by decide)
  · exact ne_cons_of_opens hopens hvs.spells (by decide)

theorem ReadsAs.toOperators (h : ReadsAs unary 8 us e) (level : Nat) :
    LeadsTo (binaryFrom · level) (binaryTail · level) 8 us e := by
  intro finish k vs rest hvs hrest e' r h' htail
  obtain ⟨hlt, he⟩ := h finish k vs rest hvs hrest
  refine ⟨Nat.lt_of_le_of_lt h' hlt, ?_⟩
  dsimp only at htail ⊢
  rw [binaryFrom]
  simp only [he, ok_bind, htail]

theorem LeadsTo.toExpression {n : Nat} (h : LeadsTo (binaryFrom · 1) (binaryTail · 1) n us e)
    (hopens : Opens 1 (us.map (·.token))) : ReadsAs expression 0 us e := by
  intro finish k vs rest hvs hrest
  obtain ⟨h', hread⟩ := h finish k vs rest hvs (hrest.mono (Nat.zero_le n)) _ rest _
    (binaryTail_of_below hrest Nat.zero_lt_one)
  refine ⟨h', ?_⟩
  rw [expression_eq_binaryFrom]
  · exact hread
  · exact ne_cons_of_opens hopens hvs.spells (by decide)

theorem ReadsAs.toExpression (h : ReadsAs unary 8 us e) (hopens : Opens 1 (us.map (·.token))) :
    ReadsAs expression 0 us e :=
  (h.toOperators 1).toExpression hopens

theorem LeadsTo.sourceToExpression (h : LeadsTo postfixed postfixTail 9 us e)
    (hopens : Opens 0 (us.map (·.token))) : ReadsAs expression 0 us e :=
  (h.toUnary hopens).toExpression (hopens.mono (Nat.zero_le 1))

theorem unary_operand {t : Token} {op : UnaryOp} (s : Span) (hop : unaryOp? t = some op)
    (hread : ReadsAs unary 8 us e) (hplaced : Placed us e) (hopens : Opens 1 (us.map (·.token))) :
    ReadsAs unary 8 (⟨t, s⟩ :: us) (.unary (s.hull e.span) op e) ∧
      Placed (⟨t, s⟩ :: us) (.unary (s.hull e.span) op e) := by
  constructor
  · intro finish k vs rest hvs hrest
    obtain ⟨_, rfl, hus⟩ := shifts_cons.1 hvs
    obtain ⟨h, he⟩ := hread finish k _ rest hus hrest
    refine ⟨Nat.lt_succ_of_lt h, ?_⟩
    rw [unary, hop]
    simp only [he, ok_bind, span_down, ← Span.down_hull]
    rfl
  · have hread := hread.toExpression hopens
    exact placed_of_hull [⟨t, s⟩] [] us rfl (by simp) hread.ne_nil (fun _ => rfl) hplaced.span rfl
      (hplaced.stands hread).row.skip

end Levels

theorem one_le_of_operatorAt {n : Nat} {m : Mark} {op : BinaryOp} (h : OperatorAt n m op) : 1 ≤ n := by
  cases h <;> decide

mutual
theorem expression_read {ts : List Token} {t : Expr} : Expression ts t → ∀ ⦃us : List Located⦄,
    us.map (·.token) = ts → ∃ e, e.bare = t ∧ ReadsAs expression 0 us e ∧ Placed us e
  | @Expression.letIn name _ _ _ _ _ ha hv hb => by
    intro us hus
    simp only [List.append_assoc, List.cons_append, List.map_eq_append_iff, List.map_eq_cons_iff] at hus
    obtain ⟨⟨_, s⟩, _, rfl, rfl, ⟨_, s₁⟩, _, rfl, rfl, as, _, rfl, has, ⟨_, s₂⟩, _, rfl, rfl, vs, _, rfl, hvs,
      ⟨_, s₃⟩, bs, rfl, rfl, hbs⟩ := hus
    obtain ⟨value, rfl, hvalue, hplaced⟩ := expression_read hv hvs
    obtain ⟨body, rfl, hbody, hplaced'⟩ := expression_read hb hbs
    refine ⟨.letIn (s.hull body.span) name value body, rfl, ?_, ?_⟩
    · intro finish k ws rest hws hrest
      simp only [shifts_cons, shifts_append] at hws
      obtain ⟨_, rfl, _, rfl, _, has', _, rfl, _, hvs', _, rfl, hbs'⟩ := hws
      obtain ⟨h₁, htype⟩ := annotation_read finish ha (has ▸ has'.spells) (by simp [Below, pull]) (by simp)
      obtain ⟨h₂, hvalue⟩ := hvalue finish k _ _ hvs' (by simp [Below, pull])
      obtain ⟨h₃, hbody⟩ := hbody finish k _ rest hbs' hrest
      simp only [List.length_cons] at h₁ h₂
      refine ⟨by simp only [List.length_cons]; omega, ?_⟩
      rw [expression]
      simp only [identifier_cons, ok_bind, htype, expect_cons, hvalue, hbody, span_down, ← Span.down_hull]
      rfl
    · exact placed_of_hull [⟨.mark .letWord, s⟩]
        (⟨.identifier name, s₁⟩ :: as ++ ⟨.mark .equals, s₂⟩ :: vs ++ [⟨.mark .inWord, s₃⟩]) bs (by simp) (by simp)
        hbody.ne_nil (fun _ => rfl) hplaced'.span rfl
        (((hplaced.stands hvalue).join (hplaced'.stands hbody).row.skip).skip.prepend as).skip.skip
  | .operators h => by
    intro us hus
    obtain ⟨e, he, hlead, hplaced⟩ := operators_read h hus
    exact ⟨e, he, (hlead 1 (Nat.le_refl 1)).toExpression (hus ▸ h.opens), hplaced⟩

theorem operators_read {n : Nat} {ts : List Token} {t : Expr} : Operators n ts t → ∀ ⦃us : List Located⦄,
    us.map (·.token) = ts → ∃ e, e.bare = t ∧
      (∀ level ≤ n, LeadsTo (binaryFrom · level) (binaryTail · level) n us e) ∧ Placed us e
  | .unary h => by
    intro us hus
    obtain ⟨e, he, hread, hplaced⟩ := unary_read h hus
    exact ⟨e, he, fun level _ => hread.toOperators level, hplaced⟩
  | .higher h => by
    intro us hus
    obtain ⟨e, he, hlead, hplaced⟩ := operators_read h hus
    refine ⟨e, he, fun level hlevel finish k vs rest hvs hrest => ?_, hplaced⟩
    exact hlead level (Nat.le_succ_of_le hlevel) finish k vs rest hvs (hrest.mono (Nat.le_succ _))
  | @Operators.binary n m op _ _ _ _ hop hl hr => by
    intro us hus
    simp only [List.map_eq_append_iff, List.map_eq_cons_iff] at hus
    obtain ⟨ls, _, rfl, hls, ⟨_, s⟩, rs, rfl, rfl, hrs⟩ := hus
    obtain ⟨left, rfl, hleft, hplaced⟩ := operators_read hl hls
    obtain ⟨right, rfl, hright, hplaced'⟩ := operators_read hr hrs
    obtain ⟨hsome, hp⟩ := binaryOp?_operatorAt hop
    refine ⟨.binary (left.span.hull right.span) op left right, rfl, ?_, ?_⟩
    · intro level hlevel finish k vs rest hvs hrest e' r h htail
      simp only [shifts_append, shifts_cons] at hvs
      obtain ⟨_, hls', _, rfl, hrs'⟩ := hvs
      obtain ⟨h₁, hright⟩ := hright _ (Nat.le_refl _) finish k _ rest hrs' (hrest.mono (Nat.le_succ _)) _ rest _
        (binaryTail_of_below hrest (Nat.lt_succ_self _))
      apply hleft level hlevel finish k _ _ hls' (Nat.le_of_eq (pull_operatorAt hop)) e' r
        (by simp only [List.length_cons]; omega)
      have htail : binaryTail finish level (.binary ((left.down k).span.hull (right.down k).span) op (left.down k)
          (right.down k)) rest = .ok (e', ⟨r, h⟩) := by
        rw [span_down, span_down, ← Span.down_hull]
        exact htail
      dsimp only at hright ⊢
      rw [binaryTail, hsome]
      simp only [hp, if_neg (Nat.not_lt.2 hlevel), hright, ok_bind, htail]
    · have hone := one_le_of_operatorAt hop
      have hleft := (hleft 1 hone).toExpression (hls ▸ hl.opens)
      have hright := (hright 1 (Nat.le_succ_of_le hone)).toExpression (hrs ▸ hr.opens)
      exact placed_of_hull ls [⟨.mark m, s⟩] rs (by simp) hleft.ne_nil hright.ne_nil hplaced.span hplaced'.span rfl
        ((hplaced.stands hleft).join (hplaced'.stands hright).row.skip)

theorem unary_read {ts : List Token} {t : Expr} : Unary ts t → ∀ ⦃us : List Located⦄,
    us.map (·.token) = ts → ∃ e, e.bare = t ∧ ReadsAs unary 8 us e ∧ Placed us e
  | .not h => by
    intro us hus
    obtain ⟨⟨_, s⟩, vs, rfl, rfl, hvs⟩ := List.map_eq_cons_iff.1 hus
    obtain ⟨e, rfl, hread, hplaced⟩ := unary_read h hvs
    exact ⟨_, rfl, unary_operand s rfl hread hplaced (hvs ▸ h.opens)⟩
  | .minus h => by
    intro us hus
    obtain ⟨⟨_, s⟩, vs, rfl, rfl, hvs⟩ := List.map_eq_cons_iff.1 hus
    obtain ⟨e, rfl, hread, hplaced⟩ := unary_read h hvs
    exact ⟨_, rfl, unary_operand s rfl hread hplaced (hvs ▸ h.opens)⟩
  | .postfixed h => by
    intro us hus
    obtain ⟨e, he, hlead, hplaced⟩ := postfixed_read h hus
    exact ⟨e, he, hlead.toUnary (hus ▸ h.opens), hplaced⟩

theorem postfixed_read {ts : List Token} {t : Expr} : Postfixed ts t → ∀ ⦃us : List Located⦄,
    us.map (·.token) = ts → ∃ e, e.bare = t ∧ LeadsTo postfixed postfixTail 9 us e ∧ Placed us e
  | .primary h => by
    intro us hus
    obtain ⟨e, he, hread, hplaced⟩ := primary_read h hus
    exact ⟨e, he, hread.toPostfixed, hplaced⟩
  | @Postfixed.navigation _ _ name h => by
    intro us hus
    simp only [List.map_eq_append_iff, List.map_eq_cons_iff, List.map_eq_nil_iff] at hus
    obtain ⟨vs, _, rfl, hvs, ⟨_, s⟩, _, rfl, rfl, ⟨_, s₁⟩, _, rfl, rfl, rfl⟩ := hus
    obtain ⟨source, rfl, hsource, hplaced⟩ := postfixed_read h hvs
    refine ⟨.navigation (source.span.hull s₁) source name, rfl, ?_, ?_⟩
    · intro finish k ws rest hws hrest e' r h' htail
      simp only [shifts_append, shifts_cons, shifts_nil] at hws
      obtain ⟨_, hvs', _, rfl, _, rfl, rfl⟩ := hws
      apply hsource finish k _ _ hvs' (by simp [Below, pull]) e' r (by simp only [List.length_cons]; omega)
      have htail : postfixTail finish (.navigation ((source.down k).span.hull (s₁.down k)) (source.down k) name) _ =
          .ok (e', ⟨r, h'⟩) := by
        rw [span_down, ← Span.down_hull]
        exact htail
      rw [postfixTail]
      simp only [identifier_cons, ok_bind]
      split
      · simp [Below, pull] at hrest
      · simp only [htail, ok_bind]
    · have hsource := hsource.sourceToExpression (hvs ▸ h.opens)
      exact placed_of_hull vs [⟨.mark .dot, s⟩] [⟨.identifier name, s₁⟩] (by simp) hsource.ne_nil (by simp)
        hplaced.span (fun _ => rfl) rfl ((hplaced.stands hsource).join (.nil _))
  | @Postfixed.operation _ _ _ _ name _ h ha hc => by
    intro us hus
    simp only [List.append_assoc, List.cons_append, List.map_eq_append_iff, List.map_eq_cons_iff,
      List.map_eq_nil_iff] at hus
    obtain ⟨vs, _, rfl, hvs, ⟨_, s⟩, _, rfl, rfl, ⟨_, s₁⟩, _, rfl, rfl, ⟨_, s₂⟩, _, rfl, rfl, as, _, rfl, has,
      ⟨_, s₃⟩, _, rfl, rfl, rfl⟩ := hus
    obtain ⟨source, rfl, hsource, hplaced⟩ := postfixed_read h hvs
    obtain ⟨es, rfl, hes, hrow⟩ := arguments_read ha has
    refine ⟨operationCall (source.span.hull s₃) source name es, bare_operationCall _ hc, ?_, ?_⟩
    · intro finish k ws rest hws hrest e' r h' htail
      simp only [shifts_append, shifts_cons, shifts_nil] at hws
      obtain ⟨_, hvs', _, rfl, _, rfl, _, rfl, _, has', _, rfl, rfl⟩ := hws
      obtain ⟨h₁, hes⟩ := hes finish .rightParen k _ _ _ has' (Or.inl rfl)
      apply hsource finish k _ _ hvs' (by simp [Below, pull]) e' r (by simp only [List.length_cons]; omega)
      rw [down_operationCall, Span.down_hull, ← span_down] at htail
      rw [postfixTail]
      simp only [identifier_cons, ok_bind, hes, htail]
    · have hsource := hsource.sourceToExpression (hvs ▸ h.opens)
      refine placed_of_hull vs (⟨.mark .dot, s⟩ :: ⟨.identifier name, s₁⟩ :: ⟨.mark .leftParen, s₂⟩ :: as)
        [⟨.mark .rightParen, s₃⟩] (by simp) hsource.ne_nil (by simp) hplaced.span (fun _ => rfl)
        (span_operationCall ..) ?_
      obtain hnone | hall := children_operationCall (source.span.hull s₃) source name es
      · rw [hnone]
        exact .nil _
      · rw [hall]
        exact (hplaced.stands hsource).join (hrow.append _).skip.skip.skip
  | @Postfixed.iterator _ _ _ _ _ kind declared h hd hb => by
    intro us hus
    simp only [List.append_assoc, List.cons_append, List.map_eq_append_iff, List.map_eq_cons_iff,
      List.map_eq_nil_iff] at hus
    obtain ⟨vs, _, rfl, hvs, ⟨_, s⟩, _, rfl, rfl, ⟨_, s₁⟩, _, rfl, rfl, ⟨_, s₂⟩, _, rfl, rfl, ds, _, rfl, hds,
      bs, _, rfl, hbs, ⟨_, s₃⟩, _, rfl, rfl, rfl⟩ := hus
    obtain ⟨source, rfl, hsource, hplaced⟩ := postfixed_read h hvs
    obtain ⟨body, rfl, hbody, hplaced'⟩ := expression_read hb hbs
    refine ⟨.iterator (source.span.hull s₃) source kind declared body, rfl, ?_, ?_⟩
    · intro finish k ws rest hws hrest e' r h' htail
      simp only [shifts_append, shifts_cons, shifts_nil] at hws
      obtain ⟨_, hvs', _, rfl, _, rfl, _, rfl, _, hds', _, hbs', _, rfl, rfl⟩ := hws
      obtain ⟨h₁, hvar⟩ := declaration_read finish hd (hds ▸ hds'.spells) hb.opens (hbs ▸ hbs'.spells)
      obtain ⟨h₂, hbody⟩ := hbody finish k _ _ hbs' (by simp [Below, pull])
      simp only [List.length_cons] at h₂
      apply hsource finish k _ _ hvs' (by simp [Below, pull]) e' r (by simp only [List.length_cons]; omega)
      have htail : postfixTail finish (.iterator ((source.down k).span.hull (s₃.down k)) (source.down k) kind
          declared (body.down k)) _ = .ok (e', ⟨r, h'⟩) := by
        rw [span_down, ← Span.down_hull]
        exact htail
      rw [postfixTail]
      simp only [identifier_cons, expect_cons, iteratorKind_ofName?_name, ok_bind, hvar, hbody, htail]
    · have hsource := hsource.sourceToExpression (hvs ▸ h.opens)
      exact placed_of_hull vs
        (⟨.mark .arrow, s⟩ :: ⟨.identifier kind.name, s₁⟩ :: ⟨.mark .leftParen, s₂⟩ :: ds ++ bs)
        [⟨.mark .rightParen, s₃⟩] (by simp) hsource.ne_nil (by simp) hplaced.span (fun _ => rfl) rfl
        ((hplaced.stands hsource).join (((hplaced'.stands hbody).join (.nil _)).prepend ds).skip.skip.skip)
  | @Postfixed.collectionCall _ _ _ name _ h hname ha => by
    intro us hus
    simp only [List.append_assoc, List.cons_append, List.map_eq_append_iff, List.map_eq_cons_iff,
      List.map_eq_nil_iff] at hus
    obtain ⟨vs, _, rfl, hvs, ⟨_, s⟩, _, rfl, rfl, ⟨_, s₁⟩, _, rfl, rfl, ⟨_, s₂⟩, _, rfl, rfl, as, _, rfl, has,
      ⟨_, s₃⟩, _, rfl, rfl, rfl⟩ := hus
    obtain ⟨source, rfl, hsource, hplaced⟩ := postfixed_read h hvs
    obtain ⟨es, rfl, hes, hrow⟩ := arguments_read ha has
    refine ⟨.collectionCall (source.span.hull s₃) source name es, bare_collectionCall _ _ _ _, ?_, ?_⟩
    · intro finish k ws rest hws hrest e' r h' htail
      simp only [shifts_append, shifts_cons, shifts_nil] at hws
      obtain ⟨_, hvs', _, rfl, _, rfl, _, rfl, _, has', _, rfl, rfl⟩ := hws
      obtain ⟨h₁, hes⟩ := hes finish .rightParen k _ _ _ has' (Or.inl rfl)
      apply hsource finish k _ _ hvs' (by simp [Below, pull]) e' r (by simp only [List.length_cons]; omega)
      have htail : postfixTail finish (.collectionCall ((source.down k).span.hull (s₃.down k)) (source.down k) name
          (es.map (down k))) _ = .ok (e', ⟨r, h'⟩) := by
        rw [span_down, ← Span.down_hull, ← mapSpans_down]
        exact htail
      rw [postfixTail]
      simp only [identifier_cons, expect_cons, iteratorKind_ofName?_eq_none.2 hname, ok_bind, hes, htail]
    · have hsource := hsource.sourceToExpression (hvs ▸ h.opens)
      exact placed_of_hull vs (⟨.mark .arrow, s⟩ :: ⟨.identifier name, s₁⟩ :: ⟨.mark .leftParen, s₂⟩ :: as)
        [⟨.mark .rightParen, s₃⟩] (by simp) hsource.ne_nil (by simp) hplaced.span (fun _ => rfl) rfl
        ((hplaced.stands hsource).join (hrow.append _).skip.skip.skip)

theorem primary_read {ts : List Token} {t : Expr} : Primary ts t → ∀ ⦃us : List Located⦄,
    us.map (·.token) = ts → ∃ e, e.bare = t ∧ ReadsAs primary 9 us e ∧ Placed us e
  | .literal h => by
    intro us hus
    simp only [List.map_eq_cons_iff, List.map_eq_nil_iff] at hus
    obtain ⟨⟨_, s⟩, _, rfl, rfl, rfl⟩ := hus
    refine ⟨.literal s _, rfl, ?_, fun _ => rfl, .nil _⟩
    intro finish k vs rest hvs _
    obtain ⟨_, rfl, rfl⟩ := shifts_cons.1 hvs
    refine ⟨by simp, ?_⟩
    cases h <;> simp [primary, literal?, down, mapSpan]
  | .parenthesized h => by
    intro us hus
    simp only [List.cons_append, List.map_eq_append_iff, List.map_eq_cons_iff, List.map_eq_nil_iff] at hus
    obtain ⟨⟨_, s⟩, _, rfl, rfl, vs, _, rfl, hvs, ⟨_, s₁⟩, _, rfl, rfl, rfl⟩ := hus
    obtain ⟨e, rfl, hread, hplaced⟩ := expression_read h hvs
    refine ⟨e.withSpan (s.hull s₁), bare_withSpan _ e, ?_, ?_⟩
    · intro finish k ws rest hws _
      simp only [shifts_append, shifts_cons, shifts_nil] at hws
      obtain ⟨_, rfl, _, hvs', _, rfl, rfl⟩ := hws
      obtain ⟨h₁, he⟩ := hread finish k _ _ hvs' (by simp [Below, pull])
      simp only [List.length_cons] at h₁
      refine ⟨by simp only [List.length_cons]; omega, ?_⟩
      rw [primary]
      simp only [he, ok_bind, expect_cons, down_withSpan, Span.down_hull]
    · refine placed_of_hull [⟨.mark .leftParen, s⟩] vs [⟨.mark .rightParen, s₁⟩] (by simp) (by simp) (by simp)
        (fun _ => rfl) (fun _ => rfl) (span_withSpan ..) ?_
      rw [children_withSpan]
      exact (hplaced.parts.append _).skip
  | .conditional hc hy hn => by
    intro us hus
    simp only [List.append_assoc, List.cons_append, List.map_eq_append_iff, List.map_eq_cons_iff,
      List.map_eq_nil_iff] at hus
    obtain ⟨⟨_, s⟩, _, rfl, rfl, cs, _, rfl, hcs, ⟨_, s₁⟩, _, rfl, rfl, ys, _, rfl, hys, ⟨_, s₂⟩, _, rfl, rfl,
      ns, _, rfl, hns, ⟨_, s₃⟩, _, rfl, rfl, rfl⟩ := hus
    obtain ⟨condition, rfl, hcondition, hplaced⟩ := expression_read hc hcs
    obtain ⟨yes, rfl, hyes, hplaced₁⟩ := expression_read hy hys
    obtain ⟨no, rfl, hno, hplaced₂⟩ := expression_read hn hns
    refine ⟨.conditional (s.hull s₃) condition yes no, rfl, ?_, ?_⟩
    · intro finish k ws rest hws _
      simp only [shifts_append, shifts_cons, shifts_nil] at hws
      obtain ⟨_, rfl, _, hcs', _, rfl, _, hys', _, rfl, _, hns', _, rfl, rfl⟩ := hws
      obtain ⟨h₁, hcondition⟩ := hcondition finish k _ _ hcs' (by simp [Below, pull])
      obtain ⟨h₂, hyes⟩ := hyes finish k _ _ hys' (by simp [Below, pull])
      obtain ⟨h₃, hno⟩ := hno finish k _ _ hns' (by simp [Below, pull])
      simp only [List.length_cons] at h₁ h₂ h₃
      refine ⟨by simp only [List.length_cons]; omega, ?_⟩
      rw [primary]
      simp only [hcondition, hyes, hno, ok_bind, expect_cons, ← Span.down_hull]
      rfl
    · exact placed_of_hull [⟨.mark .ifWord, s⟩] (cs ++ ⟨.mark .thenWord, s₁⟩ :: ys ++ ⟨.mark .elseWord, s₂⟩ :: ns)
        [⟨.mark .endifWord, s₃⟩] (by simp) (by simp) (by simp) (fun _ => rfl) (fun _ => rfl) rfl
        ((hplaced.stands hcondition).join ((hplaced₁.stands hyes).join
          ((hplaced₂.stands hno).join (.nil _)).skip).skip).skip
  | .typeName metamodel className => by
    intro us hus
    simp only [List.map_eq_cons_iff, List.map_eq_nil_iff] at hus
    obtain ⟨⟨_, s⟩, _, rfl, rfl, ⟨_, s₁⟩, _, rfl, rfl, ⟨_, s₂⟩, _, rfl, rfl, rfl⟩ := hus
    refine ⟨.typeName (s.hull s₂) (some metamodel) className, rfl, ?_, ?_⟩
    · intro finish k ws rest hws _
      simp only [shifts_cons, shifts_nil] at hws
      obtain ⟨_, rfl, _, rfl, _, rfl, rfl⟩ := hws
      refine ⟨by simp only [List.length_cons]; omega, ?_⟩
      rw [primary]
      simp only [identifier_cons, ok_bind, ← Span.down_hull]
      rfl
    · exact placed_of_hull [⟨.identifier metamodel, s⟩] [⟨.mark .bang, s₁⟩] [⟨.identifier className, s₂⟩] rfl
        (by simp) (by simp) (fun _ => rfl) (fun _ => rfl) rfl (.nil _)
  | @Primary.collection _ kind _ ha => by
    intro us hus
    simp only [List.cons_append, List.map_eq_append_iff, List.map_eq_cons_iff, List.map_eq_nil_iff] at hus
    obtain ⟨⟨_, s⟩, _, rfl, rfl, ⟨_, s₁⟩, _, rfl, rfl, as, _, rfl, has, ⟨_, s₂⟩, _, rfl, rfl, rfl⟩ := hus
    obtain ⟨es, rfl, hes, hrow⟩ := arguments_read ha has
    refine ⟨.collection (s.hull s₂) kind es, bare_collection _ _ _, ?_, ?_⟩
    · intro finish k ws rest hws _
      simp only [shifts_append, shifts_cons, shifts_nil] at hws
      obtain ⟨_, rfl, _, rfl, _, has', _, rfl, rfl⟩ := hws
      obtain ⟨h₁, hes⟩ := hes finish .rightBrace k _ _ _ has' (Or.inr rfl)
      refine ⟨by simp only [List.length_cons]; omega, ?_⟩
      rw [primary, collectionKind_ofName?_eq_some.2 rfl]
      simp only [hes, ok_bind, ← Span.down_hull, ← mapSpans_down]
      rfl
    · exact placed_of_hull [⟨.identifier kind.name, s⟩] (⟨.mark .leftBrace, s₁⟩ :: as) [⟨.mark .rightBrace, s₂⟩]
        (by simp) (by simp) (by simp) (fun _ => rfl) (fun _ => rfl) rfl (hrow.append _).skip.skip
  | .var name => by
    intro us hus
    simp only [List.map_eq_cons_iff, List.map_eq_nil_iff] at hus
    obtain ⟨⟨_, s⟩, _, rfl, rfl, rfl⟩ := hus
    refine ⟨.var s name, rfl, ?_, fun _ => rfl, .nil _⟩
    intro finish k ws rest hws hrest
    obtain ⟨_, rfl, rfl⟩ := shifts_cons.1 hws
    exact ⟨_, primary_name_of_below hrest⟩

theorem arguments_read {ts : List Token} {es' : List Expr} : Arguments ts es' → ∀ ⦃us : List Located⦄,
    us.map (·.token) = ts → ∃ es, es.map bare = es' ∧ ReadsAllAs arguments us es ∧ Row us es
  | .none => by
    intro us hus
    obtain rfl := List.map_eq_nil_iff.1 hus
    refine ⟨[], rfl, ?_, .nil _⟩
    intro finish close k vs s rest hvs _
    obtain rfl := shifts_nil.1 hvs
    refine ⟨by simp, ?_⟩
    rw [arguments, expect_cons]
    rfl
  | .some h => by
    intro us hus
    obtain ⟨es, hes, hread, hrow⟩ := items_read h hus
    refine ⟨es, hes, ?_, hrow⟩
    intro finish close k vs s rest hvs hclose
    rw [arguments_eq_items]
    · exact hread finish close k vs s rest hvs hclose
    · exact ne_cons_of_opens h.opens (hus ▸ hvs.spells) (by rw [hclose.openingRank_eq]; decide)

theorem items_read {ts : List Token} {es' : List Expr} : Items ts es' → ∀ ⦃us : List Located⦄,
    us.map (·.token) = ts → ∃ es, es.map bare = es' ∧ ReadsAllAs items us es ∧ Row us es
  | .one h => by
    intro us hus
    obtain ⟨e, rfl, hread, hplaced⟩ := expression_read h hus
    refine ⟨[e], rfl, ?_, (hplaced.stands hread).row⟩
    intro finish close k vs s rest hvs hclose
    obtain ⟨h₁, he⟩ := hread finish k vs _ hvs (Nat.le_of_eq hclose.pull_eq)
    simp only [List.length_cons] at h₁
    refine ⟨by omega, ?_⟩
    rw [items]
    simp only [he, ok_bind]
    rcases hclose with rfl | rfl <;> simp only [expect_cons, ok_bind] <;> rfl
  | .more h hs => by
    intro us hus
    simp only [List.map_eq_append_iff, List.map_eq_cons_iff] at hus
    obtain ⟨vs, _, rfl, hvs, ⟨_, s₁⟩, ws, rfl, rfl, hws⟩ := hus
    obtain ⟨e, rfl, hread, hplaced⟩ := expression_read h hvs
    obtain ⟨es, rfl, hes, hrow⟩ := items_read hs hws
    refine ⟨e :: es, rfl, ?_, (hplaced.stands hread).join hrow.skip⟩
    intro finish close k vs s rest hus hclose
    simp only [shifts_append, shifts_cons] at hus
    obtain ⟨_, hvs', _, rfl, hws'⟩ := hus
    obtain ⟨h₁, he⟩ := hread finish k _ _ hvs' (by simp [Below, pull])
    obtain ⟨h₂, hes⟩ := hes finish close k _ s rest hws' hclose
    simp only [List.length_cons] at h₁
    refine ⟨by omega, ?_⟩
    rw [items]
    simp only [he, hes, ok_bind]
    rfl
end

section Complete

variable (finish : Nat) {us : List Located} {e : Expr}

theorem complete_moved (h : ReadsAs expression 0 us e) (k : Nat) : complete finish (moved k us) = .ok (e.down k) := by
  obtain ⟨_, he⟩ := h finish k (moved k us) [] (List.append_nil _).symm trivial
  unfold complete
  simp only [he, ok_bind]

theorem complete_of_reads (h : ReadsAs expression 0 us e) : complete finish us = .ok e := by
  have hcomplete := complete_moved finish h 0
  rwa [moved_zero, down_zero] at hcomplete

theorem exists_complete_eq {t : Expr} (h : Expression (us.map (·.token)) t) :
    ∃ e, complete finish us = .ok e ∧ e.bare = t := by
  obtain ⟨e, hbare, hread, -⟩ := expression_read h rfl
  exact ⟨e, complete_of_reads finish hread, hbare⟩

theorem stands_of_complete (h : complete finish us = .ok e) : Stands us e := by
  obtain ⟨e', -, hread, hplaced⟩ := expression_read (expression_of_complete h) rfl
  rw [complete_of_reads finish hread] at h
  cases h
  exact hplaced.stands hread

end Complete

theorem expression_unique {ts : List Token} {t t' : Expr} (h : Expression ts t) (h' : Expression ts t') :
    t = t' := by
  have hts : (ts.map (Located.mk · nowhere)).map (·.token) = ts := by
    rw [List.map_map]
    exact List.map_id ts
  obtain ⟨e, he, rfl⟩ := exists_complete_eq 0 (hts.symm ▸ h)
  obtain ⟨e', he', rfl⟩ := exists_complete_eq 0 (hts.symm ▸ h')
  rw [Except.ok.inj (he.symm.trans he')]

/-- All of the tokens are read as a tree if and only if the grammar derives it from them. It derives at most
one. -/
theorem complete_eq_ok_iff_derives :
    (∀ (finish : Nat) (ts : List Located) (t : Expr),
      (∃ e, complete finish ts = .ok e ∧ e.bare = t.bare) ↔ Expression (ts.map (·.token)) t.bare) ∧
    ∀ (ts : List Token) (t t' : Expr), Expression ts t → Expression ts t' → t = t' := by
  refine ⟨?_, fun ts t t' => expression_unique⟩
  intro finish ts t
  constructor
  · rintro ⟨e, he, hbare⟩
    rw [← hbare]
    exact expression_of_complete he
  · exact exists_complete_eq finish

end GraphQuery.Expr.Parser
