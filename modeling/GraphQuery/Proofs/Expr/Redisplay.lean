import GraphQuery.Proofs.Expr.Parts
import GraphQuery.Proofs.Expr.StringLiterals
import GraphQuery.Proofs.Parser.Completeness

/-!
Reading the text of an expression again. Without parentheses around unary operators, a navigation or call on a unary
operator is read as the operator on the navigation or call, and two minus signs begin a comment. The text is
scanned as the tokens of a tree in which the unary operators stand outside. This tree is the expression itself if it
is rereadable.
-/

namespace GraphQuery.Expr

open Token Grammar

inductive Prefixed : List Token → Expr → Prop
  | not {ts : List Token} {e : Expr} (h : Prefixed ts e) : Prefixed (.mark .notWord :: ts) (.unary nowhere .not e)
  | minus {ts : List Token} {e : Expr} (h : Prefixed ts e) : Prefixed (.mark .minus :: ts) (.unary nowhere .minus e)
  | postfixed {ts : List Token} {e : Expr} (h : Postfixed ts e) (hunary : e.isUnary = false) : Prefixed ts e

section Prefixed

variable {e : Expr} {ts us : List Token}

theorem Prefixed.unary (h : Prefixed ts e) : Unary ts e := by
  induction h with
  | not _ ih => exact .not ih
  | minus _ ih => exact .minus ih
  | postfixed h _ => exact .postfixed h

theorem expression_of_unary (h : Unary ts e) : Expression ts e :=
  .operators (Parser.operators_of_le (by decide) (.unary h))

theorem isMinus_eq_false (h : e.isUnary = false) : e.isMinus = false := by
  cases e with
  | unary => cases h
  | _ => rfl

def Extends (K : Expr → Expr → Prop) (clear : Bool) (us : List Token) : Prop :=
  ∀ ts e, Postfixed ts e → e.isUnary = false → ∃ e', K e e' ∧ Postfixed (ts ++ us) e' ∧ e'.isUnary = false ∧
    e'.isCompound = false ∧ e'.rereadable = (e.rereadable && clear)

theorem Prefixed.extend {K : Expr → Expr → Prop} {clear : Bool} (h : Prefixed ts e) (hk : Extends K clear us) :
    ∃ e', Prefixed (ts ++ us) e' ∧ e'.isCompound = false ∧ e'.isMinus = e.isMinus ∧
      e'.rereadable = (e.rereadable && clear) ∧ (e.isUnary = false → K e e') := by
  induction h with
  | @not ts e _ ih =>
    obtain ⟨e', he', -, -, hclear, -⟩ := ih
    refine ⟨_, .not he', rfl, rfl, ?_, fun hfalse => by cases hfalse⟩
    rw [rereadable, rereadable, hclear, Bool.and_assoc]
    rfl
  | @minus ts e _ ih =>
    obtain ⟨e', he', -, hminus, hclear, -⟩ := ih
    refine ⟨_, .minus he', rfl, rfl, ?_, fun hfalse => by cases hfalse⟩
    rw [rereadable, rereadable, hclear, hminus, Bool.and_assoc]
  | @postfixed ts e h hunary =>
    obtain ⟨e', hk', he', hunary', hcompound, hclear⟩ := hk ts e h hunary
    refine ⟨e', .postfixed he' hunary', hcompound, ?_, hclear, fun _ => hk'⟩
    rw [isMinus_eq_false hunary, isMinus_eq_false hunary']

end Prefixed

section Conditions

structure Scanned (cs : List Char) (e s : Expr) (ts : List Token) : Prop where
  scans : Scans s.rereadable Separated cs ts
  same : e.rereadable = true → s = e
  signs : weigh minusSigns ts ≤ weigh minusSigns e.parts

def Signed (cs : List Char) (e : Expr) : Prop :=
  if e.isMinus then ∃ r, cs = '-' :: r else Starts cs

def operandText (e : Expr) : List Char :=
  (parenthesized e.isCompound e.display).toList

def Rereads (e : Expr) : Prop :=
  ∃ s ts, Scanned e.display.toList e s ts ∧ s.isCompound = e.isCompound ∧
    if s.isCompound then Expression ts s else Prefixed ts s ∧ Signed e.display.toList s

variable {e : Expr} {ts : List Token}

theorem Rereads.whole (h : Rereads e) : ∃ s ts, Scanned e.display.toList e s ts ∧ Expression ts s := by
  obtain ⟨s, ts, hscanned, -, hderives⟩ := h
  refine ⟨s, ts, hscanned, ?_⟩
  split at hderives
  · exact hderives
  · exact expression_of_unary hderives.1.unary

theorem operandText_of_compound (h : e.isCompound = true) : operandText e = '(' :: (e.display.toList ++ [')']) := by
  rw [operandText, h, parenthesized, if_pos rfl, String.toList_append, String.toList_append, List.append_assoc]
  rfl

theorem isUnary_eq_false (h : e.isCompound = true) : e.isUnary = false := by
  cases e with
  | unary => cases h
  | _ => rfl

theorem signed_of_starts {cs : List Char} (h : Starts cs) (hunary : e.isUnary = false) : Signed cs e := by
  rw [Signed, isMinus_eq_false hunary]
  exact h

theorem Signed.append {cs : List Char} {e' : Expr} (h : Signed cs e) (heq : e'.isMinus = e.isMinus)
    (cs' : List Char) : Signed (cs ++ cs') e' := by
  unfold Signed at h ⊢
  rw [heq]
  split
  · rename_i hminus
    rw [if_pos hminus] at h
    obtain ⟨r, rfl⟩ := h
    exact ⟨r ++ cs', rfl⟩
  · rename_i hminus
    rw [if_neg hminus] at h
    exact h.append cs'

theorem Rereads.operand (h : Rereads e) :
    ∃ s ts, Scanned (operandText e) e s ts ∧ Prefixed ts s ∧ Signed (operandText e) s := by
  obtain ⟨s, ts, hscanned, hcompound, hderives⟩ := h
  split at hderives
  · rename_i hs
    have hunary := isUnary_eq_false hs
    rw [operandText_of_compound (hcompound.symm.trans hs)]
    refine ⟨s, _, ⟨hscanned.scans.parentheses.any, hscanned.same, ?_⟩,
      .postfixed (.primary (.parenthesized hderives)) hunary,
      signed_of_starts ⟨'(', _, rfl, by decide, by decide⟩ hunary⟩
    simpa [minusSigns] using hscanned.signs
  · rename_i hs
    rw [Bool.not_eq_true] at hs
    rw [operandText, ← hcompound, hs]
    exact ⟨s, ts, hscanned, hderives⟩

theorem Rereads.of_compound {s : Expr} (h : Scanned e.display.toList e s ts) (hs : Expression ts s)
    (hcompound : s.isCompound = true) (hcompound' : e.isCompound = true) : Rereads e := by
  refine ⟨s, ts, h, hcompound.trans hcompound'.symm, ?_⟩
  rw [if_pos hcompound]
  exact hs

theorem Rereads.of_prefixed {s : Expr} (h : Scanned e.display.toList e s ts) (hs : Prefixed ts s)
    (hsigned : Signed e.display.toList s) (hcompound : s.isCompound = false) (hcompound' : e.isCompound = false) :
    Rereads e := by
  refine ⟨s, ts, h, hcompound.trans hcompound'.symm, ?_⟩
  rw [if_neg (by rw [hcompound]; decide)]
  exact ⟨hs, hsigned⟩

theorem Rereads.of_postfixed (h : Lexes Separated e.display.toList ts) (hquoted : Quoted e.display.toList)
    (hrereadable : e.rereadable = true) (hsigns : weigh minusSigns ts = 0) (he : Postfixed ts e)
    (hcompound : e.isCompound = false) (hunary : e.isUnary = false) (hstarts : Starts e.display.toList) :
    Rereads e := by
  refine .of_prefixed ⟨?_, fun _ => rfl, ?_⟩ (.postfixed he hunary) (signed_of_starts hstarts hunary) hcompound
    hcompound
  · rw [hrereadable]
    exact h.scans hquoted
  · rw [hsigns]
    exact Nat.zero_le _

theorem Rereads.of_source {source : Expr} {tail : List Char} (K : Expr → Expr → Prop) (clear : Bool)
    (us : List Token) (h : Rereads source) (htext : e.display.toList = operandText source ++ tail)
    (hcompound : e.isCompound = false)
    (hscans : ∀ clear' ts, Scans clear' Separated (operandText source) ts →
      Scans (clear' && clear) Separated (operandText source ++ tail) (ts ++ us))
    (hk : Extends K clear us)
    (hsame : e.rereadable = true →
      source.rereadable = true ∧ source.isUnary = false ∧ ∀ s, K source s → s = e)
    (hsigns : weigh minusSigns source.parts + weigh minusSigns us ≤ weigh minusSigns e.parts) : Rereads e := by
  obtain ⟨s, ts, hscanned, hprefixed, hsigned⟩ := h.operand
  obtain ⟨s', hprefixed', hcompound', hminus, hclear, hs'⟩ := hprefixed.extend hk
  have hscans' := hscans _ _ hscanned.scans
  have hsigns' := hscanned.signs
  rw [← hclear, ← htext] at hscans'
  refine .of_prefixed ⟨hscans', fun he => ?_, ?_⟩ hprefixed' ?_ hcompound' hcompound
  · obtain ⟨hsource, hunary, hsame'⟩ := hsame he
    obtain rfl := hscanned.same hsource
    exact hsame' s' (hs' hunary)
  · rw [weigh_append]
    omega
  · rw [htext]
    exact hsigned.append hminus tail

def RereadsAll (D : List Token → List Expr → Prop) (es : List Expr) : Prop :=
  ∃ ss ts, Scans (rereadableAll ss) Separated (displayList es).toList ts ∧ D ts ss ∧
    (rereadableAll es = true → ss = es) ∧ weigh minusSigns ts ≤ weigh minusSigns (partsAll es)

end Conditions

section Forms

variable {e source : Expr} {name : String}

theorem starts_of_class {p : Char → Bool} {c : Char} {r : List Char} (hc : p c = true) (hminus : p '-' = false)
    (htip : p '>' = false) : Starts (c :: r) :=
  ⟨c, r, rfl, ne_of_class hc hminus, ne_of_class hc htip⟩

theorem starts_name (h : (Token.identifier name).Legible) : Starts name.toList := by
  obtain ⟨c, r, heq, hc, -⟩ := exists_of_isIdentifier h.1
  rw [heq]
  exact starts_of_class hc rfl rfl

theorem starts_number {cs : List Char} {t : Token} (h : SpellsNumber cs t) : Starts cs := by
  obtain ⟨c, r, rfl, hc, -⟩ := h
  exact starts_of_class hc rfl rfl

theorem rereads_literal {t : Token} {value : Literal} (h : LiteralToken t value) (ht : t.Legible)
    (hpoint : hasPoint value = true) : Rereads (.literal nowhere value) := by
  have hpostfixed : Postfixed [t] (.literal nowhere value) := .primary (.literal h)
  suffices hlexes : Lexes Separated (literalText value).toList [t] ∧ Quoted (literalText value).toList ∧
      Starts (literalText value).toList ∧ minusSigns t = 0 from
    .of_postfixed hlexes.1 hlexes.2.1 hpoint hlexes.2.2.2 hpostfixed rfl rfl hlexes.2.2.1
  cases h with
  | integer n =>
    have hspells := spellsNumber_integerText ht
    exact ⟨hspells.lexes, quoted_of_plain (isPlain_integerText n), starts_number hspells, rfl⟩
  | real x =>
    have hspells := spellsNumber_tagged ht (of_decide_eq_true hpoint)
    exact ⟨hspells.lexes, (isNumeral_write x).quoted, starts_number hspells, rfl⟩
  | string s =>
    rw [literalText, String.toList_ofList]
    exact ⟨(lexes_string s).any, quoted_quote _, ⟨'\'', _, rfl, by decide, by decide⟩, rfl⟩
  | true =>
    exact ⟨lexes_word (show isIdentifier "true" = true from rfl), quoted_of_not_mem (by decide),
      ⟨'t', _, rfl, by decide, by decide⟩, rfl⟩
  | false =>
    exact ⟨lexes_word (show isIdentifier "false" = true from rfl), quoted_of_not_mem (by decide),
      ⟨'f', _, rfl, by decide, by decide⟩, rfl⟩
  | null =>
    exact ⟨lexes_word (show isIdentifier "null" = true from rfl), quoted_of_not_mem (by decide),
      ⟨'n', _, rfl, by decide, by decide⟩, rfl⟩

theorem rereads_var (hname : (Token.identifier name).Legible) : Rereads (.var nowhere name) :=
  .of_postfixed (lexes_identifier hname) (quoted_name hname) rfl rfl (.primary (.var name)) rfl rfl
    (starts_name hname)

theorem rereads_typeName {metamodel : String} (hmetamodel : (Token.identifier metamodel).Legible)
    (hname : (Token.identifier name).Legible) : Rereads (.typeName nowhere (some metamodel) name) := by
  have hbang : Lexes (fun _ => True) ['!'] [.mark .bang] := lexes_mark fun _ => rfl
  have hlexes := (lexes_identifier hmetamodel).append (hbang.append (lexes_identifier hname) fun _ _ => trivial)
    fun _ _ => separated_cons rfl (by decide) _
  have htext : (Expr.typeName nowhere (some metamodel) name).display.toList =
      metamodel.toList ++ (['!'] ++ name.toList) := by
    simp [display, qualified]
  rw [← htext] at hlexes
  refine .of_postfixed hlexes ?_ rfl rfl (.primary (.typeName metamodel name)) rfl rfl ?_
  · rw [htext]
    exact (quoted_name hmetamodel).append ((quoted_name hname).cons (by decide))
  · rw [htext]
    exact (starts_name hmetamodel).append _

theorem rereads_navigation (h : Rereads source) (hname : (Token.identifier name).Legible) :
    Rereads (.navigation nowhere source name) := by
  have htext : (Expr.navigation nowhere source name).display.toList = operandText source ++ '.' :: name.toList := by
    simp [display, operandText]
  refine .of_source (fun s s' => s' = .navigation nowhere s name) true [.mark .dot, .identifier name] h htext rfl
    ?_ ?_ ?_ ?_
  · intro clear ts hts
    rw [Bool.and_true]
    exact hts.navigation hname
  · intro ts s hs hunary
    refine ⟨_, rfl, .navigation hs, rfl, rfl, ?_⟩
    rw [rereadable, hunary, Bool.and_true]
    rfl
  · intro he
    simp only [rereadable, Bool.and_eq_true, Bool.not_eq_true'] at he
    exact ⟨he.2, he.1, fun s hs => hs⟩
  · simp [parts, minusSigns]

theorem rereads_arguments {arguments : List Expr} {opening : List Char} {os : List Token}
    (K : Expr → List Expr → Expr → Prop) (h : Rereads source) (harguments : RereadsAll Arguments arguments)
    (hopening : Opening opening os) (hcompound : e.isCompound = false)
    (htext : e.display.toList = operandText source ++ (opening ++ ((displayList arguments).toList ++ [')'])))
    (hk : ∀ us ss, Arguments us ss →
      Extends (fun s s' => K s ss s') (rereadableAll ss) (os ++ (us ++ [Token.mark .rightParen])))
    (hsame : ∀ s, K source arguments s → s = e)
    (hrereadable : e.rereadable = (!source.isUnary && source.rereadable && rereadableAll arguments))
    (hsigns : weigh minusSigns source.parts + (weigh minusSigns os + weigh minusSigns (partsAll arguments)) ≤
      weigh minusSigns e.parts) : Rereads e := by
  obtain ⟨ss, us, hus, hderives, hss, hcount⟩ := harguments
  refine .of_source _ _ _ h htext hcompound (fun clear ts hts => (hts.call hopening hus).any) (hk us ss hderives) ?_ ?_
  · intro he
    simp only [hrereadable, Bool.and_eq_true, Bool.not_eq_true'] at he
    obtain rfl := hss he.2
    exact ⟨he.1.2, he.1.1, hsame⟩
  · simp only [weigh_append, weigh_cons, weigh_nil, show minusSigns (.mark .rightParen) = 0 from rfl]
    omega

theorem exists_call (source : Expr) (name : String) (arguments : List Expr) :
    ∃ call, Call source name arguments call := by
  by_cases h : name = "allInstances" ∧ arguments = []
  · obtain ⟨rfl, rfl⟩ := h
    cases source with
    | var s className => exact ⟨_, .extentOfVar s className⟩
    | typeName s metamodel className => exact ⟨_, .extentOfType s metamodel className⟩
    | _ =>
      refine ⟨_, .operation fun _ _ => ⟨?_, ?_⟩⟩
      · intro _ _ heq
        cases heq
      · intro _ _ _ heq
        cases heq
  · exact ⟨_, .operation fun hname harguments => absurd ⟨hname, harguments⟩ h⟩

theorem call_form {call : Expr} {arguments : List Expr} (h : Call source name arguments call) :
    call.isUnary = false ∧ call.isCompound = false ∧
      call.rereadable = (!source.isUnary && source.rereadable && rereadableAll arguments) := by
  cases h <;> exact ⟨rfl, rfl, rfl⟩

theorem rereads_call {call : Expr} {arguments : List Expr} (hcall : Call source name arguments call)
    (h : Rereads source) (hname : (Token.identifier name).Legible) (harguments : RereadsAll Arguments arguments) :
    Rereads call := by
  have htext : call.display.toList = operandText source ++
      ('.' :: (name.toList ++ ['(']) ++ ((displayList arguments).toList ++ [')'])) := by
    cases hcall <;> simp [display, displayList, operandText, parenthesized, isCompound, qualified]
  obtain ⟨-, hcompound, hrereadable⟩ := call_form hcall
  refine rereads_arguments (fun s ss s' => Call s name ss s') h harguments (opening_dot hname) hcompound htext
    ?_ (fun s hs => Parser.call_unique hs hcall) hrereadable ?_
  · intro us ss hderives ts s hs hunary
    obtain ⟨s', hcall'⟩ := exists_call s name ss
    obtain ⟨hunary', hcompound', hrereadable'⟩ := call_form hcall'
    rw [hunary] at hrereadable'
    refine ⟨s', hcall', ?_, hunary', hcompound', hrereadable'⟩
    simpa using Postfixed.operation hs hderives hcall'
  · simp [parts_of_call hcall, minusSigns]

theorem rereads_collectionCall {arguments : List Expr} (h : Rereads source)
    (hname : (Token.identifier name).Legible) (hkind : ∀ kind : IteratorKind, kind.name ≠ name)
    (harguments : RereadsAll Arguments arguments) : Rereads (.collectionCall nowhere source name arguments) := by
  have htext : (Expr.collectionCall nowhere source name arguments).display.toList = operandText source ++
      ('-' :: '>' :: (name.toList ++ ['(']) ++ ((displayList arguments).toList ++ [')'])) := by
    simp [display, operandText]
  refine rereads_arguments (fun s ss s' => s' = .collectionCall nowhere s name ss) h harguments
    (opening_arrow hname) rfl htext ?_ (fun s hs => hs) rfl ?_
  · intro us ss hderives ts s hs hunary
    refine ⟨_, rfl, ?_, rfl, rfl, ?_⟩
    · simpa using Postfixed.collectionCall hs hkind hderives
    · rw [rereadable, hunary]
      rfl
  · simp [parts, minusSigns]

def declarationText : Option String → List Char
  | some v => v.toList ++ [' ', '|', ' ']
  | none => []

theorem opening_declaration {kind : IteratorKind} {declared : Option String}
    (hkind : (Token.identifier kind.name).Legible) (hdeclared : ∀ v ∈ declared, (Token.identifier v).Legible) :
    ∃ ds, Opening ('-' :: '>' :: (kind.name.toList ++ ['(']) ++ declarationText declared)
      ([.mark .arrow, .identifier kind.name, .mark .leftParen] ++ ds) ∧ Declaration ds declared ∧
        weigh minusSigns ds = 0 := by
  have hopening := opening_arrow hkind
  cases declared with
  | none =>
    refine ⟨[], ?_, .missing, rfl⟩
    rw [declarationText, List.append_nil]
    exact hopening
  | some v =>
    have hpipe : Lexes (fun _ => True) [' ', '|', ' '] [.mark .pipe] := lexes_separator '|' [] fun _ => rfl
    have hlexes := (lexes_identifier (hdeclared v rfl)).append hpipe fun _ _ => separated_cons rfl (by decide) _
    refine ⟨[.identifier v, .mark .pipe], ⟨?_, ?_, fun _ => separated_minus _⟩, .given .missing, rfl⟩
    · exact hopening.lexes.append hlexes fun _ _ => trivial
    · exact hopening.quoted.append ((quoted_name (hdeclared v rfl)).append (quoted_of_not_mem (by decide)))

theorem rereads_iterator {kind : IteratorKind} {declared : Option String} {body : Expr} (h : Rereads source)
    (hkind : (Token.identifier kind.name).Legible) (hdeclared : ∀ v ∈ declared, (Token.identifier v).Legible)
    (hbody : Rereads body) : Rereads (.iterator nowhere source kind declared body) := by
  obtain ⟨s', us, hscanned, hderives⟩ := hbody.whole
  obtain ⟨ds, hopening, hdeclaration, hcount⟩ := opening_declaration hkind hdeclared
  have htext : (Expr.iterator nowhere source kind declared body).display.toList = operandText source ++
      ('-' :: '>' :: (kind.name.toList ++ ['(']) ++ declarationText declared ++ (body.display.toList ++ [')'])) := by
    cases declared <;> simp [display, operandText, declarationText]
  refine .of_source (fun s t => t = .iterator nowhere s kind declared s') s'.rereadable _ h htext rfl
    (fun clear ts hts => (hts.call hopening hscanned.scans).any) ?_ ?_ ?_
  · intro ts s hs hunary
    refine ⟨_, rfl, ?_, rfl, rfl, ?_⟩
    · simpa using Postfixed.iterator hs hdeclaration hderives
    · rw [rereadable, hunary]
      rfl
  · intro he
    simp only [rereadable, Bool.and_eq_true, Bool.not_eq_true'] at he
    obtain rfl := hscanned.same he.2
    exact ⟨he.1.2, he.1.1, fun s hs => hs⟩
  · have hsigns := hscanned.signs
    simp only [parts, weigh_append, weigh_cons, weigh_nil, hcount, minusSigns]
    omega

theorem lexes_operator (op : BinaryOp) : ∃ m, OperatorAt op.precedence m op ∧
    Lexes (fun _ => True) (' ' :: (op.spelling.toList ++ [' '])) [.mark m] ∧
    Quoted (' ' :: (op.spelling.toList ++ [' '])) ∧ minusSigns (.mark m) = weigh minusSigns (operatorSign op) := by
  cases op <;> exact ⟨_, by constructor, lexes_separator _ _ fun _ => rfl, quoted_of_not_mem (by decide), rfl⟩

theorem rereads_binary {op : BinaryOp} {left right : Expr} (hl : Rereads left) (hr : Rereads right) :
    Rereads (.binary nowhere op left right) := by
  obtain ⟨l, ts, hts, hleft, -⟩ := hl.operand
  obtain ⟨r, us, hus, hright, -⟩ := hr.operand
  obtain ⟨m, hop, hm, hquoted, hsign⟩ := lexes_operator op
  have hprecedence := Parser.precedence_le_seven op
  have hscans := hts.scans.between hm hquoted hus.scans
  have htext : (Expr.binary nowhere op left right).display.toList =
      operandText left ++ ' ' :: (op.spelling.toList ++ [' ']) ++ operandText right := by
    simp [display, operandText]
  have hoperators := Operators.binary hop (Parser.operators_of_le (by omega) (.unary hleft.unary))
    (Parser.operators_of_le (by omega) (.unary hright.unary))
  rw [← htext, List.append_assoc] at hscans
  refine .of_compound (s := .binary nowhere op l r) ⟨hscans, fun he => ?_, ?_⟩
    (.operators (Parser.operators_of_le ?_ hoperators)) rfl rfl
  · simp only [rereadable, Bool.and_eq_true] at he
    rw [hts.same he.1, hus.same he.2]
  · have hleft' := hts.signs
    have hright' := hus.signs
    simp only [parts, weigh_append, weigh_cons, weigh_nil]
    omega
  · cases op <;> decide

theorem rereads_not (h : Rereads e) : Rereads (.unary nowhere .not e) := by
  obtain ⟨s, ts, hts, hs, -⟩ := h.operand
  have hnot : Lexes (fun _ => True) ['n', 'o', 't', ' '] [.mark .notWord] := lexes_spaced 'n' ['o', 't'] fun _ => rfl
  have hscans := hts.scans.opened hnot (quoted_of_not_mem (by decide))
  have htext : (Expr.unary nowhere .not e).display.toList = ['n', 'o', 't', ' '] ++ operandText e := by
    simp [display, operandText, UnaryOp.spelling]
  rw [← htext] at hscans
  refine .of_prefixed (s := .unary nowhere .not s) ⟨hscans, fun he => ?_, ?_⟩ (.not hs) ?_ rfl rfl
  · simp only [rereadable, Bool.and_eq_true] at he
    rw [hts.same he.2]
  · simpa [parts, minusSigns] using hts.signs
  · exact ⟨'n', _, htext, by decide, by decide⟩

theorem rereads_minus (h : Rereads e) : Rereads (.unary nowhere .minus e) := by
  obtain ⟨s, ts, hts, hs, hsigned⟩ := h.operand
  have htext : (Expr.unary nowhere .minus e).display.toList = '-' :: operandText e := by
    simp [display, operandText, UnaryOp.spelling]
  have hscans : Scans (Expr.unary nowhere .minus s).rereadable Separated ('-' :: operandText e)
      (.mark .minus :: ts) := by
    rw [Signed] at hsigned
    split at hsigned
    · rename_i hminus
      obtain ⟨r, hr⟩ := hsigned
      have hquoted := hts.scans.quoted
      have hfalse : (Expr.unary nowhere .minus s).rereadable = false := by simp [rereadable, hminus]
      rw [hr] at hquoted ⊢
      rw [hfalse]
      exact scans_comment hquoted ts
    · rename_i hminus
      have hclear : (Expr.unary nowhere .minus s).rereadable = s.rereadable := by simp [rereadable, hminus]
      rw [hclear]
      exact hts.scans.minus hsigned
  rw [← htext] at hscans
  refine .of_prefixed ⟨hscans, fun he => ?_, ?_⟩ (.minus hs) ⟨_, htext⟩ rfl rfl
  · simp only [rereadable, Bool.and_eq_true] at he
    rw [hts.same he.2]
  · exact Nat.add_le_add_left hts.signs 1

theorem rereads_collection {kind : CollectionKind} {items : List Expr}
    (hkind : (Token.identifier kind.name).Legible) (hitems : RereadsAll Arguments items) :
    Rereads (.collection nowhere kind items) := by
  obtain ⟨ss, us, hus, hderives, hss, hcount⟩ := hitems
  have hbrace : Lexes (fun _ => True) ['\x7b'] [.mark .leftBrace] := lexes_mark fun _ => rfl
  have hopening := (lexes_identifier hkind).append hbrace fun _ _ => separated_cons rfl (by decide) _
  have hclosed := hus.closed (c := '\x7d') (m := .rightBrace) (fun _ => rfl) (by decide)
    fun rest => separated_cons rfl (by decide) rest
  have hscans := hclosed.opened hopening ((quoted_name hkind).append (quoted_of_not_mem (by decide)))
  have htext : (Expr.collection nowhere kind items).display.toList =
      kind.name.toList ++ ['\x7b'] ++ ((displayList items).toList ++ ['\x7d']) := by
    simp [display]
  rw [← htext] at hscans
  refine .of_prefixed (s := .collection nowhere kind ss) ⟨hscans.any, fun he => ?_, ?_⟩
    (.postfixed (.primary (.collection hderives)) rfl) (signed_of_starts ?_ rfl) rfl rfl
  · rw [hss he]
  · simp only [parts, List.cons_append, List.nil_append, weigh_append, weigh_cons, weigh_nil, minusSigns]
    omega
  · rw [htext, List.append_assoc]
    exact (starts_name hkind).append _

theorem rereads_conditional {condition yes no : Expr} (hc : Rereads condition) (hy : Rereads yes)
    (hn : Rereads no) : Rereads (.conditional nowhere condition yes no) := by
  obtain ⟨c, cs, hcs, hcondition⟩ := hc.whole
  obtain ⟨y, ys, hys, hyes⟩ := hy.whole
  obtain ⟨n, ns, hns, hno⟩ := hn.whole
  have hif : Lexes (fun _ => True) ['i', 'f', ' '] [.mark .ifWord] := lexes_spaced 'i' ['f'] fun _ => rfl
  have hthen : Lexes (fun _ => True) [' ', 't', 'h', 'e', 'n', ' '] [.mark .thenWord] :=
    lexes_separator 't' ['h', 'e', 'n'] fun _ => rfl
  have helse : Lexes (fun _ => True) [' ', 'e', 'l', 's', 'e', ' '] [.mark .elseWord] :=
    lexes_separator 'e' ['l', 's', 'e'] fun _ => rfl
  have hendif : Lexes Separated [' ', 'e', 'n', 'd', 'i', 'f'] [.mark .endifWord] :=
    lexes_blank.append (lexes_word (show isIdentifier "endif" = true from rfl)) fun _ _ => trivial
  have hbranches := hys.scans.between helse (quoted_of_not_mem (by decide)) hns.scans
  have hscans := ((hcs.scans.between hthen (quoted_of_not_mem (by decide)) hbranches).followed hendif
    (quoted_of_not_mem (by decide)) fun _ _ => separated_cons rfl (by decide) _).opened hif
      (quoted_of_not_mem (by decide))
  have htext : (Expr.conditional nowhere condition yes no).display.toList =
      ['i', 'f', ' '] ++ (condition.display.toList ++ [' ', 't', 'h', 'e', 'n', ' '] ++
        (yes.display.toList ++ [' ', 'e', 'l', 's', 'e', ' '] ++ no.display.toList) ++
        [' ', 'e', 'n', 'd', 'i', 'f']) := by
    simp [display]
  have hexpression : Expression _ (.conditional nowhere c y n) :=
    expression_of_unary (.postfixed (.primary (.conditional hcondition hyes hno)))
  rw [← htext, ← Bool.and_assoc] at hscans
  simp only [List.append_assoc, List.cons_append, List.nil_append] at hscans hexpression
  refine .of_compound (s := .conditional nowhere c y n) ⟨hscans, fun he => ?_, ?_⟩ hexpression rfl rfl
  · simp only [rereadable, Bool.and_eq_true] at he
    rw [hcs.same he.1.1, hys.same he.1.2, hns.same he.2]
  · have hc' := hcs.signs
    have hy' := hys.signs
    have hn' := hns.signs
    simp only [parts, weigh_append, weigh_cons, weigh_nil, minusSigns]
    omega

theorem rereads_letIn {value body : Expr} (hname : (Token.identifier name).Legible) (hv : Rereads value)
    (hb : Rereads body) : Rereads (.letIn nowhere name value body) := by
  obtain ⟨v, vs, hvs, hvalue⟩ := hv.whole
  obtain ⟨b, bs, hbs, hbody⟩ := hb.whole
  have hlet : Lexes (fun _ => True) ['l', 'e', 't', ' '] [.mark .letWord] := lexes_spaced 'l' ['e', 't'] fun _ => rfl
  have hequals : Lexes (fun _ => True) [' ', '=', ' '] [.mark .equals] := lexes_separator '=' [] fun _ => rfl
  have hin : Lexes (fun _ => True) [' ', 'i', 'n', ' '] [.mark .inWord] := lexes_separator 'i' ['n'] fun _ => rfl
  have hopening := hlet.append ((lexes_identifier hname).append hequals fun _ _ => separated_cons rfl (by decide) _)
    fun _ _ => trivial
  have hquoted : Quoted (['l', 'e', 't', ' '] ++ (name.toList ++ [' ', '=', ' '])) :=
    Quoted.append (quoted_of_not_mem (by decide)) ((quoted_name hname).append (quoted_of_not_mem (by decide)))
  have hscans := (hvs.scans.between hin (quoted_of_not_mem (by decide)) hbs.scans).opened hopening hquoted
  have htext : (Expr.letIn nowhere name value body).display.toList =
      ['l', 'e', 't', ' '] ++ (name.toList ++ [' ', '=', ' ']) ++
        (value.display.toList ++ [' ', 'i', 'n', ' '] ++ body.display.toList) := by
    simp [display]
  have hexpression : Expression _ (.letIn nowhere name v b) := .letIn .missing hvalue hbody
  rw [← htext] at hscans
  simp only [List.append_assoc, List.cons_append, List.nil_append] at hscans hexpression
  refine .of_compound (s := .letIn nowhere name v b) ⟨hscans, fun he => ?_, ?_⟩ hexpression rfl rfl
  · simp only [rereadable, Bool.and_eq_true] at he
    rw [hvs.same he.1, hbs.same he.2]
  · have hv' := hvs.signs
    have hb' := hbs.signs
    simp only [parts, weigh_append, weigh_cons, minusSigns]
    omega

theorem rereadsAll_nil : RereadsAll Arguments [] :=
  ⟨[], [], lexes_nil.scans (quoted_of_not_mem List.not_mem_nil), .none, fun _ => rfl, Nat.le_refl _⟩

theorem rereadsItems_one (h : Rereads e) : RereadsAll Items [e] := by
  obtain ⟨s, ts, hts, hderives⟩ := h.whole
  have hclear : rereadableAll [s] = s.rereadable := Bool.and_true _
  refine ⟨[s], ts, ?_, .one hderives, fun he => ?_, ?_⟩
  · rw [hclear]
    exact hts.scans
  · simp only [rereadableAll, Bool.and_true] at he
    rw [hts.same he]
  · simpa [partsAll] using hts.signs

theorem rereadsItems_cons {es : List Expr} (h : Rereads e) (hs : RereadsAll Items es) :
    RereadsAll Items (e :: es) := by
  obtain ⟨s, ts, hts, hderives⟩ := h.whole
  obtain ⟨ss, us, hus, hitems, hss, hcount⟩ := hs
  have hcomma : Lexes (fun _ => True) [',', ' '] [.mark .comma] := lexes_spaced ',' [] fun _ => rfl
  have hscans := (hts.scans.followed hcomma (quoted_of_not_mem (by decide)) fun _ _ =>
    separated_cons rfl (by decide) _).append hus
  cases es with
  | nil =>
    cases hss rfl
    cases hitems
  | cons e' es =>
    have htext : (displayList (e :: e' :: es)).toList =
        e.display.toList ++ [',', ' '] ++ (displayList (e' :: es)).toList := by
      simp [displayList]
    rw [← htext, List.append_assoc] at hscans
    refine ⟨s :: ss, _, hscans, .more hderives hitems, fun he => ?_, ?_⟩
    · simp only [rereadableAll, Bool.and_eq_true] at he hss
      rw [hts.same he.1, hss he.2]
    · have hsigns := hts.signs
      simp only [partsAll, List.cons_append, List.nil_append, weigh_append, weigh_cons, minusSigns] at hcount ⊢
      omega

end Forms

namespace Grammar

theorem legible_of_declaration {ts : List Token} {declared : Option String} (h : Declaration ts declared)
    (hts : ∀ t ∈ ts, t.Legible) : ∀ v ∈ declared, (Token.identifier v).Legible := by
  rintro v ⟨⟩
  cases h with
  | given => exact hts _ (by simp)

mutual
theorem Expression.rereads {ts : List Token} {e : Expr} : Expression ts e → (∀ t ∈ ts, t.Legible) →
    (∀ t ∈ e.parts, Pointed t) → Rereads e
  | .letIn _ hv hb, hts, he => by
    simp only [List.forall_mem_cons, List.forall_mem_append, List.cons_append] at hts
    simp only [parts, List.forall_mem_cons, List.forall_mem_append] at he
    exact rereads_letIn hts.2.1 (hv.rereads hts.2.2.1.2.2 he.2.1) (hb.rereads hts.2.2.2.2 he.2.2)
  | .operators h, hts, he => h.rereads hts he

theorem Operators.rereads {n : Nat} {ts : List Token} {e : Expr} : Operators n ts e → (∀ t ∈ ts, t.Legible) →
    (∀ t ∈ e.parts, Pointed t) → Rereads e
  | .unary h, hts, he => h.rereads hts he
  | .higher h, hts, he => h.rereads hts he
  | .binary _ hl hr, hts, he => by
    simp only [List.forall_mem_cons, List.forall_mem_append] at hts
    simp only [parts, List.forall_mem_append] at he
    exact rereads_binary (hl.rereads hts.1 he.1) (hr.rereads hts.2.2 he.2.2)

theorem Unary.rereads {ts : List Token} {e : Expr} : Unary ts e → (∀ t ∈ ts, t.Legible) →
    (∀ t ∈ e.parts, Pointed t) → Rereads e
  | .not h, hts, he => by
    simp only [List.forall_mem_cons] at hts
    exact rereads_not (h.rereads hts.2 he)
  | .minus h, hts, he => by
    simp only [List.forall_mem_cons] at hts
    simp only [parts, List.forall_mem_cons] at he
    exact rereads_minus (h.rereads hts.2 he.2)
  | .postfixed h, hts, he => h.rereads hts he

theorem Postfixed.rereads {ts : List Token} {e : Expr} : Postfixed ts e → (∀ t ∈ ts, t.Legible) →
    (∀ t ∈ e.parts, Pointed t) → Rereads e
  | .primary h, hts, he => h.rereads hts he
  | .navigation h, hts, he => by
    simp only [List.forall_mem_cons, List.forall_mem_append] at hts
    simp only [parts, List.forall_mem_append] at he
    exact rereads_navigation (h.rereads hts.1 he.1) hts.2.2.1
  | .operation h ha hc, hts, he => by
    simp only [List.forall_mem_cons, List.forall_mem_append] at hts
    simp only [parts_of_call hc, List.forall_mem_cons, List.forall_mem_append] at he
    exact rereads_call hc (h.rereads hts.1.1 he.1) hts.1.2.2.1 (ha.rereads hts.1.2.2.2.2 he.2.2.2)
  | .iterator h hd hb, hts, he => by
    simp only [List.forall_mem_cons, List.forall_mem_append] at hts
    simp only [parts, List.forall_mem_cons, List.forall_mem_append] at he
    exact rereads_iterator (h.rereads hts.1.1.1 he.1) hts.1.1.2.2.1 (legible_of_declaration hd hts.1.1.2.2.2.2)
      (hb.rereads hts.1.2 he.2.2.2)
  | .collectionCall h hname ha, hts, he => by
    simp only [List.forall_mem_cons, List.forall_mem_append] at hts
    simp only [parts, List.forall_mem_cons, List.forall_mem_append] at he
    exact rereads_collectionCall (h.rereads hts.1.1 he.1) hts.1.2.2.1 hname (ha.rereads hts.1.2.2.2.2 he.2.2)

theorem Primary.rereads {ts : List Token} {e : Expr} : Primary ts e → (∀ t ∈ ts, t.Legible) →
    (∀ t ∈ e.parts, Pointed t) → Rereads e
  | .literal h, hts, he =>
    rereads_literal h (hts _ List.mem_cons_self) ((pointed_literalToken _).1 (he _ List.mem_cons_self))
  | .parenthesized h, hts, he => by
    simp only [List.forall_mem_cons, List.forall_mem_append] at hts
    exact h.rereads hts.1.2 he
  | .conditional hc hy hn, hts, he => by
    simp only [List.forall_mem_cons, List.forall_mem_append] at hts
    simp only [parts, List.forall_mem_append] at he
    exact rereads_conditional (hc.rereads hts.1.1.1.2 he.1) (hy.rereads hts.1.1.2.2 he.2.1)
      (hn.rereads hts.1.2.2 he.2.2)
  | .typeName _ _, hts, _ => by
    simp only [List.forall_mem_cons] at hts
    exact rereads_typeName hts.1 hts.2.2.1
  | .collection ha, hts, he => by
    simp only [List.forall_mem_cons, List.forall_mem_append] at hts
    simp only [parts, List.forall_mem_cons] at he
    exact rereads_collection hts.1.1 (ha.rereads hts.1.2.2 he.2)
  | .var _, hts, _ => rereads_var (hts _ List.mem_cons_self)

theorem Arguments.rereads {ts : List Token} {es : List Expr} : Arguments ts es → (∀ t ∈ ts, t.Legible) →
    (∀ t ∈ partsAll es, Pointed t) → RereadsAll Arguments es
  | .none, _, _ => rereadsAll_nil
  | .some h, hts, he => by
    obtain ⟨ss, us, hus, hitems, hss⟩ := h.rereads hts he
    exact ⟨ss, us, hus, .some hitems, hss⟩

theorem Items.rereads {ts : List Token} {es : List Expr} : Items ts es → (∀ t ∈ ts, t.Legible) →
    (∀ t ∈ partsAll es, Pointed t) → RereadsAll Items es
  | .one h, hts, he => by
    simp only [partsAll, List.append_nil] at he
    exact rereadsItems_one (h.rereads hts he)
  | .more h hs, hts, he => by
    simp only [List.forall_mem_cons, List.forall_mem_append] at hts
    simp only [partsAll, List.forall_mem_append] at he
    exact rereadsItems_cons (h.rereads hts.1 he.1) (hs.rereads hts.2.2 he.2)
end

end Grammar

section Reading

variable {e : Expr} {ts us : List Token}

theorem exists_reads_of_parse {text : String} (h : parse text = .ok e) :
    ∃ ts, Reads text.toList ts ∧ Expression ts e.bare := by
  unfold parse at h
  split at h
  · rename_i ls hls
    exact ⟨_, reads_of_scan hls, Parser.expression_of_complete h⟩
  · cases h

theorem legible_of_parse {text : String} (h : parse text = .ok e) : ∀ t ∈ e.parts, t.Legible := by
  obtain ⟨ts, hreads, hexpression⟩ := exists_reads_of_parse h
  have hparts := hexpression.forall_mem_parts hreads.legible
  rwa [bare, parts_mapSpan] at hparts

theorem exists_parse_of_reads {text : String} (h : Reads text.toList ts) (he : Expression ts e) :
    ∃ e', parse text = .ok e' ∧ e'.bare = e := by
  obtain ⟨ls, hls, rfl⟩ := h.scan 0
  obtain ⟨e', he', hbare⟩ := Parser.exists_complete_eq text.utf8ByteSize he
  refine ⟨e', ?_, hbare⟩
  rw [parse, tokenize, hls]
  exact he'

theorem pointed_of_reads (hus : Reads e.display.toList us) (he : Expression us e) :
    (∀ t ∈ e.parts, Pointed t) ∧ e.display.toList.countP isDelimiter ≤ weigh delimiters us := by
  have hread := hus.delimiters_le
  have hparts := he.weigh_parts_le delimiters
  have htext := weigh_textDelimiters_le e.parts
  rw [← countP_display] at htext
  refine ⟨pointed_of_weigh_le ?_, by omega⟩
  rw [← countP_display]
  omega

theorem rereadable_of_reads (hus : Reads e.display.toList us) (he : Expression us e) : e.rereadable = true := by
  obtain ⟨hpointed, hcount⟩ := pointed_of_reads hus he
  obtain ⟨s, ts, hscanned, hs⟩ := (he.rereads hus.legible hpointed).whole
  -- the text is read as the tokens of `s`, or else a comment in it loses some that belong to `e`
  cases hclear : s.rereadable with
  | true =>
    obtain rfl := ((hscanned.scans.lexes hclear).reads_iff trivial).1 hus
    rwa [Parser.expression_unique he hs]
  | false =>
    have hparts := he.weigh_parts_le minusSigns
    have hsigns := hscanned.signs
    have hlost := (hscanned.scans.commented hclear).reads hus
    omega

end Reading

/-- An expression that was read is read again from its text if and only if it is rereadable. -/
theorem parse_display_iff {text : String} {e : Expr} (h : parse text = .ok e) :
    (∃ e', parse e.display = .ok e' ∧ e'.bare = e.bare) ↔ e.rereadable = true := by
  obtain ⟨ts, hts, hderived⟩ := exists_reads_of_parse h
  have hdisplay : e.bare.display = e.display := display_mapSpan _ e
  have hrereadable : e.bare.rereadable = e.rereadable := rereadable_mapSpan _ e
  rw [← hdisplay, ← hrereadable]
  constructor
  · rintro ⟨e', he', hbare⟩
    obtain ⟨us, hus, hderived'⟩ := exists_reads_of_parse he'
    rw [hbare] at hderived'
    exact rereadable_of_reads hus hderived'
  · intro he
    obtain ⟨s, us, hscanned, hs⟩ := (hderived.rereads hts.legible (pointed_of_rereadable e.bare he)).whole
    obtain rfl := hscanned.same he
    exact exists_parse_of_reads ((hscanned.scans.lexes he).reads trivial) hs

theorem parse_display_iff_sum : ∃ e e', parse "(if a then b else c endif).f('s') + -(d - -x)" = .ok e ∧
    e.rereadable = true ∧ parse e.display = .ok e' ∧ e'.bare = e.bare := by
  have hparse : parse "(if a then b else c endif).f('s') + -(d - -x)" =
      .ok (.binary ⟨0, 45⟩ .add
        (.operation ⟨0, 33⟩ (.conditional ⟨0, 26⟩ (.var ⟨4, 5⟩ "a") (.var ⟨11, 12⟩ "b") (.var ⟨18, 19⟩ "c")) "f"
          [.literal ⟨29, 32⟩ (.string "s")])
        (.unary ⟨36, 45⟩ .minus
          (.binary ⟨37, 45⟩ .subtract (.var ⟨38, 39⟩ "d") (.unary ⟨42, 44⟩ .minus (.var ⟨43, 44⟩ "x"))))) := by
    cbv
  obtain ⟨e', he', hbare⟩ := (parse_display_iff hparse).2 rfl
  exact ⟨_, e', hparse, rfl, he', hbare⟩

/-- A minus on a minus begins a comment, and a navigation on a minus is read as a minus on the navigation. -/
theorem parse_display_minus :
    (∃ e, parse "-(-x)" = .ok e ∧ parse e.display = .error (.unexpectedEnd 3)) ∧
      ∃ e e', parse "(-x).f" = .ok e ∧ parse e.display = .ok e' ∧ e'.bare ≠ e.bare :=
  ⟨⟨.unary ⟨0, 5⟩ .minus (.unary ⟨1, 5⟩ .minus (.var ⟨3, 4⟩ "x")), by cbv, by cbv⟩,
    .navigation ⟨0, 6⟩ (.unary ⟨0, 4⟩ .minus (.var ⟨2, 3⟩ "x")) "f",
    .unary ⟨0, 4⟩ .minus (.navigation ⟨1, 4⟩ (.var ⟨1, 2⟩ "x") "f"), by cbv, by cbv, by
      intro h
      cases h⟩

end GraphQuery.Expr
