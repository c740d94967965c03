import GraphQuery.Proofs.Expr.Rereadable
import GraphQuery.Proofs.Token.Numbers

namespace GraphQuery.Expr

open Token Grammar

def literalToken : Literal → Token
  | .null => .mark .nullWord
  | .boolean true => .mark .trueWord
  | .boolean false => .mark .falseWord
  | .integer n => .integer n
  | .real x => .real x
  | .string s => .string s

def names (name : Option String) : List Token :=
  name.toList.map .identifier

def operatorSign : BinaryOp → List Token
  | .subtract => [.mark .minus]
  | _ => []

mutual
def parts : Expr → List Token
  | literal _ value => [literalToken value]
  | var _ name => [.identifier name]
  | typeName _ metamodel name => names metamodel ++ [.identifier name]
  | extent _ metamodel className =>
    names metamodel ++ [.identifier className, .mark .dot, .identifier "allInstances"]
  | navigation _ source feature => source.parts ++ [.mark .dot, .identifier feature]
  | operation _ source name arguments => source.parts ++ .mark .dot :: .identifier name :: partsAll arguments
  | collectionCall _ source name arguments => source.parts ++ .identifier name :: partsAll arguments
  | iterator _ source kind declared body =>
    source.parts ++ .identifier kind.name :: (names declared ++ body.parts)
  | binary _ op left right => left.parts ++ (operatorSign op ++ right.parts)
  | unary _ .minus operand => .mark .minus :: operand.parts
  | unary _ .not operand => operand.parts
  | collection _ kind items => .identifier kind.name :: partsAll items
  | conditional _ condition yes no => condition.parts ++ (yes.parts ++ no.parts)
  | letIn _ name value body => .identifier name :: (value.parts ++ body.parts)

def partsAll : List Expr → List Token
  | [] => []
  | e :: es => e.parts ++ partsAll es
end

theorem parts_of_call {source call : Expr} {name : String} {arguments : List Expr}
    (h : Call source name arguments call) :
    call.parts = source.parts ++ Token.mark .dot :: Token.identifier name :: partsAll arguments := by
  cases h with
  | extentOfVar => rfl
  | extentOfType => simp [parts, partsAll]
  | operation => rfl

theorem literalToken_eq {t : Token} {value : Literal} (h : LiteralToken t value) : literalToken value = t := by
  cases h <;> rfl

section

variable (f : Token → Nat)

theorem weigh_operatorSign_le {n : Nat} {m : Mark} {op : BinaryOp} (h : OperatorAt n m op) :
    weigh f (operatorSign op) ≤ f (.mark m) := by
  cases h <;> simp [operatorSign]

theorem weigh_names_le {ts : List Token} {declared : Option String} (h : Declaration ts declared) :
    weigh f (names declared) ≤ weigh f ts := by
  cases h <;> simp [names]

mutual
theorem Grammar.Expression.weigh_parts_le {ts : List Token} {e : Expr} :
    Expression ts e → weigh f e.parts ≤ weigh f ts
  | .letIn _ hv hb => by
    have hvalue := hv.weigh_parts_le
    have hbody := hb.weigh_parts_le
    simp only [parts, List.cons_append, weigh_append, weigh_cons]
    omega
  | .operators h => h.weigh_parts_le

theorem Grammar.Operators.weigh_parts_le {n : Nat} {ts : List Token} {e : Expr} :
    Operators n ts e → weigh f e.parts ≤ weigh f ts
  | .unary h => h.weigh_parts_le
  | .higher h => h.weigh_parts_le
  | .binary hop hl hr => by
    have hleft := hl.weigh_parts_le
    have hright := hr.weigh_parts_le
    have hsign := weigh_operatorSign_le f hop
    simp only [parts, weigh_append, weigh_cons]
    omega

theorem Grammar.Unary.weigh_parts_le {ts : List Token} {e : Expr} : Unary ts e → weigh f e.parts ≤ weigh f ts
  | .not h => by
    have hoperand := h.weigh_parts_le
    simp only [parts, weigh_cons]
    omega
  | .minus h => by
    have hoperand := h.weigh_parts_le
    simp only [parts, weigh_cons]
    omega
  | .postfixed h => h.weigh_parts_le

theorem Grammar.Postfixed.weigh_parts_le {ts : List Token} {e : Expr} :
    Postfixed ts e → weigh f e.parts ≤ weigh f ts
  | .primary h => h.weigh_parts_le
  | .navigation h => by
    have hsource := h.weigh_parts_le
    simp only [parts, weigh_append]
    omega
  | .operation h ha hc => by
    have hsource := h.weigh_parts_le
    have harguments := ha.weigh_parts_le
    rw [parts_of_call hc]
    simp only [weigh_append, weigh_cons]
    omega
  | .iterator h hd hb => by
    have hsource := h.weigh_parts_le
    have hnames := weigh_names_le f hd
    have hbody := hb.weigh_parts_le
    simp only [parts, weigh_append, weigh_cons]
    omega
  | .collectionCall h _ ha => by
    have hsource := h.weigh_parts_le
    have harguments := ha.weigh_parts_le
    simp only [parts, weigh_append, weigh_cons]
    omega

theorem Grammar.Primary.weigh_parts_le {ts : List Token} {e : Expr} : Primary ts e → weigh f e.parts ≤ weigh f ts
  | .literal h => by
    rw [parts, literalToken_eq h]
  | .parenthesized h => by
    have hinner := h.weigh_parts_le
    simp only [List.cons_append, weigh_append, weigh_cons]
    omega
  | .conditional hc hy hn => by
    have hcondition := hc.weigh_parts_le
    have hyes := hy.weigh_parts_le
    have hno := hn.weigh_parts_le
    simp only [parts, List.cons_append, weigh_append, weigh_cons]
    omega
  | .typeName _ _ => by simp [parts, names]
  | .collection ha => by
    have hitems := ha.weigh_parts_le
    simp only [parts, List.cons_append, weigh_append, weigh_cons]
    omega
  | .var _ => Nat.le_refl _

theorem Grammar.Arguments.weigh_parts_le {ts : List Token} {es : List Expr} :
    Arguments ts es → weigh f (partsAll es) ≤ weigh f ts
  | .none => Nat.le_refl _
  | .some h => h.weigh_parts_le

theorem Grammar.Items.weigh_parts_le {ts : List Token} {es : List Expr} :
    Items ts es → weigh f (partsAll es) ≤ weigh f ts
  | .one h => by
    have hitem := h.weigh_parts_le
    simp only [partsAll, List.append_nil]
    exact hitem
  | .more h hs => by
    have hitem := h.weigh_parts_le
    have hitems := hs.weigh_parts_le
    simp only [partsAll, weigh_append, weigh_cons]
    omega
end

end

theorem weigh_eq_zero {f : Token → Nat} {ts : List Token} : weigh f ts = 0 ↔ ∀ t ∈ ts, f t = 0 := by
  induction ts with
  | nil => simp
  | cons t ts ih => simp [ih]

theorem Grammar.Expression.forall_mem_parts {p : Token → Prop} {ts : List Token} {e : Expr} (h : Expression ts e)
    (hts : ∀ t ∈ ts, p t) : ∀ t ∈ e.parts, p t := by
  classical
  have hle := h.weigh_parts_le fun t => if p t then 0 else 1
  have hzero : weigh (fun t => if p t then 0 else 1) ts = 0 := weigh_eq_zero.2 fun t ht => if_pos (hts t ht)
  rw [hzero, Nat.le_zero, weigh_eq_zero] at hle
  intro t ht
  by_contra hp
  have hone := hle t ht
  rw [if_neg hp] at hone
  cases hone

mutual
theorem parts_mapSpan (f : Span → Span) : (e : Expr) → (e.mapSpan f).parts = e.parts
  | .literal .. | .var .. | .typeName .. | .extent .. => by simp only [mapSpan, parts]
  | .navigation _ source _ => by simp only [mapSpan, parts, parts_mapSpan f source]
  | .operation _ source _ arguments | .collectionCall _ source _ arguments => by
    simp only [mapSpan, parts, parts_mapSpan f source, partsAll_mapSpans f arguments]
  | .iterator _ source _ _ body => by simp only [mapSpan, parts, parts_mapSpan f source, parts_mapSpan f body]
  | .binary _ _ left right => by simp only [mapSpan, parts, parts_mapSpan f left, parts_mapSpan f right]
  | .unary _ op operand => by cases op <;> simp only [mapSpan, parts, parts_mapSpan f operand]
  | .collection _ _ items => by simp only [mapSpan, parts, partsAll_mapSpans f items]
  | .conditional _ condition yes no => by
    simp only [mapSpan, parts, parts_mapSpan f condition, parts_mapSpan f yes, parts_mapSpan f no]
  | .letIn _ _ value body => by simp only [mapSpan, parts, parts_mapSpan f value, parts_mapSpan f body]

theorem partsAll_mapSpans (f : Span → Span) : (es : List Expr) → partsAll (mapSpans f es) = partsAll es
  | [] => rfl
  | e :: es => by simp only [mapSpans, partsAll, parts_mapSpan f e, partsAll_mapSpans f es]
end

def textDelimiters : Token → Nat
  | .real x => (Decimal.Notation.tagged.write x).toList.countP isDelimiter
  | t => t.delimiters

theorem countP_escaped (cs : List Char) : (cs.flatMap escapeChar).countP isDelimiter = cs.countP isDelimiter := by
  induction cs with
  | nil => rfl
  | cons c cs ih =>
    have hc : (escapeChar c).countP isDelimiter = [c].countP isDelimiter := by
      unfold escapeChar
      split
      · rfl
      · rfl
    rw [List.flatMap_cons, List.countP_append, ih, hc, ← List.countP_append, List.singleton_append]

theorem countP_literalText (value : Literal) :
    (literalText value).toList.countP isDelimiter = textDelimiters (literalToken value) := by
  cases value with
  | null => rfl
  | boolean b => cases b <;> rfl
  | integer n => exact countP_of_plain (isPlain_integerText n)
  | real x => rfl
  | string s =>
    rw [literalText, String.toList_ofList, List.countP_append, List.countP_cons, countP_escaped]
    rfl

theorem countP_parenthesized (grouped : Bool) (text : String) :
    (parenthesized grouped text).toList.countP isDelimiter = text.toList.countP isDelimiter := by
  cases grouped with
  | false => rfl
  | true => simp [parenthesized, isDelimiter]

theorem countP_qualified (metamodel : Option String) (name : String) :
    (qualified metamodel name).toList.countP isDelimiter =
      weigh textDelimiters (names metamodel ++ [Token.identifier name]) := by
  cases metamodel <;> simp [qualified, names, textDelimiters, delimiters, isDelimiter]

theorem countP_spelling (op : BinaryOp) : op.spelling.toList.countP isDelimiter = 0 := by
  cases op <;> rfl

theorem weigh_operatorSign (op : BinaryOp) : weigh textDelimiters (operatorSign op) = 0 := by
  cases op <;> rfl

mutual
theorem countP_display : (e : Expr) → e.display.toList.countP isDelimiter = weigh textDelimiters e.parts
  | .literal _ value => countP_literalText value
  | .var _ name => rfl
  | .typeName _ metamodel name => countP_qualified metamodel name
  | .extent _ metamodel className => by
    have hname := countP_qualified metamodel className
    simp only [display, parts, weigh_append, weigh_cons, weigh_nil, String.toList_append, List.countP_append]
      at hname ⊢
    rw [hname]
    rfl
  | .navigation _ source feature => by
    simp [display, parts, textDelimiters, delimiters, isDelimiter, countP_parenthesized, countP_display source,
      Nat.add_comm]
  | .operation _ source name arguments => by
    simp [display, parts, textDelimiters, delimiters, isDelimiter, countP_parenthesized, countP_display source,
      countP_displayList arguments, Nat.add_comm, Nat.add_left_comm]
  | .collectionCall _ source name arguments => by
    simp [display, parts, textDelimiters, delimiters, isDelimiter, countP_parenthesized, countP_display source,
      countP_displayList arguments]
  | .iterator _ source kind declared body => by
    cases declared <;> simp [display, parts, names, textDelimiters, delimiters, isDelimiter, countP_parenthesized,
      countP_display source, countP_display body]
  | .binary _ op left right => by
    simp [display, parts, isDelimiter, countP_parenthesized, countP_spelling, weigh_operatorSign, countP_display left,
      countP_display right]
  | .unary _ op operand => by
    cases op <;> simp [display, parts, UnaryOp.spelling, textDelimiters, delimiters, isDelimiter,
      countP_parenthesized, countP_display operand]
  | .collection _ kind items => by
    simp [display, parts, textDelimiters, delimiters, isDelimiter, countP_displayList items]
  | .conditional _ condition yes no => by
    simp [display, parts, isDelimiter, countP_display condition, countP_display yes, countP_display no]
  | .letIn _ name value body => by
    simp [display, parts, textDelimiters, delimiters, isDelimiter, countP_display value, countP_display body]

theorem countP_displayList : (es : List Expr) →
    (displayList es).toList.countP isDelimiter = weigh textDelimiters (partsAll es)
  | [] => rfl
  | [e] => by simp [displayList, partsAll, countP_display e]
  | e :: e' :: es => by
    rw [partsAll, weigh_append, ← countP_displayList (e' :: es), displayList]
    · simp [isDelimiter, countP_display e]
    · exact List.cons_ne_nil e' es
end

def Pointed : Token → Prop
  | .real x => '.' ∈ (Decimal.Notation.tagged.write x).toList
  | _ => True

theorem textDelimiters_le (t : Token) : textDelimiters t ≤ t.delimiters := by
  cases t with
  | real x =>
    have hcount := (isNumeral_write x).countP_le
    split at hcount
    · exact hcount
    · exact Nat.le_succ_of_le hcount
  | _ => exact Nat.le_refl _

theorem textDelimiters_lt {t : Token} (h : ¬Pointed t) : textDelimiters t < t.delimiters := by
  cases t with
  | real x =>
    have hcount := (isNumeral_write x).countP_le
    change '.' ∉ (Decimal.Notation.tagged.write x).toList at h
    rw [if_neg h] at hcount
    exact Nat.lt_succ_of_le hcount
  | _ => exact absurd trivial h

theorem weigh_textDelimiters_le (ts : List Token) : weigh textDelimiters ts ≤ weigh delimiters ts := by
  induction ts with
  | nil => exact Nat.le_refl _
  | cons t ts ih => exact Nat.add_le_add (textDelimiters_le t) ih

theorem pointed_of_weigh_le {ts : List Token} (h : weigh delimiters ts ≤ weigh textDelimiters ts) :
    ∀ t ∈ ts, Pointed t := by
  induction ts with
  | nil => exact List.forall_mem_nil _
  | cons t ts ih =>
    have ht := textDelimiters_le t
    have hts := weigh_textDelimiters_le ts
    rw [weigh_cons, weigh_cons] at h
    rw [List.forall_mem_cons]
    refine ⟨?_, ih (by omega)⟩
    by_contra hpoint
    have hlt := textDelimiters_lt hpoint
    omega

theorem pointed_names (name : Option String) : ∀ t ∈ names name, Pointed t := by
  cases name with
  | none => exact List.forall_mem_nil _
  | some _ => exact List.forall_mem_singleton.2 trivial

theorem pointed_operatorSign (op : BinaryOp) : ∀ t ∈ operatorSign op, Pointed t := by
  cases op with
  | subtract => exact List.forall_mem_singleton.2 trivial
  | _ => exact List.forall_mem_nil _

theorem pointed_literalToken (value : Literal) : Pointed (literalToken value) ↔ hasPoint value = true := by
  cases value with
  | real x =>
    rw [hasPoint, decide_eq_true_eq]
    rfl
  | boolean b => cases b <;> exact iff_of_true trivial rfl
  | _ => exact iff_of_true trivial rfl

mutual
theorem pointed_of_rereadable : (e : Expr) → e.rereadable = true → ∀ t ∈ e.parts, Pointed t
  | .literal _ value, h => List.forall_mem_singleton.2 ((pointed_literalToken value).2 h)
  | .var _ name, _ => List.forall_mem_singleton.2 trivial
  | .typeName _ metamodel name, _ => by
    rw [parts, List.forall_mem_append]
    exact ⟨pointed_names metamodel, List.forall_mem_singleton.2 trivial⟩
  | .extent _ metamodel className, _ => by
    simp only [parts, List.forall_mem_append, List.forall_mem_cons]
    exact ⟨pointed_names metamodel, trivial, trivial, trivial, List.forall_mem_nil _⟩
  | .navigation _ source feature, h => by
    simp only [rereadable, Bool.and_eq_true] at h
    simp only [parts, List.forall_mem_append, List.forall_mem_cons]
    exact ⟨pointed_of_rereadable source h.2, trivial, trivial, List.forall_mem_nil _⟩
  | .operation _ source name arguments, h => by
    simp only [rereadable, Bool.and_eq_true] at h
    simp only [parts, List.forall_mem_append, List.forall_mem_cons]
    exact ⟨pointed_of_rereadable source h.1.2, trivial, trivial, pointedAll_of_rereadable arguments h.2⟩
  | .collectionCall _ source name arguments, h => by
    simp only [rereadable, Bool.and_eq_true] at h
    simp only [parts, List.forall_mem_append, List.forall_mem_cons]
    exact ⟨pointed_of_rereadable source h.1.2, trivial, pointedAll_of_rereadable arguments h.2⟩
  | .iterator _ source kind declared body, h => by
    simp only [rereadable, Bool.and_eq_true] at h
    simp only [parts, List.forall_mem_append, List.forall_mem_cons]
    exact ⟨pointed_of_rereadable source h.1.2, trivial, pointed_names declared, pointed_of_rereadable body h.2⟩
  | .binary _ op left right, h => by
    simp only [rereadable, Bool.and_eq_true] at h
    simp only [parts, List.forall_mem_append]
    exact ⟨pointed_of_rereadable left h.1, pointed_operatorSign op, pointed_of_rereadable right h.2⟩
  | .unary _ .minus operand, h => by
    simp only [rereadable, Bool.and_eq_true] at h
    simp only [parts, List.forall_mem_cons]
    exact ⟨trivial, pointed_of_rereadable operand h.2⟩
  | .unary _ .not operand, h => by
    simp only [rereadable, Bool.and_eq_true] at h
    exact pointed_of_rereadable operand h.2
  | .collection _ kind items, h => by
    simp only [parts, List.forall_mem_cons]
    exact ⟨trivial, pointedAll_of_rereadable items h⟩
  | .conditional _ condition yes no, h => by
    simp only [rereadable, Bool.and_eq_true] at h
    simp only [parts, List.forall_mem_append]
    exact ⟨pointed_of_rereadable condition h.1.1, pointed_of_rereadable yes h.1.2, pointed_of_rereadable no h.2⟩
  | .letIn _ name value body, h => by
    simp only [rereadable, Bool.and_eq_true] at h
    simp only [parts, List.forall_mem_cons, List.forall_mem_append]
    exact ⟨trivial, pointed_of_rereadable value h.1, pointed_of_rereadable body h.2⟩

theorem pointedAll_of_rereadable : (es : List Expr) → rereadableAll es = true → ∀ t ∈ partsAll es, Pointed t
  | [], _ => List.forall_mem_nil _
  | e :: es, h => by
    simp only [rereadableAll, Bool.and_eq_true] at h
    rw [partsAll, List.forall_mem_append]
    exact ⟨pointed_of_rereadable e h.1, pointedAll_of_rereadable es h.2⟩
end

end GraphQuery.Expr
