import GraphQuery.Expr.Basic
import GraphQuery.Token.Basic

/-!
The grammar of query expressions over tokens, and the trees that it gives them. Trees are derived without
places: all their spans are empty.
-/

namespace GraphQuery.Expr

mutual
def mapSpan (f : Span → Span) : Expr → Expr
  | literal s value => literal (f s) value
  | var s name => var (f s) name
  | typeName s metamodel name => typeName (f s) metamodel name
  | extent s metamodel className => extent (f s) metamodel className
  | navigation s source feature => navigation (f s) (mapSpan f source) feature
  | operation s source name arguments => operation (f s) (mapSpan f source) name (mapSpans f arguments)
  | collectionCall s source name arguments =>
    collectionCall (f s) (mapSpan f source) name (mapSpans f arguments)
  | iterator s source kind declared body => iterator (f s) (mapSpan f source) kind declared (mapSpan f body)
  | binary s op left right => binary (f s) op (mapSpan f left) (mapSpan f right)
  | unary s op operand => unary (f s) op (mapSpan f operand)
  | collection s kind items => collection (f s) kind (mapSpans f items)
  | conditional s condition yes no =>
    conditional (f s) (mapSpan f condition) (mapSpan f yes) (mapSpan f no)
  | letIn s name value body => letIn (f s) name (mapSpan f value) (mapSpan f body)

def mapSpans (f : Span → Span) : List Expr → List Expr
  | [] => []
  | e :: es => mapSpan f e :: mapSpans f es
end

def nowhere : Span := ⟨0, 0⟩

def bare (e : Expr) : Expr :=
  e.mapSpan (fun _ => nowhere)

theorem mapSpans_eq_map (f : Span → Span) (es : List Expr) : mapSpans f es = es.map (mapSpan f) := by
  induction es with
  | nil => rfl
  | cons e es ih => rw [mapSpans, ih, List.map_cons]

theorem mapSpans_nowhere (es : List Expr) : mapSpans (fun _ => nowhere) es = es.map bare :=
  mapSpans_eq_map _ es

theorem bare_collectionCall (s : Span) (source : Expr) (name : String) (arguments : List Expr) :
    (collectionCall s source name arguments).bare =
      collectionCall nowhere source.bare name (arguments.map bare) := by
  simp only [bare, mapSpan, mapSpans_nowhere]

theorem bare_collection (s : Span) (kind : CollectionKind) (items : List Expr) :
    (collection s kind items).bare = collection nowhere kind (items.map bare) := by
  simp only [bare, mapSpan, mapSpans_nowhere]

theorem bare_withSpan (s : Span) (e : Expr) : (e.withSpan s).bare = e.bare := by
  cases e <;> rfl

namespace Grammar

inductive OperatorAt : Nat → Mark → BinaryOp → Prop
  | implies : OperatorAt 1 .impliesWord .implies
  | or : OperatorAt 2 .orWord .or
  | and : OperatorAt 3 .andWord .and
  | equal : OperatorAt 4 .equals .equal
  | notEqual : OperatorAt 4 .notEquals .notEqual
  | less : OperatorAt 5 .less .less
  | lessOrEqual : OperatorAt 5 .lessEquals .lessOrEqual
  | greater : OperatorAt 5 .greater .greater
  | greaterOrEqual : OperatorAt 5 .greaterEquals .greaterOrEqual
  | add : OperatorAt 6 .plus .add
  | subtract : OperatorAt 6 .minus .subtract
  | multiply : OperatorAt 7 .star .multiply
  | divide : OperatorAt 7 .slash .divide

inductive LiteralToken : Token → Literal → Prop
  | integer (n : Int64) : LiteralToken (.integer n) (.integer n)
  | real (x : Float) : LiteralToken (.real x) (.real x)
  | string (s : String) : LiteralToken (.string s) (.string s)
  | true : LiteralToken (.mark .trueWord) (.boolean true)
  | false : LiteralToken (.mark .falseWord) (.boolean false)
  | null : LiteralToken (.mark .nullWord) .null

inductive Call : Expr → String → List Expr → Expr → Prop
  | extentOfVar (s : Span) (className : String) :
      Call (.var s className) "allInstances" [] (.extent nowhere none className)
  | extentOfType (s : Span) (metamodel : Option String) (className : String) :
      Call (.typeName s metamodel className) "allInstances" [] (.extent nowhere metamodel className)
  | operation {source : Expr} {name : String} {arguments : List Expr}
      (h : name = "allInstances" → arguments = [] →
        (∀ s className, source ≠ .var s className) ∧
          ∀ s metamodel className, source ≠ .typeName s metamodel className) :
      Call source name arguments (.operation nowhere source name arguments)

inductive TypeHead : List Token → Prop
  | name (name : String) : TypeHead [.identifier name]
  | qualified (metamodel name : String) : TypeHead [.identifier metamodel, .mark .bang, .identifier name]

inductive TypeName : List Token → Prop
  | head {ts : List Token} (h : TypeHead ts) : TypeName ts
  | applied {ts us : List Token} (h : TypeHead ts) (h' : TypeName us) :
      TypeName (ts ++ .mark .leftParen :: us ++ [.mark .rightParen])

inductive Annotation : List Token → Prop
  | missing : Annotation []
  | given {ts : List Token} (h : TypeName ts) : Annotation (.mark .colon :: ts)

inductive Declaration : List Token → Option String → Prop
  | missing : Declaration [] none
  | given {name : String} {ts : List Token} (h : Annotation ts) :
      Declaration (.identifier name :: ts ++ [.mark .pipe]) (some name)

mutual
inductive Expression : List Token → Expr → Prop
  | letIn {name : String} {as vs bs : List Token} {value body : Expr} (ha : Annotation as)
      (hv : Expression vs value) (hb : Expression bs body) :
      Expression (.mark .letWord :: .identifier name :: as ++ .mark .equals :: vs ++ .mark .inWord :: bs)
        (.letIn nowhere name value body)
  | operators {ts : List Token} {e : Expr} (h : Operators 1 ts e) : Expression ts e

inductive Operators : Nat → List Token → Expr → Prop
  | unary {ts : List Token} {e : Expr} (h : Unary ts e) : Operators 8 ts e
  | higher {n : Nat} {ts : List Token} {e : Expr} (h : Operators (n + 1) ts e) : Operators n ts e
  | binary {n : Nat} {m : Mark} {op : BinaryOp} {ts us : List Token} {left right : Expr}
      (hop : OperatorAt n m op) (hl : Operators n ts left) (hr : Operators (n + 1) us right) :
      Operators n (ts ++ .mark m :: us) (.binary nowhere op left right)

inductive Unary : List Token → Expr → Prop
  | not {ts : List Token} {e : Expr} (h : Unary ts e) : Unary (.mark .notWord :: ts) (.unary nowhere .not e)
  | minus {ts : List Token} {e : Expr} (h : Unary ts e) : Unary (.mark .minus :: ts) (.unary nowhere .minus e)
  | postfixed {ts : List Token} {e : Expr} (h : Postfixed ts e) : Unary ts e

inductive Postfixed : List Token → Expr → Prop
  | primary {ts : List Token} {e : Expr} (h : Primary ts e) : Postfixed ts e
  | navigation {ts : List Token} {e : Expr} {name : String} (h : Postfixed ts e) :
      Postfixed (ts ++ [.mark .dot, .identifier name]) (.navigation nowhere e name)
  | operation {ts us : List Token} {e call : Expr} {name : String} {arguments : List Expr}
      (h : Postfixed ts e) (ha : Arguments us arguments) (hc : Call e name arguments call) :
      Postfixed (ts ++ .mark .dot :: .identifier name :: .mark .leftParen :: us ++ [.mark .rightParen]) call
  | iterator {ts ds bs : List Token} {e body : Expr} {kind : IteratorKind} {declared : Option String}
      (h : Postfixed ts e) (hd : Declaration ds declared) (hb : Expression bs body) :
      Postfixed
        (ts ++ .mark .arrow :: .identifier kind.name :: .mark .leftParen :: ds ++ bs ++ [.mark .rightParen])
        (.iterator nowhere e kind declared body)
  | collectionCall {ts us : List Token} {e : Expr} {name : String} {arguments : List Expr}
      (h : Postfixed ts e) (hname : ∀ kind : IteratorKind, kind.name ≠ name) (ha : Arguments us arguments) :
      Postfixed (ts ++ .mark .arrow :: .identifier name :: .mark .leftParen :: us ++ [.mark .rightParen])
        (.collectionCall nowhere e name arguments)

inductive Primary : List Token → Expr → Prop
  | literal {t : Token} {value : Literal} (h : LiteralToken t value) : Primary [t] (.literal nowhere value)
  | parenthesized {ts : List Token} {e : Expr} (h : Expression ts e) :
      Primary (.mark .leftParen :: ts ++ [.mark .rightParen]) e
  | conditional {cs ys ns : List Token} {condition yes no : Expr} (hc : Expression cs condition)
      (hy : Expression ys yes) (hn : Expression ns no) :
      Primary (.mark .ifWord :: cs ++ .mark .thenWord :: ys ++ .mark .elseWord :: ns ++ [.mark .endifWord])
        (.conditional nowhere condition yes no)
  | typeName (metamodel className : String) :
      Primary [.identifier metamodel, .mark .bang, .identifier className]
        (.typeName nowhere (some metamodel) className)
  | collection {us : List Token} {kind : CollectionKind} {items : List Expr} (ha : Arguments us items) :
      Primary (.identifier kind.name :: .mark .leftBrace :: us ++ [.mark .rightBrace])
        (.collection nowhere kind items)
  | var (name : String) : Primary [.identifier name] (.var nowhere name)

inductive Arguments : List Token → List Expr → Prop
  | none : Arguments [] []
  | some {ts : List Token} {es : List Expr} (h : Items ts es) : Arguments ts es

inductive Items : List Token → List Expr → Prop
  | one {ts : List Token} {e : Expr} (h : Expression ts e) : Items ts [e]
  | more {ts us : List Token} {e : Expr} {es : List Expr} (h : Expression ts e) (hs : Items us es) :
      Items (ts ++ .mark .comma :: us) (e :: es)
end

end Grammar

end GraphQuery.Expr
