import GraphQuery.Expr.Basic
import GraphQuery.Token.Lexer

namespace GraphQuery

inductive Wanted where
  | mark (mark : Mark)
  | identifier
deriving Repr, DecidableEq

def Wanted.describe : Wanted → String
  | mark m => m.name
  | identifier => "identifier"

inductive ParseError where
  | unreadable (text : String) (span : Span)
  | unexpected (token : Token) (span : Span)
  | unexpectedEnd (position : Nat)
  | expected (wanted : Wanted) (found : Token) (span : Span)
  | expectedAtEnd (wanted : Wanted) (position : Nat)
  | leftover (token : Token) (span : Span)
deriving Repr

def ParseError.message : ParseError → String
  | unreadable text span => "unexpected input " ++ Text.quoted text ++ " at " ++ span.display
  | unexpected token span => "unexpected " ++ token.describe ++ " at " ++ span.display
  | unexpectedEnd position => "unexpected end of input at " ++ toString position
  | expected wanted found span =>
    "expected " ++ wanted.describe ++ " at " ++ span.display ++ ", found " ++ found.describe
  | expectedAtEnd wanted position =>
    "expected " ++ wanted.describe ++ " at " ++ toString position ++ ", found end of input"
  | leftover token span =>
    "unexpected " ++ token.describe ++ " at " ++ span.display ++ " after complete expression"

namespace Expr.Parser

abbrev Shorter (ts : List Located) := { rest : List Located // rest.length < ts.length }

abbrev NoLonger (ts : List Located) := { rest : List Located // rest.length ≤ ts.length }

def expect (finish : Nat) (m : Mark) : (ts : List Located) → Except ParseError (Span × Shorter ts)
  | [] => .error (.expectedAtEnd (.mark m) finish)
  | ⟨.mark found, span⟩ :: rest =>
    if found = m then .ok (span, ⟨rest, by simp⟩) else .error (.expected (.mark m) (.mark found) span)
  | ⟨token, span⟩ :: _ => .error (.expected (.mark m) token span)

def identifier (finish : Nat) : (ts : List Located) → Except ParseError (String × Span × Shorter ts)
  | [] => .error (.expectedAtEnd .identifier finish)
  | ⟨.identifier name, span⟩ :: rest => .ok (name, span, ⟨rest, by simp⟩)
  | ⟨token, span⟩ :: _ => .error (.expected .identifier token span)

def typeExpr (finish : Nat) (ts : List Located) : Except ParseError (Shorter ts) := do
  let (_, _, ⟨r₁, h₁⟩) ← identifier finish ts
  let ⟨r₂, h₂⟩ ← qualifier r₁
  match r₂, h₂ with
  | ⟨.mark .leftParen, _⟩ :: rest, h₂ =>
    have hr : rest.length < ts.length := by simp only [List.length_cons] at h₂; omega
    let ⟨r₃, h₃⟩ ← typeExpr finish rest
    let (_, ⟨r₄, h₄⟩) ← expect finish .rightParen r₃
    .ok ⟨r₄, by omega⟩
  | r₂, h₂ => .ok ⟨r₂, by omega⟩
termination_by ts.length
where
  qualifier (r₁ : List Located) : Except ParseError (NoLonger r₁) :=
    match r₁ with
    | ⟨.mark .bang, _⟩ :: rest => do
      let (_, _, ⟨r, h⟩) ← identifier finish rest
      .ok ⟨r, by simp only [List.length_cons]; omega⟩
    | r₁ => .ok ⟨r₁, Nat.le_refl _⟩

def annotation (finish : Nat) (ts : List Located) : Except ParseError (NoLonger ts) :=
  match ts with
  | ⟨.mark .colon, _⟩ :: rest => do
    let ⟨r, h⟩ ← typeExpr finish rest
    .ok ⟨r, by simp only [List.length_cons]; omega⟩
  | ts => .ok ⟨ts, Nat.le_refl _⟩

def binaryOp? : Token → Option BinaryOp
  | .mark .equals => some .equal
  | .mark .notEquals => some .notEqual
  | .mark .less => some .less
  | .mark .lessEquals => some .lessOrEqual
  | .mark .greater => some .greater
  | .mark .greaterEquals => some .greaterOrEqual
  | .mark .andWord => some .and
  | .mark .orWord => some .or
  | .mark .impliesWord => some .implies
  | .mark .plus => some .add
  | .mark .minus => some .subtract
  | .mark .star => some .multiply
  | .mark .slash => some .divide
  | _ => none

def unaryOp? : Token → Option UnaryOp
  | .mark .notWord => some .not
  | .mark .minus => some .minus
  | _ => none

def literal? : Token → Option Literal
  | .integer n => some (.integer n)
  | .real x => some (.real x)
  | .string s => some (.string s)
  | .mark .trueWord => some (.boolean true)
  | .mark .falseWord => some (.boolean false)
  | .mark .nullWord => some .null
  | _ => none

def operationCall (span : Span) (source : Expr) (name : String) (arguments : List Expr) : Expr :=
  match name, arguments, source with
  | "allInstances", [], .var _ className => .extent span none className
  | "allInstances", [], .typeName _ metamodel className => .extent span metamodel className
  | _, _, _ => .operation span source name arguments

def iteratorVariable (finish : Nat) (ts : List Located) :
    Except ParseError (Option String × NoLonger ts) :=
  match ts with
  | ⟨.identifier name, _⟩ :: rest =>
    if declares rest then do
      let ⟨r₁, h₁⟩ ← annotation finish rest
      let (_, ⟨r₂, h₂⟩) ← expect finish .pipe r₁
      .ok (some name, ⟨r₂, by simp only [List.length_cons]; omega⟩)
    else .ok (none, ⟨_, Nat.le_refl _⟩)
  | ts => .ok (none, ⟨ts, Nat.le_refl _⟩)
where
  declares : List Located → Bool
    | ⟨.mark .pipe, _⟩ :: _ => true
    | ⟨.mark .colon, _⟩ :: _ => true
    | _ => false

mutual
def expression (finish : Nat) (ts : List Located) : Except ParseError (Expr × Shorter ts) :=
  match ts with
  | ⟨.mark .letWord, start⟩ :: rest => do
    let (name, _, ⟨r₁, h₁⟩) ← identifier finish rest
    let ⟨r₂, h₂⟩ ← annotation finish r₁
    let (_, ⟨r₃, h₃⟩) ← expect finish .equals r₂
    let (value, ⟨r₄, h₄⟩) ← expression finish r₃
    let (_, ⟨r₅, h₅⟩) ← expect finish .inWord r₄
    let (body, ⟨r₆, h₆⟩) ← expression finish r₅
    .ok (.letIn (start.hull body.span) name value body, ⟨r₆, by simp only [List.length_cons]; omega⟩)
  | ts => binaryFrom finish 1 ts
termination_by (ts.length, 4)
decreasing_by all_goals simp_wf; omega

def binaryFrom (finish level : Nat) (ts : List Located) : Except ParseError (Expr × Shorter ts) := do
  let (left, ⟨r₁, h₁⟩) ← unary finish ts
  let (e, ⟨r₂, h₂⟩) ← binaryTail finish level left r₁
  .ok (e, ⟨r₂, by omega⟩)
termination_by (ts.length, 3)
decreasing_by all_goals omega

def binaryTail (finish level : Nat) (left : Expr) (ts : List Located) :
    Except ParseError (Expr × NoLonger ts) :=
  match ts with
  | [] => .ok (left, ⟨[], Nat.le_refl _⟩)
  | t :: rest =>
    match binaryOp? t.token with
    | some op =>
      if op.precedence < level then .ok (left, ⟨t :: rest, Nat.le_refl _⟩)
      else do
        let (right, ⟨r₁, h₁⟩) ← binaryFrom finish (op.precedence + 1) rest
        let (e, ⟨r₂, h₂⟩) ← binaryTail finish level (.binary (left.span.hull right.span) op left right) r₁
        .ok (e, ⟨r₂, by simp only [List.length_cons]; omega⟩)
    | none => .ok (left, ⟨t :: rest, Nat.le_refl _⟩)
termination_by (ts.length, 0)
decreasing_by all_goals simp_wf; omega

def unary (finish : Nat) (ts : List Located) : Except ParseError (Expr × Shorter ts) :=
  match ts with
  | [] => postfixed finish []
  | t :: rest =>
    match unaryOp? t.token with
    | some op => do
      let (operand, ⟨r, h⟩) ← unary finish rest
      .ok (.unary (t.span.hull operand.span) op operand, ⟨r, by simp only [List.length_cons]; omega⟩)
    | none => postfixed finish (t :: rest)
termination_by (ts.length, 2)
decreasing_by all_goals simp_wf; omega

def postfixed (finish : Nat) (ts : List Located) : Except ParseError (Expr × Shorter ts) := do
  let (e, ⟨r₁, h₁⟩) ← primary finish ts
  let (e', ⟨r₂, h₂⟩) ← postfixTail finish e r₁
  .ok (e', ⟨r₂, by omega⟩)
termination_by (ts.length, 1)
decreasing_by all_goals omega

def postfixTail (finish : Nat) (source : Expr) (ts : List Located) :
    Except ParseError (Expr × NoLonger ts) :=
  match ts with
  | ⟨.mark .dot, _⟩ :: rest => do
    let (name, nameSpan, ⟨r₁, h₁⟩) ← identifier finish rest
    match r₁, h₁ with
    | ⟨.mark .leftParen, _⟩ :: inner, h₁ =>
      have hi : inner.length < rest.length := by simp only [List.length_cons] at h₁; omega
      let (arguments, close, ⟨r₂, h₂⟩) ← arguments finish .rightParen inner
      let (e, ⟨r₃, h₃⟩) ← postfixTail finish (operationCall (source.span.hull close) source name arguments) r₂
      .ok (e, ⟨r₃, by simp only [List.length_cons]; omega⟩)
    | r₁, h₁ =>
      let (e, ⟨r₂, h₂⟩) ← postfixTail finish (.navigation (source.span.hull nameSpan) source name) r₁
      .ok (e, ⟨r₂, by simp only [List.length_cons]; omega⟩)
  | ⟨.mark .arrow, _⟩ :: rest => do
    let (name, _, ⟨r₁, h₁⟩) ← identifier finish rest
    let (_, ⟨r₂, h₂⟩) ← expect finish .leftParen r₁
    match IteratorKind.ofName? name with
    | some kind =>
      let (declared, ⟨r₃, h₃⟩) ← iteratorVariable finish r₂
      let (body, ⟨r₄, h₄⟩) ← expression finish r₃
      let (close, ⟨r₅, h₅⟩) ← expect finish .rightParen r₄
      let (e, ⟨r₆, h₆⟩) ←
        postfixTail finish (.iterator (source.span.hull close) source kind declared body) r₅
      .ok (e, ⟨r₆, by simp only [List.length_cons]; omega⟩)
    | none =>
      let (arguments, close, ⟨r₃, h₃⟩) ← arguments finish .rightParen r₂
      let (e, ⟨r₄, h₄⟩) ←
        postfixTail finish (.collectionCall (source.span.hull close) source name arguments) r₃
      .ok (e, ⟨r₄, by simp only [List.length_cons]; omega⟩)
  | ts => .ok (source, ⟨ts, Nat.le_refl _⟩)
termination_by (ts.length, 0)
decreasing_by all_goals simp_wf; omega

def arguments (finish : Nat) (close : Mark) (ts : List Located) :
    Except ParseError (List Expr × Span × Shorter ts) :=
  match expect finish close ts with
  | .ok (span, rest) => .ok ([], span, rest)
  | .error _ => items finish close ts
termination_by (ts.length, 6)
decreasing_by all_goals omega

def items (finish : Nat) (close : Mark) (ts : List Located) :
    Except ParseError (List Expr × Span × Shorter ts) := do
  let (e, ⟨r₁, h₁⟩) ← expression finish ts
  match r₁, h₁ with
  | ⟨.mark .comma, _⟩ :: rest, h₁ =>
    have hr : rest.length < ts.length := by simp only [List.length_cons] at h₁; omega
    let (es, span, ⟨r₂, h₂⟩) ← items finish close rest
    .ok (e :: es, span, ⟨r₂, by omega⟩)
  | r₁, h₁ =>
    let (span, ⟨r₂, h₂⟩) ← expect finish close r₁
    .ok ([e], span, ⟨r₂, by omega⟩)
termination_by (ts.length, 5)
decreasing_by all_goals omega

def primary (finish : Nat) (ts : List Located) : Except ParseError (Expr × Shorter ts) :=
  match ts with
  | [] => .error (.unexpectedEnd finish)
  | ⟨.mark .leftParen, start⟩ :: rest => do
    let (inner, ⟨r₁, h₁⟩) ← expression finish rest
    let (close, ⟨r₂, h₂⟩) ← expect finish .rightParen r₁
    .ok (inner.withSpan (start.hull close), ⟨r₂, by simp only [List.length_cons]; omega⟩)
  | ⟨.mark .ifWord, start⟩ :: rest => do
    let (condition, ⟨r₁, h₁⟩) ← expression finish rest
    let (_, ⟨r₂, h₂⟩) ← expect finish .thenWord r₁
    let (yes, ⟨r₃, h₃⟩) ← expression finish r₂
    let (_, ⟨r₄, h₄⟩) ← expect finish .elseWord r₃
    let (no, ⟨r₅, h₅⟩) ← expression finish r₄
    let (close, ⟨r₆, h₆⟩) ← expect finish .endifWord r₅
    .ok (.conditional (start.hull close) condition yes no, ⟨r₆, by simp only [List.length_cons]; omega⟩)
  | ⟨.identifier name, start⟩ :: ⟨.mark .bang, _⟩ :: rest => do
    let (className, stop, ⟨r, h⟩) ← identifier finish rest
    .ok (.typeName (start.hull stop) (some name) className, ⟨r, by simp only [List.length_cons]; omega⟩)
  | ⟨.identifier name, start⟩ :: ⟨.mark .leftBrace, open_⟩ :: rest =>
    match CollectionKind.ofName? name with
    | some kind => do
      let (es, close, ⟨r, h⟩) ← arguments finish .rightBrace rest
      .ok (.collection (start.hull close) kind es, ⟨r, by simp only [List.length_cons]; omega⟩)
    | none => .ok (.var start name, ⟨⟨.mark .leftBrace, open_⟩ :: rest, by simp⟩)
  | ⟨.identifier name, start⟩ :: rest => .ok (.var start name, ⟨rest, by simp⟩)
  | t :: rest =>
    match literal? t.token with
    | some value => .ok (.literal t.span value, ⟨rest, by simp⟩)
    | none => .error (.unexpected t.token t.span)
termination_by (ts.length, 0)
decreasing_by all_goals simp_wf; omega
end

def complete (finish : Nat) (ts : List Located) : Except ParseError Expr := do
  let (e, rest) ← expression finish ts
  match rest.val with
  | [] => .ok e
  | t :: _ => .error (.leftover t.token t.span)

end Expr.Parser

def Expr.parse (text : String) : Except ParseError Expr :=
  match Token.tokenize text with
  | .ok ts => Expr.Parser.complete text.utf8ByteSize ts
  | .error e => .error (.unreadable e.text e.span)

end GraphQuery
