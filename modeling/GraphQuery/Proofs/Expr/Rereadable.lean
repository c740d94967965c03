import GraphQuery.Expr.Display
import GraphQuery.Proofs.Parser.Grammar

namespace GraphQuery.Expr

def isUnary : Expr → Bool
  | unary .. => true
  | _ => false

def isMinus : Expr → Bool
  | unary _ .minus _ => true
  | _ => false

def hasPoint : Literal → Bool
  | .real x => '.' ∈ (Decimal.Notation.tagged.write x).toList
  | _ => true

mutual
def rereadable : Expr → Bool
  | literal _ value => hasPoint value
  | var .. | typeName .. | extent .. => true
  | navigation _ source _ => !source.isUnary && source.rereadable
  | operation _ source _ arguments | collectionCall _ source _ arguments =>
    !source.isUnary && source.rereadable && rereadableAll arguments
  | iterator _ source _ _ body => !source.isUnary && source.rereadable && body.rereadable
  | binary _ _ left right => left.rereadable && right.rereadable
  | unary _ op operand => !(op == .minus && operand.isMinus) && operand.rereadable
  | collection _ _ items => rereadableAll items
  | conditional _ condition yes no => condition.rereadable && yes.rereadable && no.rereadable
  | letIn _ _ value body => value.rereadable && body.rereadable

def rereadableAll : List Expr → Bool
  | [] => true
  | e :: es => e.rereadable && rereadableAll es
end

section Bare

variable (f : Span → Span)

theorem isCompound_mapSpan (e : Expr) : (e.mapSpan f).isCompound = e.isCompound := by
  cases e <;> rfl

theorem isUnary_mapSpan (e : Expr) : (e.mapSpan f).isUnary = e.isUnary := by
  cases e <;> rfl

theorem isMinus_mapSpan (e : Expr) : (e.mapSpan f).isMinus = e.isMinus := by
  cases e with
  | unary _ op _ => cases op <;> rfl
  | _ => rfl

mutual
theorem display_mapSpan : (e : Expr) → (e.mapSpan f).display = e.display
  | literal .. | var .. | typeName .. | extent .. => by simp only [mapSpan, display]
  | navigation _ source _ => by simp only [mapSpan, display, isCompound_mapSpan, display_mapSpan source]
  | operation _ source _ arguments | collectionCall _ source _ arguments => by
    simp only [mapSpan, display, isCompound_mapSpan, display_mapSpan source, displayList_mapSpans arguments]
  | iterator _ source _ _ body => by
    simp only [mapSpan, display, isCompound_mapSpan, display_mapSpan source, display_mapSpan body]
  | binary _ _ left right => by
    simp only [mapSpan, display, isCompound_mapSpan, display_mapSpan left, display_mapSpan right]
  | unary _ _ operand => by simp only [mapSpan, display, isCompound_mapSpan, display_mapSpan operand]
  | collection _ _ items => by simp only [mapSpan, display, displayList_mapSpans items]
  | conditional _ condition yes no => by
    simp only [mapSpan, display, display_mapSpan condition, display_mapSpan yes, display_mapSpan no]
  | letIn _ _ value body => by simp only [mapSpan, display, display_mapSpan value, display_mapSpan body]

theorem displayList_mapSpans : (es : List Expr) → displayList (mapSpans f es) = displayList es
  | [] => rfl
  | [e] => by simp only [mapSpans, displayList, display_mapSpan e]
  | e :: e' :: es => by
    have hes := displayList_mapSpans (e' :: es)
    rw [mapSpans] at hes
    simp only [mapSpans, displayList, display_mapSpan e, hes]
end

mutual
theorem rereadable_mapSpan : (e : Expr) → (e.mapSpan f).rereadable = e.rereadable
  | literal .. | var .. | typeName .. | extent .. => by simp only [mapSpan, rereadable]
  | navigation _ source _ => by simp only [mapSpan, rereadable, isUnary_mapSpan, rereadable_mapSpan source]
  | operation _ source _ arguments | collectionCall _ source _ arguments => by
    simp only [mapSpan, rereadable, isUnary_mapSpan, rereadable_mapSpan source, rereadableAll_mapSpans arguments]
  | iterator _ source _ _ body => by
    simp only [mapSpan, rereadable, isUnary_mapSpan, rereadable_mapSpan source, rereadable_mapSpan body]
  | binary _ _ left right => by simp only [mapSpan, rereadable, rereadable_mapSpan left, rereadable_mapSpan right]
  | unary _ _ operand => by simp only [mapSpan, rereadable, isMinus_mapSpan, rereadable_mapSpan operand]
  | collection _ _ items => by simp only [mapSpan, rereadable, rereadableAll_mapSpans items]
  | conditional _ condition yes no => by
    simp only [mapSpan, rereadable, rereadable_mapSpan condition, rereadable_mapSpan yes, rereadable_mapSpan no]
  | letIn _ _ value body => by simp only [mapSpan, rereadable, rereadable_mapSpan value, rereadable_mapSpan body]

theorem rereadableAll_mapSpans : (es : List Expr) → rereadableAll (mapSpans f es) = rereadableAll es
  | [] => rfl
  | e :: es => by simp only [mapSpans, rereadableAll, rereadable_mapSpan e, rereadableAll_mapSpans es]
end

end Bare

end GraphQuery.Expr
