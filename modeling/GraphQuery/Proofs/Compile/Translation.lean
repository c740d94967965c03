import GraphQuery.Compile

namespace GraphQuery.Compile

inductive Translated where
  | traversal (className : Option String) (instructions : List Instruction)
  | value (term : Term)

def Translated.script : Translated → Script
  | traversal _ instructions => ⟨instructions⟩
  | value term => ⟨[.statement term]⟩

def combineTerms (op : Expr.BinaryOp) (left right : Term) : Term :=
  match binaryOp op with
  | some op => .binary op left right
  | none => .binary .or (.unary .not left) right

def translateName (m : Metamodel) (scope : Option IteratorScope) (node : Expr) (name : String) :
    Except Error Translated :=
  if isReserved scope name then .error (.refused node .reservedName)
  else if isImplicitFeature m scope name then .ok (.value (.property (.var implicitName) name))
  else .ok (.value (.var name))

def translateExtent (m : Metamodel) (context : Context) (node : Expr) (className : String) :
    Except Error Translated :=
  match context with
  | .operand => .error (.refused node .traversalAsOperand)
  | .body => .error (.refused node .traversalInBody)
  | .root =>
    if !m.isEmpty && !m.hasClass className then .error (.refused node (.unknownClass className))
    else .ok (.traversal (some className)
      [.step "V" [.var inputName], .step "hasLabel" [.literal (.string className)]])

def featureStep (m : Metamodel) (className : Option String) (feature : String) :
    Option String × Instruction :=
  match (m.feature? className feature).filter (·.isReference) with
  | some f => (f.target, .step "out" [.literal (.string feature)])
  | none => (none, .step "values" [.literal (.string feature)])

def callArguments (stepName : String) : List Term :=
  if stepName = "limit" then [.literal (.integer 1)] else []

def translateCall (node : Expr) (className : Option String) (instructions : List Instruction) (name : String)
    (given : Nat) : Except Error Translated :=
  match traversalCall? name with
  | none => .error (.refused node (.callOnTraversal name))
  | some (stepName, keepsClass) =>
    if given ≠ 0 then .error (.refused node (.argumentCount name 0 given))
    else .ok (.traversal (if keepsClass then className else none)
      (instructions ++ [.step stepName (callArguments stepName)]))

def valueOnly (node : Expr) : Translated → Except Error Term
  | .value term => .ok term
  | .traversal .. => .error (.refused node .notValue)

def iteratorEnd (className : Option String) : Expr.IteratorKind → Option String × List Instruction
  | .select | .reject => (className, [])
  | .collect => (none, [])
  | .exist => (none, [.step "hasNext" []])
  | .forAll => (none, [.step "isEmpty" []])

def iteratorBody (kind : Expr.IteratorKind) (body : Term) : Term :=
  if negates kind then .unary .not body else body

def iterated (className : Option String) (instructions : List Instruction) (kind : Expr.IteratorKind)
    (declared : Option String) (body : Term) : Translated :=
  .traversal (iteratorEnd className kind).1
    (instructions ++ .closure (closureName kind) declared [.statement (iteratorBody kind body)] ::
      (iteratorEnd className kind).2)

def transformed (instructions : List Instruction) (t : Term) : Translated :=
  .traversal none (instructions ++ [.closure "transform" none [.statement t]])

def inspected (checked : Bool) (s : Script) : Except Error Script := do
  if checked then s.validate.mapError .invalid
  return s

mutual
def translate (m : Metamodel) (scope : Option IteratorScope) (context : Context) :
    Expr → Except Error Translated
  | .literal _ value => .ok (.value (.literal value))
  | .var span name => translateName m scope (.var span name) name
  | .collection _ _ items => do
    let ts ← translateAll m scope context.inner items
    .ok (.value (.list ts))
  | .extent span metamodel className =>
    translateExtent m context (.extent span metamodel className) className
  | .navigation _ source feature => do
    match ← translate m scope context source with
    | .traversal className instructions =>
      .ok (.traversal (featureStep m className feature).1
        (instructions ++ [(featureStep m className feature).2]))
    | .value target => .ok (.value (.property target feature))
  | .collectionCall span source name arguments => do
    let node : Expr := .collectionCall span source name arguments
    match ← translate m scope context source with
    | .traversal className instructions =>
      translateCall node className instructions name arguments.length
    | .value left =>
      match valueCall? name with
      | none => .error (.refused node (.callOnValue name))
      | some (op, single) =>
        let right ← translateSole m scope context.inner
          (.refused node (.argumentCount name 1 arguments.length)) arguments
        .ok (.value (.binary op left (if single then .list [right] else right)))
  | .iterator span source kind declared body => do
    match ← translate m scope context source with
    | .value _ => .error (.refused (.iterator span source kind declared body) (.valueSource kind))
    | .traversal className instructions =>
      let body ← valueOnly body (← translate m (some ⟨declared, className⟩) .body body)
      .ok (iterated className instructions kind declared body)
  | .binary _ op left right => do
    let l ← translate m scope context left
    let r ← valueOnly right (← translate m scope context.inner right)
    match l with
    | .value l => .ok (.value (combineTerms op l r))
    | .traversal _ instructions => .ok (transformed instructions (combineTerms op (.var implicitName) r))
  | .unary _ op operand => do
    match ← translate m scope context operand with
    | .value t => .ok (.value (.unary (unaryOp op) t))
    | .traversal _ instructions =>
      .ok (transformed instructions (.unary (unaryOp op) (.var implicitName)))
  | .operation span source name arguments =>
    .error (.refused (.operation span source name arguments) (.operation name))
  | .typeName span metamodel name => .error (.refused (.typeName span metamodel name) .typeName)
  | .conditional span condition yes no => .error (.refused (.conditional span condition yes no) .conditional)
  | .letIn span name value body => .error (.refused (.letIn span name value body) .letIn)

def translateAll (m : Metamodel) (scope : Option IteratorScope) (context : Context) :
    List Expr → Except Error (List Term)
  | [] => .ok []
  | e :: es => do
    let t ← valueOnly e (← translate m scope context e)
    let ts ← translateAll m scope context es
    .ok (t :: ts)

def translateSole (m : Metamodel) (scope : Option IteratorScope) (context : Context) (otherwise : Error) :
    List Expr → Except Error Term
  | [e] => do valueOnly e (← translate m scope context e)
  | _ => .error otherwise
end

end GraphQuery.Compile
