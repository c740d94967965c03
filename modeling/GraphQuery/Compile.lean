import GraphQuery.Arena.Finish
import GraphQuery.Expr.Display
import GraphQuery.Metamodel
import GraphQuery.Script.Validity

/-!
Compiling query expressions to scripts. Every node becomes either a traversal, whose steps are appended to
the script, or a single term.
-/

namespace GraphQuery

def inputName : String := "input"

def outputName : String := "output"

namespace Compile

inductive Refusal where
  | reservedName
  | traversalAsOperand
  | traversalInBody
  | unknownClass (name : String)
  | callOnTraversal (name : String)
  | callOnValue (name : String)
  | argumentCount (name : String) (wanted given : Nat)
  | valueSource (kind : Expr.IteratorKind)
  | operation (name : String)
  | typeName
  | conditional
  | letIn
  | notValue
deriving Repr, DecidableEq

def Refusal.message : Refusal → String
  | reservedName => "`" ++ implicitName ++ "` is reserved for the implicit iterator"
  | traversalAsOperand => "a traversal cannot be used as an operand"
  | traversalInBody => "a traversal cannot be nested inside an iterator body"
  | unknownClass name => "unknown class `" ++ name ++ "`"
  | callOnTraversal name => "`->" ++ name ++ "` is not supported on a traversal"
  | callOnValue name => "`->" ++ name ++ "` is not supported on a value"
  | argumentCount name wanted given =>
    "`->" ++ name ++ "` takes " ++ toString wanted ++ " argument(s), got " ++ toString given
  | valueSource kind => "`->" ++ kind.name ++ "` requires a collection source"
  | operation name => "operation `" ++ name ++ "` has no lowering"
  | typeName => "a type reference is only supported as the source of allInstances()"
  | conditional => "if expressions have no lowering"
  | letIn => "let expressions have no lowering"
  | notValue => "expected a value but the expression produces a traversal"

inductive Error where
  | refused (node : Expr) (reason : Refusal)
  | arena (cause : Arena.Error)
  | invalid (cause : Script.Invalid)
deriving Repr

inductive Context where
  | root
  | operand
  | body
deriving Repr, DecidableEq

def Context.inner : Context → Context
  | body => body
  | _ => operand

inductive Lowered where
  | traversal (className : Option String)
  | value (id : TermId)
deriving Repr

structure IteratorScope where
  declared : Option String
  className : Option String
deriving Repr

abbrev Build := StateT Arena (Except Error)

def refuse {α : Type} (node : Expr) (reason : Refusal) : Build α :=
  throw (.refused node reason)

def term (node : Arena.TermNode) : Build TermId := fun a =>
  match a.addTerm node with
  | .ok made => .ok made
  | .error e => .error (.arena e)

def step (name : String) (arguments : List TermId) : Build InstructionId := fun a =>
  match a.addStep name arguments with
  | .ok made => .ok made
  | .error e => .error (.arena e)

def statement (id : TermId) : Build InstructionId := fun a =>
  match a.addStatement id with
  | .ok made => .ok made
  | .error e => .error (.arena e)

def closure (name : String) (parameter : Option String) : Build InstructionId := fun a =>
  .ok (a.addClosure name parameter)

def append (container : Arena.Container) (id : InstructionId) : Build Unit := fun a =>
  match a.append container id with
  | .ok a => .ok ((), a)
  | .error e => .error (.arena e)

def appendStep (name : String) (arguments : List TermId) : Build Unit := do
  append .script (← step name arguments)

def appendClosure (id : InstructionId) (value : TermId) : Build Unit := do
  append (.closure id) (← statement value)
  append .script id

def transform (value : TermId) : Build Lowered := do
  let id ← closure "transform" none
  appendClosure id value
  return .traversal none

def binaryOp : Expr.BinaryOp → Option Term.BinaryOp
  | .equal => some .equality
  | .notEqual => some .difference
  | .less => some .less
  | .lessOrEqual => some .lessOrEqual
  | .greater => some .greater
  | .greaterOrEqual => some .greaterOrEqual
  | .and => some .and
  | .or => some .or
  | .implies => none
  | .add => some .add
  | .subtract => some .subtract
  | .multiply => some .multiply
  | .divide => some .divide

def unaryOp : Expr.UnaryOp → Term.UnaryOp
  | .not => .not
  | .minus => .negate

def combine (op : Expr.BinaryOp) (left right : TermId) : Build TermId := do
  match binaryOp op with
  | some op => term (.binary op left right)
  | none =>
    let negated ← term (.unary .not left)
    term (.binary .or negated right)

def isImplicitFeature (m : Metamodel) (scope : Option IteratorScope) (name : String) : Bool :=
  match scope with
  | some ⟨none, className⟩ => name != "self" && (m.isEmpty || (m.feature? className name).isSome)
  | _ => false

/-- The implicit name stands for an element only where an iterator declares it as its variable. -/
def isReserved (scope : Option IteratorScope) (name : String) : Bool :=
  name == implicitName && scope.bind (·.declared) != some implicitName

def lowerName (m : Metamodel) (scope : Option IteratorScope) (node : Expr) (name : String) :
    Build Lowered := do
  if isReserved scope name then refuse node .reservedName
  else if isImplicitFeature m scope name then
    let it ← term (.var implicitName)
    return .value (← term (.property it name))
  else return .value (← term (.var name))

def lowerExtent (m : Metamodel) (context : Context) (node : Expr) (className : String) : Build Lowered :=
  match context with
  | .operand => refuse node .traversalAsOperand
  | .body => refuse node .traversalInBody
  | .root => do
    if !m.isEmpty && !m.hasClass className then refuse node (.unknownClass className)
    else
      let input ← term (.var inputName)
      appendStep "V" [input]
      let label ← term (.literal (.string className))
      appendStep "hasLabel" [label]
      return .traversal (some className)

def lowerFeature (m : Metamodel) (className : Option String) (feature : String) : Build Lowered := do
  let name ← term (.literal (.string feature))
  match (m.feature? className feature).filter (·.isReference) with
  | some f =>
    appendStep "out" [name]
    return .traversal f.target
  | none =>
    appendStep "values" [name]
    return .traversal none

def traversalCall? : String → Option (String × Bool)
  | "size" => some ("count", false)
  | "isEmpty" => some ("isEmpty", false)
  | "notEmpty" => some ("hasNext", false)
  | "asSet" => some ("dedup", true)
  | "first" => some ("limit", true)
  | _ => none

def lowerTraversalCall (node : Expr) (className : Option String) (name : String) (given : Nat) :
    Build Lowered := do
  match traversalCall? name with
  | none => refuse node (.callOnTraversal name)
  | some (stepName, keepsClass) =>
    if given ≠ 0 then refuse node (.argumentCount name 0 given)
    else
      let arguments ← if stepName = "limit" then pure [← term (.literal (.integer 1))] else pure []
      appendStep stepName arguments
      return .traversal (if keepsClass then className else none)

def valueCall? : String → Option (Term.BinaryOp × Bool)
  | "union" => some (.union, false)
  | "including" => some (.union, true)
  | "intersection" => some (.intersection, false)
  | _ => none

def asValue (node : Expr) : Lowered → Build TermId
  | .value id => return id
  | .traversal _ => refuse node .notValue

def afterIterator (className : Option String) : Expr.IteratorKind → Build Lowered
  | .select | .reject => return .traversal className
  | .collect => return .traversal none
  | .exist => do
    appendStep "hasNext" []
    return .traversal none
  | .forAll => do
    appendStep "isEmpty" []
    return .traversal none

def closureName : Expr.IteratorKind → String
  | .collect => "transform"
  | _ => "filter"

def negates : Expr.IteratorKind → Bool
  | .reject | .forAll => true
  | _ => false

mutual
def lower (m : Metamodel) (scope : Option IteratorScope) (context : Context) : Expr → Build Lowered
  | .literal _ value => do return .value (← term (.literal value))
  | .var span name => lowerName m scope (.var span name) name
  | .collection _ _ items => do
    let ids ← lowerAll m scope context.inner items
    return .value (← term (.list ids))
  | .extent span metamodel className => lowerExtent m context (.extent span metamodel className) className
  | .navigation _ source feature => do
    match ← lower m scope context source with
    | .traversal className => lowerFeature m className feature
    | .value target => return .value (← term (.property target feature))
  | .collectionCall span source name arguments => do
    let node : Expr := .collectionCall span source name arguments
    match ← lower m scope context source with
    | .traversal className => lowerTraversalCall node className name arguments.length
    | .value left =>
      match valueCall? name with
      | none => refuse node (.callOnValue name)
      | some (op, single) =>
        let right ← lowerSole m scope context.inner
          (.refused node (.argumentCount name 1 arguments.length)) arguments
        let right ← if single then term (.list [right]) else pure right
        return .value (← term (.binary op left right))
  | .iterator span source kind declared body => do
    let node : Expr := .iterator span source kind declared body
    match ← lower m scope context source with
    | .value _ => refuse node (.valueSource kind)
    | .traversal className =>
      let id ← closure (closureName kind) declared
      let value ← asValue body (← lower m (some ⟨declared, className⟩) .body body)
      let value ← if negates kind then term (.unary .not value) else pure value
      appendClosure id value
      afterIterator className kind
  | .binary _ op left right => do
    let l ← lower m scope context left
    let r ← asValue right (← lower m scope context.inner right)
    match l with
    | .value l => return .value (← combine op l r)
    | .traversal _ =>
      let it ← term (.var implicitName)
      transform (← combine op it r)
  | .unary _ op operand => do
    match ← lower m scope context operand with
    | .value id => return .value (← term (.unary (unaryOp op) id))
    | .traversal _ =>
      let it ← term (.var implicitName)
      transform (← term (.unary (unaryOp op) it))
  | .operation span source name arguments =>
    refuse (.operation span source name arguments) (.operation name)
  | .typeName span metamodel name => refuse (.typeName span metamodel name) .typeName
  | .conditional span condition yes no => refuse (.conditional span condition yes no) .conditional
  | .letIn span name value body => refuse (.letIn span name value body) .letIn

def lowerAll (m : Metamodel) (scope : Option IteratorScope) (context : Context) :
    List Expr → Build (List TermId)
  | [] => return []
  | e :: es => do
    let id ← asValue e (← lower m scope context e)
    let ids ← lowerAll m scope context es
    return id :: ids

def lowerSole (m : Metamodel) (scope : Option IteratorScope) (context : Context) (otherwise : Error) :
    List Expr → Build TermId
  | [e] => do asValue e (← lower m scope context e)
  | _ => throw otherwise
end

def lowerRoot (m : Metamodel) (e : Expr) : Build Unit := do
  match ← lower m none .root e with
  | .traversal _ => return ()
  | .value id => append .script (← statement id)

def conclude (checked : Bool) (a : Arena) : Except Error Script := do
  if checked then a.checkTree.mapError .arena
  let script ← (a.finish checked).mapError .arena
  if checked then script.validate.mapError .invalid
  return script

end Compile

def Expr.compile (m : Metamodel) (checked : Bool) (e : Expr) : Except Compile.Error Script := do
  let ((), arena) ← (Compile.lowerRoot m e).run {}
  Compile.conclude checked arena

end GraphQuery
