import GraphQuery.Script.Basic

/-!
Scripts under construction. Nodes are created one by one and named by their number; each has at most one
owner, which is recorded with it, so that sharing and cycles are refused when they would arise.
-/

namespace GraphQuery

structure InstructionId where
  index : Nat
deriving Repr, DecidableEq, Inhabited

structure TermId where
  index : Nat
deriving Repr, DecidableEq, Inhabited

namespace Arena

inductive Container where
  | script
  | closure (id : InstructionId)
deriving Repr, DecidableEq, Inhabited

inductive Owner where
  | container (container : Container)
  | instruction (id : InstructionId)
  | term (id : TermId)
deriving Repr, DecidableEq

inductive Node where
  | instruction (id : InstructionId)
  | term (id : TermId)
deriving Repr, DecidableEq

inductive InstructionNode where
  | step (name : String) (arguments : List TermId)
  | closure (name : String) (parameter : Option String) (body : List InstructionId) (isSealed : Bool)
  | statement (term : TermId)
deriving Repr

inductive TermNode where
  | literal (value : Literal)
  | var (name : String)
  | property (target : TermId) (name : String)
  | list (items : List TermId)
  | unary (op : Term.UnaryOp) (operand : TermId)
  | binary (op : Term.BinaryOp) (left right : TermId)
deriving Repr

structure Slot (α : Type) where
  node : α
  owner : Option Owner := none
deriving Repr

end Arena

structure Arena where
  instructions : Array (Arena.Slot Arena.InstructionNode) := #[]
  terms : Array (Arena.Slot Arena.TermNode) := #[]
  root : List InstructionId := []
  rootSealed : Bool := false
deriving Repr, Inhabited

def InstructionId.display (id : InstructionId) : String :=
  "instruction #" ++ toString id.index

def TermId.display (id : TermId) : String :=
  "expression #" ++ toString id.index

namespace Arena

def Container.display : Container → String
  | script => "script"
  | closure id => "closure " ++ id.display

def Owner.display : Owner → String
  | container c => c.display
  | instruction id => id.display
  | term id => id.display

def Owner.record : Owner → String
  | container .script => "Container(Script)"
  | container (.closure id) => "Container(Closure(InstructionId(" ++ toString id.index ++ ")))"
  | instruction id => "Instruction(InstructionId(" ++ toString id.index ++ "))"
  | term id => "Expression(ExpressionId(" ++ toString id.index ++ "))"

def Node.display : Node → String
  | instruction id => id.display
  | term id => id.display

inductive Error where
  | unknown (node : Node)
  | owned (node : Node) (owner : Owner)
  | usedTwice (id : TermId) (owner : Owner)
  | notClosure (id : InstructionId)
  | sealedContainer (id : InstructionId) (container : Container)
  | cycle (id : InstructionId) (container : Container)
  | reachedTwice (node : Node)
  | wrongOwner (node : Node) (parent : Owner) (recorded : Option Owner)
  | neverAttached (id : InstructionId)
  | neverUsed (id : TermId)
  | assembledTwice (node : Node)
deriving Repr, DecidableEq

namespace Error

def message : Error → String
  | unknown node => "unknown " ++ node.display
  | owned node owner => node.display ++ " is already owned by " ++ owner.display
  | usedTwice id owner => id.display ++ " used twice by " ++ owner.display
  | notClosure id => id.display ++ " is not a closure"
  | sealedContainer id container => "cannot append " ++ id.display ++ " to sealed " ++ container.display
  | cycle id container =>
    "appending " ++ id.display ++ " to " ++ container.display ++ " would create a cycle"
  | reachedTwice node => node.display ++ " is reachable twice"
  | wrongOwner node parent recorded =>
    node.display ++ " reached from " ++ parent.display ++ " but owned by " ++
      (match recorded with
        | none => "None"
        | some owner => "Some(" ++ owner.record ++ ")")
  | neverAttached id => id.display ++ " was never attached"
  | neverUsed id => id.display ++ " was never used"
  | assembledTwice node => node.display ++ " assembled twice"

def isOwnership : Error → Bool
  | owned .. | usedTwice .. => true
  | _ => false

end Error

def TermNode.operands : TermNode → List TermId
  | literal _ | var _ => []
  | property target _ => [target]
  | list items => items
  | unary _ operand => [operand]
  | binary _ left right => [left, right]

def instruction? (a : Arena) (id : InstructionId) : Option (Slot InstructionNode) :=
  a.instructions[id.index]?

def term? (a : Arena) (id : TermId) : Option (Slot TermNode) :=
  a.terms[id.index]?

def nodeCount (a : Arena) : Nat :=
  a.instructions.size + a.terms.size

def isAttached (a : Arena) (id : InstructionId) : Bool :=
  (a.instruction? id).any (·.owner.isSome)

def isClaimed (a : Arena) (id : TermId) : Bool :=
  (a.term? id).any (·.owner.isSome)

def nextTerm (a : Arena) : TermId := ⟨a.terms.size⟩

def nextInstruction (a : Arena) : InstructionId := ⟨a.instructions.size⟩

def pushTerm (a : Arena) (node : TermNode) : TermId × Arena :=
  (a.nextTerm, { a with terms := a.terms.push ⟨node, none⟩ })

def pushInstruction (a : Arena) (node : InstructionNode) : InstructionId × Arena :=
  (a.nextInstruction, { a with instructions := a.instructions.push ⟨node, none⟩ })

/-- Checks that an owner may claim terms: each exists, has no owner yet and is named once. The first position
that fails decides; `before` are the positions already passed. -/
def claimable (a : Arena) (owner : Owner) (before : List TermId) : List TermId → Except Error Unit
  | [] => .ok ()
  | id :: ids =>
    match a.term? id with
    | none => .error (.unknown (.term id))
    | some slot =>
      match slot.owner with
      | some current => .error (.owned (.term id) current)
      | none => if id ∈ before then .error (.usedTwice id owner) else claimable a owner (before ++ [id]) ids

def setTermOwner (a : Arena) (owner : Owner) (id : TermId) : Arena :=
  { a with terms := a.terms.modify id.index (fun slot => { slot with owner := some owner }) }

def claim (a : Arena) (ids : List TermId) (owner : Owner) : Except Error Arena := do
  claimable a owner [] ids
  .ok (ids.foldl (fun a id => a.setTermOwner owner id) a)

def addTerm (a : Arena) (node : TermNode) : Except Error (TermId × Arena) := do
  let claimed ← a.claim node.operands (.term a.nextTerm)
  .ok (claimed.pushTerm node)

def addStep (a : Arena) (name : String) (arguments : List TermId) : Except Error (InstructionId × Arena) := do
  let claimed ← a.claim arguments (.instruction a.nextInstruction)
  .ok (claimed.pushInstruction (.step name arguments))

def addStatement (a : Arena) (term : TermId) : Except Error (InstructionId × Arena) := do
  let claimed ← a.claim [term] (.instruction a.nextInstruction)
  .ok (claimed.pushInstruction (.statement term))

def addClosure (a : Arena) (name : String) (parameter : Option String) : InstructionId × Arena :=
  a.pushInstruction (.closure name parameter [] false)

def closure? (a : Arena) (id : InstructionId) : Except Error (List InstructionId × Bool) :=
  match a.instruction? id with
  | none => .error (.unknown (.instruction id))
  | some slot =>
    match slot.node with
    | .closure _ _ body isSealed => .ok (body, isSealed)
    | _ => .error (.notClosure id)

def isSealed (a : Arena) : Container → Except Error Bool
  | .script => .ok a.rootSealed
  | .closure id => (a.closure? id).map (·.2)

def children (a : Arena) : Container → Except Error (List InstructionId)
  | .script => .ok a.root
  | .closure id => (a.closure? id).map (·.1)

def enclosing? (a : Arena) (id : InstructionId) : Option InstructionId :=
  match (a.instruction? id).bind (·.owner) with
  | some (.container (.closure parent)) => some parent
  | _ => none

def isWithinSteps (a : Arena) (ancestor : InstructionId) : (steps : Nat) → InstructionId → Bool
  | 0, _ => false
  | steps + 1, current =>
    if current = ancestor then true
    else
      match a.enclosing? current with
      | some parent => a.isWithinSteps ancestor steps parent
      | none => false

/-- Whether an instruction is `ancestor` or nested inside it. A chain of owners without repetition is no
longer than the number of instructions. -/
def isWithin (a : Arena) (id ancestor : InstructionId) : Bool :=
  a.isWithinSteps ancestor (a.instructions.size + 1) id

def modifyInstruction (a : Arena) (id : InstructionId) (f : Slot InstructionNode → Slot InstructionNode) :
    Arena :=
  { a with instructions := a.instructions.modify id.index f }

def pushChild (a : Arena) (container : Container) (id : InstructionId) : Arena :=
  match container with
  | .script => { a with root := a.root ++ [id] }
  | .closure target =>
    a.modifyInstruction target (fun slot =>
      match slot.node with
      | .closure name parameter body isSealed =>
        { slot with node := .closure name parameter (body ++ [id]) isSealed }
      | _ => slot)

def append (a : Arena) (container : Container) (id : InstructionId) : Except Error Arena :=
  match a.instruction? id with
  | none => .error (.unknown (.instruction id))
  | some slot =>
    match slot.owner with
    | some owner => .error (.owned (.instruction id) owner)
    | none =>
      match a.isSealed container with
      | .error e => .error e
      | .ok true => .error (.sealedContainer id container)
      | .ok false =>
        let wouldCycle := match container with
          | .script => false
          | .closure target => a.isWithin target id
        if wouldCycle then .error (.cycle id container)
        else
          let owned := a.modifyInstruction id (fun slot => { slot with owner := some (.container container) })
          .ok (owned.pushChild container id)

def close (a : Arena) : Container → Except Error Arena
  | .script => .ok { a with rootSealed := true }
  | .closure id => do
    let _ ← a.closure? id
    .ok (a.modifyInstruction id (fun slot =>
      match slot.node with
      | .closure name parameter body _ => { slot with node := .closure name parameter body true }
      | _ => slot))

inductive Op where
  | literal (value : Literal)
  | var (name : String)
  | property (target : TermId) (name : String)
  | list (items : List TermId)
  | unary (op : Term.UnaryOp) (operand : TermId)
  | binary (op : Term.BinaryOp) (left right : TermId)
  | step (name : String) (arguments : List TermId)
  | statement (term : TermId)
  | closure (name : String) (parameter : Option String)
  | append (container : Container) (id : InstructionId)
  | close (container : Container)
deriving Repr

inductive Reply where
  | node (node : Node)
  | done
deriving Repr, DecidableEq

def replyTerm (made : TermId × Arena) : Reply × Arena := (.node (.term made.1), made.2)

def replyInstruction (made : InstructionId × Arena) : Reply × Arena := (.node (.instruction made.1), made.2)

def perform (a : Arena) : Op → Except Error (Reply × Arena)
  | .literal value => (a.addTerm (.literal value)).map replyTerm
  | .var name => (a.addTerm (.var name)).map replyTerm
  | .property target name => (a.addTerm (.property target name)).map replyTerm
  | .list items => (a.addTerm (.list items)).map replyTerm
  | .unary op operand => (a.addTerm (.unary op operand)).map replyTerm
  | .binary op left right => (a.addTerm (.binary op left right)).map replyTerm
  | .step name arguments => (a.addStep name arguments).map replyInstruction
  | .statement term => (a.addStatement term).map replyInstruction
  | .closure name parameter => .ok (replyInstruction (a.addClosure name parameter))
  | .append container id => (a.append container id).map (fun a => (.done, a))
  | .close container => (a.close container).map (fun a => (.done, a))

def after (a : Arena) (op : Op) : Arena :=
  match a.perform op with
  | .ok (_, a') => a'
  | .error _ => a

end Arena

end GraphQuery
