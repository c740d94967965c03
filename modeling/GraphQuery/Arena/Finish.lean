import GraphQuery.Arena.Check

namespace GraphQuery.Arena

structure Stock where
  instructions : Array (Option InstructionNode)
  terms : Array (Option TermNode)

def stock (a : Arena) : Stock :=
  ⟨a.instructions.map (fun slot => some slot.node), a.terms.map (fun slot => some slot.node)⟩

abbrev Assembly := StateT Stock (Except Error)

def takeTerm (id : TermId) : Assembly TermNode := fun s =>
  match s.terms[id.index]?.join with
  | some node => .ok (node, { s with terms := s.terms.modify id.index (fun _ => none) })
  | none => .error (.assembledTwice (.term id))

def takeInstruction (id : InstructionId) : Assembly InstructionNode := fun s =>
  match s.instructions[id.index]?.join with
  | some node => .ok (node, { s with instructions := s.instructions.modify id.index (fun _ => none) })
  | none => .error (.assembledTwice (.instruction id))

def assembleTerm : (levels : Nat) → TermId → Assembly Term
  -- there are as many levels as terms; once all of them are taken, any further one would be taken twice
  | 0, id => throw (.assembledTwice (.term id))
  | levels + 1, id => do
    match ← takeTerm id with
    | .literal value => return .literal value
    | .var name => return .var name
    | .property target name => return .property (← assembleTerm levels target) name
    | .list items => return .list (← items.mapM (assembleTerm levels))
    | .unary op operand => return .unary op (← assembleTerm levels operand)
    | .binary op left right =>
      let left ← assembleTerm levels left
      let right ← assembleTerm levels right
      return .binary op left right

def assembleInstruction (termLevels : Nat) : (levels : Nat) → InstructionId → Assembly Instruction
  | 0, id => throw (.assembledTwice (.instruction id))
  | levels + 1, id => do
    match ← takeInstruction id with
    | .step name arguments => return .step name (← arguments.mapM (assembleTerm termLevels))
    | .closure name parameter body _ =>
      return .closure name parameter (← body.mapM (assembleInstruction termLevels levels))
    | .statement term => return .statement (← assembleTerm termLevels term)

def assemble (a : Arena) : Except Error Script := do
  let levels := a.instructions.size
  let termLevels := a.terms.size
  let (instructions, _) ← (a.root.mapM (assembleInstruction termLevels levels)).run a.stock
  .ok ⟨instructions⟩

def unattached? (a : Arena) : Option InstructionId :=
  (a.instructions.findIdx? (·.owner.isNone)).map (⟨·⟩)

def unused? (a : Arena) : Option TermId :=
  (a.terms.findIdx? (·.owner.isNone)).map (⟨·⟩)

/-- The script of an arena in which every node has an owner. With `inspect` the arena is also checked to be a
tree, which any arena that operations can produce is. -/
def finish (a : Arena) (inspect : Bool) : Except Error Script :=
  match a.unattached? with
  | some id => .error (.neverAttached id)
  | none =>
    match a.unused? with
    | some id => .error (.neverUsed id)
    | none => do
      if inspect then a.checkTree
      a.assemble

end GraphQuery.Arena
