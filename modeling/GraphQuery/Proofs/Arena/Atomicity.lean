import GraphQuery.Error
import GraphQuery.Proofs.Arena.Building

namespace GraphQuery.Arena

abbrev Edit := EStateM Error Arena

namespace Edit

variable {α : Type} {a a' : Arena}

def check (owner : Owner) (ids : List TermId) (operand : TermId × Nat) : Edit Unit := do
  match (← get).term? operand.1 with
  | none => throw (.unknown (.term operand.1))
  | some slot =>
    if let some current := slot.owner then throw (.owned (.term operand.1) current)
    if operand.1 ∈ ids.take operand.2 then throw (.usedTwice operand.1 owner)

def claim (ids : List TermId) (owner : Owner) : Edit Unit := do
  ids.zipIdx.forM (check owner ids)
  ids.forM fun id => modify (·.setTermOwner owner id)

def addTerm (node : TermNode) : Edit Reply := do
  claim node.operands (.term (← get).nextTerm)
  return .node (.term (← modifyGet (·.pushTerm node)))

def addInstruction (node : InstructionNode) : Edit Reply := do
  claim node.arguments (.instruction (← get).nextInstruction)
  return .node (.instruction (← modifyGet (·.pushInstruction node)))

def append (container : Container) (id : InstructionId) : Edit Reply := do
  match (← get).instruction? id with
  | none => throw (.unknown (.instruction id))
  | some slot =>
    if let some owner := slot.owner then throw (.owned (.instruction id) owner)
    if ← ofExcept ((← get).isSealed container) then throw (.sealedContainer id container)
    if let .closure target := container then
      if (← get).isWithin target id then throw (.cycle id container)
    modify (·.modifyInstruction id (fun slot => { slot with owner := some (.container container) }))
    modify (·.pushChild container id)
    return .done

def close : Container → Edit Reply
  | .script => do
    modify fun a => { a with rootSealed := true }
    return .done
  | .closure id => do
    let _ ← ofExcept ((← get).closure? id)
    modify (·.modifyInstruction id (fun slot =>
      match slot.node with
      | .closure name parameter body _ => { slot with node := .closure name parameter body true }
      | _ => slot))
    return .done

def perform : Op → Edit Reply
  | .literal value => addTerm (.literal value)
  | .var name => addTerm (.var name)
  | .property target name => addTerm (.property target name)
  | .list items => addTerm (.list items)
  | .unary op operand => addTerm (.unary op operand)
  | .binary op left right => addTerm (.binary op left right)
  | .step name arguments => addInstruction (.step name arguments)
  | .statement term => addInstruction (.statement term)
  | .closure name parameter => addInstruction (.closure name parameter [] false)
  | .append container id => append container id
  | .close container => close container

def outcome (a : Arena) : Except Error (α × Arena) → EStateM.Result Error Arena α
  | .ok (r, a') => .ok r a'
  | .error e => .error e a

theorem outcome_eq_ok {x : Except Error (α × Arena)} {r : α} : outcome a x = .ok r a' ↔ x = .ok (r, a') := by
  rcases x with e | ⟨r', b⟩ <;> simp [outcome]

theorem outcome_eq_error {x : Except Error (α × Arena)} {e : Error} :
    outcome a x = .error e a' ↔ x = .error e ∧ a' = a := by
  rcases x with e' | ⟨r, b⟩ <;> simp [outcome, eq_comm]

theorem run_check (owner : Owner) (ids : List TermId) (id : TermId) (k : Nat) (a : Arena) :
    (check owner ids (id, k)).run a =
      match a.term? id with
      | none => .error (.unknown (.term id)) a
      | some slot =>
        match slot.owner with
        | some current => .error (.owned (.term id) current) a
        | none => if id ∈ ids.take k then .error (.usedTwice id owner) a else .ok () a := by
  simp only [check, EStateM.run_bind, EStateM.run_get]
  cases a.term? id with
  | none => rfl
  | some slot =>
    obtain ⟨node, _ | current⟩ := slot
    · simp only
      split <;> rfl
    · rfl

theorem run_forM_check (owner : Owner) (before ids : List TermId) (a : Arena) :
    ((ids.zipIdx before.length).forM (check owner (before ++ ids))).run a =
      outcome a ((claimable a owner before ids).map (·, a)) := by
  -- The list as a whole stays the same while its first part, which has been looked at, grows.
  induction ids generalizing before with
  | nil => rfl
  | cons id ids ih =>
    have hrest := ih (before ++ [id])
    rw [List.length_append, List.length_singleton, List.append_assoc, List.singleton_append] at hrest
    have htake : (before ++ id :: ids).take before.length = before := List.take_left ..
    change (check owner (before ++ id :: ids) (id, before.length) >>= fun _ =>
      (ids.zipIdx (before.length + 1)).forM (check owner (before ++ id :: ids))).run a = _
    rw [EStateM.run_bind, run_check, claimable, htake]
    cases a.term? id with
    | none => rfl
    | some slot =>
      obtain ⟨node, _ | current⟩ := slot
      · by_cases hbefore : id ∈ before
        · simp only [hbefore, if_true]
          rfl
        · simp only [hbefore, if_false]
          exact hrest
      · rfl

theorem run_forM_mark (owner : Owner) (ids : List TermId) (a : Arena) :
    (ids.forM fun id => (modify (·.setTermOwner owner id) : Edit Unit)).run a =
      .ok () (ids.foldl (fun a id => a.setTermOwner owner id) a) := by
  induction ids generalizing a with
  | nil => rfl
  | cons id ids ih => exact ih (a.setTermOwner owner id)

theorem run_claim (ids : List TermId) (owner : Owner) (a : Arena) :
    (claim ids owner).run a = outcome a ((a.claim ids owner).map ((), ·)) := by
  have hcheck := run_forM_check owner [] ids a
  rw [List.nil_append, List.length_nil] at hcheck
  rw [claim, EStateM.run_bind, hcheck, Arena.claim]
  cases claimable a owner [] ids with
  | error e => rfl
  | ok _ => exact run_forM_mark owner ids a

theorem run_addTerm (node : TermNode) (a : Arena) :
    (addTerm node).run a = outcome a ((a.addTerm node).map replyTerm) := by
  simp only [addTerm, EStateM.run_bind, EStateM.run_get, run_claim, Arena.addTerm]
  cases a.claim node.operands (.term a.nextTerm) <;> rfl

theorem run_addInstruction (node : InstructionNode) (a : Arena) :
    (addInstruction node).run a =
      outcome a (((a.claim node.arguments (.instruction a.nextInstruction)).map (·.pushInstruction node)).map
        replyInstruction) := by
  simp only [addInstruction, EStateM.run_bind, EStateM.run_get, run_claim]
  cases a.claim node.arguments (.instruction a.nextInstruction) <;> rfl

theorem run_ofExcept (x : Except Error α) (a : Arena) :
    (ofExcept x : Edit α).run a = outcome a (x.map (·, a)) := by
  cases x <;> rfl

theorem run_append (c : Container) (i : InstructionId) (a : Arena) :
    (append c i).run a = outcome a ((a.append c i).map (.done, ·)) := by
  simp only [append, EStateM.run_bind, EStateM.run_get, Arena.append]
  cases a.instruction? i with
  | none => rfl
  | some slot =>
    obtain ⟨node, _ | owner⟩ := slot
    · simp only [EStateM.run_bind, EStateM.run_get, run_ofExcept]
      rcases a.isSealed c with e | _ | _
      · rfl
      · cases c with
        | script => rfl
        | closure t =>
          simp only [map_ok, outcome, Bool.false_eq_true, if_false, EStateM.run_bind, EStateM.run_get]
          split
          · rfl
          · rfl
      · rfl
    · rfl

theorem run_close (c : Container) (a : Arena) :
    (close c).run a = outcome a ((a.close c).map (.done, ·)) := by
  cases c with
  | script => rfl
  | closure t =>
    simp only [close, EStateM.run_bind, EStateM.run_get, run_ofExcept, Arena.close]
    cases a.closure? t <;> rfl

theorem run_perform (op : Op) (a : Arena) : (perform op).run a = outcome a (a.perform op) := by
  cases op with
  | literal | var | property | list | unary | binary => exact run_addTerm _ a
  | step name arguments =>
    rw [Arena.perform, addStep_eq]
    exact run_addInstruction (.step name arguments) a
  | statement t =>
    rw [Arena.perform, addStatement_eq]
    exact run_addInstruction (.statement t) a
  | closure name parameter => exact run_addInstruction (.closure name parameter [] false) a
  | append c i => exact run_append c i a
  | close c => exact run_close c a

end Edit

inductive Fault (a : Arena) (owner : Owner) (ids : List TermId) (k : Nat) : Error → Prop
  | unknown {id : TermId} (hk : ids[k]? = some id) (h : a.owner? (.term id) = none) :
      Fault a owner ids k (.unknown (.term id))
  | owned {id : TermId} {current : Owner} (hk : ids[k]? = some id)
      (h : a.owner? (.term id) = some (some current)) : Fault a owner ids k (.owned (.term id) current)
  | repeated {id : TermId} {j : Nat} (hk : ids[k]? = some id) (h : a.owner? (.term id) = some none) (hj : j < k)
      (hid : ids[j]? = some id) : Fault a owner ids k (.usedTwice id owner)

def FirstFault (a : Arena) (owner : Owner) (ids : List TermId) (start : Nat) (e : Error) : Prop :=
  ∃ k, start ≤ k ∧ Fault a owner ids k e ∧ ∀ j, start ≤ j → j < k → ∀ e', ¬ Fault a owner ids j e'

section Faults

variable {a : Arena} {owner : Owner} {ids before : List TermId} {id : TermId} {k : Nat} {e e' : Error}

theorem Fault.unique (h : Fault a owner ids k e) (h' : Fault a owner ids k e') : e = e' := by
  cases h <;> cases h' <;> simp_all

theorem Fault.category (hk : ids[k]? = some id) (h : Fault a owner ids k e) :
    (GraphQuery.Error.arena e).category = if a.owner? (.term id) = none then .structural else .ownership := by
  cases h with
  | unknown hk' h =>
    obtain rfl := Option.some.inj (hk.symm.trans hk')
    rw [if_pos h]
    rfl
  | owned hk' h | repeated hk' h =>
    obtain rfl := Option.some.inj (hk.symm.trans hk')
    rw [h]
    rfl

theorem Fault.firstFault (h : Fault a owner ids k e) : FirstFault a owner ids k e' ↔ e' = e := by
  constructor
  · rintro ⟨j, hj, hfault, hnone⟩
    rcases Nat.eq_or_lt_of_le hj with rfl | hlt
    · exact hfault.unique h
    · exact absurd h (hnone k le_rfl hlt e)
  · rintro rfl
    exact ⟨k, le_rfl, h, fun j hj hlt => absurd hj (by omega)⟩

theorem firstFault_succ (h : ∀ e', ¬ Fault a owner ids k e') :
    FirstFault a owner ids k e ↔ FirstFault a owner ids (k + 1) e := by
  constructor
  · rintro ⟨j, hj, hfault, hnone⟩
    have hne : k ≠ j := by
      rintro rfl
      exact h e hfault
    exact ⟨j, by omega, hfault, fun i hi => hnone i (by omega)⟩
  · rintro ⟨j, hj, hfault, hnone⟩
    refine ⟨j, by omega, hfault, fun i hi hlt => ?_⟩
    by_cases hik : i = k
    · exact hik ▸ h
    · exact hnone i (by omega) hlt

theorem claimable_eq_error :
    claimable a owner before ids = .error e ↔ FirstFault a owner (before ++ ids) before.length e := by
  induction ids generalizing before with
  | nil =>
    constructor
    · rintro ⟨⟩
    · rintro ⟨k, hk, hfault, -⟩
      have hnone : (before ++ [])[k]? = none := by simpa using hk
      cases hfault <;> simp_all
  | cons id ids ih =>
    have hhere : (before ++ id :: ids)[before.length]? = some id := by simp
    have hbefore : ∀ {j}, j < before.length → (before ++ id :: ids)[j]? = before[j]? :=
      fun hj => List.getElem?_append_left hj
    rw [claimable]
    cases hslot : a.term? id with
    | none =>
      have hfault : Fault a owner (before ++ id :: ids) before.length (.unknown (.term id)) :=
        .unknown hhere (by simp [owner?, hslot])
      rw [hfault.firstFault]
      simp [eq_comm]
    | some slot =>
      obtain ⟨node, _ | current⟩ := slot
      · have hfree : a.owner? (.term id) = some none := by simp [owner?, hslot]
        by_cases hmem : id ∈ before
        · obtain ⟨j, hget⟩ := List.mem_iff_getElem?.1 hmem
          have hj : j < before.length := (List.getElem?_eq_some_iff.1 hget).1
          have hfault : Fault a owner (before ++ id :: ids) before.length (.usedTwice id owner) :=
            .repeated hhere hfree hj ((hbefore hj).trans hget)
          rw [hfault.firstFault]
          simp [hmem, eq_comm]
        · have hsound : ∀ e', ¬ Fault a owner (before ++ id :: ids) before.length e' := by
            rintro _ (⟨hk, h⟩ | ⟨hk, h⟩ | ⟨hk, -, hj, hget⟩)
            · simp_all
            · simp_all
            · obtain rfl := Option.some.inj (hhere.symm.trans hk)
              rw [hbefore hj] at hget
              exact hmem (List.mem_of_getElem? hget)
          have hrest : claimable a owner (before ++ [id]) ids = .error e ↔
              FirstFault a owner (before ++ [id] ++ ids) (before ++ [id]).length e := ih
          rw [List.length_append, List.length_singleton, List.append_assoc, List.singleton_append] at hrest
          rw [firstFault_succ hsound, ← hrest]
          simp only [hmem, if_false]
      · have hfault : Fault a owner (before ++ id :: ids) before.length (.owned (.term id) current) :=
          .owned hhere (by simp [owner?, hslot])
        rw [hfault.firstFault]
        simp [eq_comm]

theorem claimable_eq_ok :
    claimable a owner [] ids = .ok () ↔ ids.Nodup ∧ ∀ id ∈ ids, a.owner? (.term id) = some none := by
  constructor
  · intro h
    obtain ⟨hnodup, hids⟩ := claimable_ok h
    refine ⟨hnodup, fun id hid => ?_⟩
    obtain ⟨-, slot, hslot, hfree⟩ := hids id hid
    simp [owner?, hslot, hfree]
  · rintro ⟨hnodup, hfree⟩
    exact claimable_of_loose hnodup hfree (by simp)

theorem claim_eq_error : a.claim ids owner = .error e ↔ FirstFault a owner ids 0 e := by
  have h : claimable a owner [] ids = .error e ↔ FirstFault a owner ids 0 e := claimable_eq_error
  rw [← h, claim, bind_eq_error]
  simp

theorem exists_claim_eq_error :
    (∃ e, a.claim ids owner = .error e) ↔ ¬ ids.Nodup ∨ ∃ id ∈ ids, a.owner? (.term id) ≠ some none := by
  have hfails : (∃ e, a.claim ids owner = .error e) ↔ claimable a owner [] ids ≠ .ok () := by
    rw [claim]
    cases claimable a owner [] ids <;> simp
  rw [hfails, Ne, claimable_eq_ok, not_and_or]
  push Not
  rfl

end Faults

inductive Content where
  | term (node : TermNode)
  | instruction (node : InstructionNode)

namespace Content

def operands : Content → List TermId
  | term node => node.operands
  | instruction node => node.arguments

def place (a : Arena) : Content → Node
  | term _ => .term a.nextTerm
  | instruction _ => .instruction a.nextInstruction

def owner (a : Arena) : Content → Owner
  | term _ => .term a.nextTerm
  | instruction _ => .instruction a.nextInstruction

end Content

def Op.content? : Op → Option Content
  | literal value => some (.term (.literal value))
  | var name => some (.term (.var name))
  | property target name => some (.term (.property target name))
  | list items => some (.term (.list items))
  | unary op operand => some (.term (.unary op operand))
  | binary op left right => some (.term (.binary op left right))
  | step name arguments => some (.instruction (.step name arguments))
  | statement term => some (.instruction (.statement term))
  | closure name parameter => some (.instruction (.closure name parameter [] false))
  | append .. => none
  | close _ => none

def slot? (a : Arena) : Node → Option (Slot Content)
  | .instruction id => (a.instruction? id).map (fun slot => ⟨.instruction slot.node, slot.owner⟩)
  | .term id => (a.term? id).map (fun slot => ⟨.term slot.node, slot.owner⟩)

def push (a : Arena) : Content → Arena
  | .term node => (a.pushTerm node).2
  | .instruction node => (a.pushInstruction node).2

structure Made (a : Arena) (content : Content) (a' : Arena) : Prop where
  fresh : a.slot? (content.place a) = none
  slot? : ∀ n, a'.slot? n =
    if n = content.place a then some ⟨content, none⟩
    else if n ∈ content.operands.map .term then
      (a.slot? n).map (fun slot => { slot with owner := some (content.owner a) })
    else a.slot? n
  root : a'.root = a.root
  rootSealed : a'.rootSealed = a.rootSealed

theorem Claimed.made {a b : Arena} {content : Content} (h : Claimed a content.operands (content.owner a) b) :
    Made a content (b.push content) := by
  cases content with
  | term node =>
    refine ⟨?_, fun n => ?_, h.root, h.rootSealed⟩
    · simp [Arena.slot?, Content.place, term?_nextTerm]
    · cases n with
      | instruction i =>
        have hi : (b.push (.term node)).instruction? i = a.instruction? i := h.instruction? i
        simp [Arena.slot?, Content.place, hi]
      | term t =>
        simp only [Arena.slot?, Content.place, push, term?_pushTerm, h.nextTerm, h.term? t, Node.term.injEq,
          List.mem_map, exists_eq_right]
        by_cases hn : t = a.nextTerm
        · simp [hn]
        · by_cases ht : t ∈ (Content.term node).operands
          · simp [hn, ht, Function.comp_def]
          · simp [hn, ht]
  | instruction node =>
    refine ⟨?_, fun n => ?_, h.root, h.rootSealed⟩
    · simp [Arena.slot?, Content.place, instruction?_nextInstruction]
    · cases n with
      | instruction i =>
        simp only [Arena.slot?, Content.place, push, instruction?_pushInstruction, h.nextInstruction,
          h.instruction?, Node.instruction.injEq]
        by_cases hn : i = a.nextInstruction <;> simp [hn]
      | term t =>
        have ht : (b.push (.instruction node)).term? t = b.term? t := rfl
        simp only [Arena.slot?, Content.place, ht, h.term? t, List.mem_map, Node.term.injEq, exists_eq_right]
        by_cases ht : t ∈ (Content.instruction node).operands
        · simp [ht, Function.comp_def]
        · simp [ht]

theorem perform_eq_of_content? {a : Arena} {op : Op} {content : Content} (h : op.content? = some content) :
    a.perform op = (a.claim content.operands (content.owner a)).map
      (fun b => (.node (content.place b), b.push content)) := by
  cases op with
  | step name arguments =>
    cases h
    rw [perform, addStep_eq]
    dsimp only [Content.operands, Content.owner, InstructionNode.arguments]
    cases a.claim arguments (.instruction a.nextInstruction) <;> rfl
  | statement t =>
    cases h
    rw [perform, addStatement_eq]
    dsimp only [Content.operands, Content.owner, InstructionNode.arguments]
    cases a.claim [t] (.instruction a.nextInstruction) <;> rfl
  | append c i => cases h
  | close c => cases h
  | closure name parameter => cases h; rfl
  | literal | var | property | list | unary | binary =>
    cases h
    rw [perform, addTerm]
    dsimp only [Content.operands, Content.owner]
    generalize a.claim _ _ = x
    cases x <;> rfl

/-- An operation in place replies as `perform` does and leaves the arena that `perform` gives, and if it fails it
leaves the arena as it was. One that makes a node fails if and only if an operand does not exist, has an owner or is
named twice, with the error of the first such operand. Otherwise the new node has no owner, it has become the owner of
its operands, and nothing else has changed. -/
theorem perform_atomic (a : Arena) (op : Op) :
    (∀ reply a', (Edit.perform op).run a = .ok reply a' ↔ a.perform op = .ok (reply, a')) ∧
    (∀ e a', (Edit.perform op).run a = .error e a' ↔ a.perform op = .error e ∧ a' = a) ∧
    ∀ content, op.content? = some content →
      ((∃ e, a.perform op = .error e) ↔
        ¬ content.operands.Nodup ∨ ∃ id ∈ content.operands, a.owner? (.term id) ≠ some none) ∧
      (∀ e, a.perform op = .error e ↔ FirstFault a (content.owner a) content.operands 0 e) ∧
      (∀ k id e, content.operands[k]? = some id → Fault a (content.owner a) content.operands k e →
        (GraphQuery.Error.arena e).category = if a.owner? (.term id) = none then .structural else .ownership) ∧
      ∀ reply a', a.perform op = .ok (reply, a') → reply = .node (content.place a) ∧ Made a content a' := by
  rw [Edit.run_perform]
  refine ⟨fun reply a' => Edit.outcome_eq_ok, fun e a' => Edit.outcome_eq_error, fun content hcontent => ?_⟩
  have hperform := perform_eq_of_content? (a := a) hcontent
  have herror : ∀ e, a.perform op = .error e ↔ a.claim content.operands (content.owner a) = .error e := by
    intro e
    rw [hperform, map_eq_error]
  refine ⟨?_, ?_, ?_, ?_⟩
  · simp only [herror, exists_claim_eq_error]
  · exact fun e => (herror e).trans claim_eq_error
  · exact fun k id e hk hfault => hfault.category hk
  · intro reply a' h
    rw [hperform] at h
    obtain ⟨b, hb, hmade⟩ := map_eq_ok.1 h
    cases hmade
    have hclaimed := claim_ok hb
    refine ⟨?_, hclaimed.made⟩
    cases content with
    | term node => rw [Content.place, hclaimed.nextTerm, Content.place]
    | instruction node => rw [Content.place, hclaimed.nextInstruction, Content.place]

theorem perform_atomic_twice : ∃ e, (afterAll [.var "x"]).perform (.list [⟨0⟩, ⟨0⟩]) = .error e ∧
    (Edit.perform (.list [⟨0⟩, ⟨0⟩])).run (afterAll [.var "x"]) = .error e (afterAll [.var "x"]) := by
  obtain ⟨-, hkept, hmade⟩ := perform_atomic (afterAll [.var "x"]) (.list [⟨0⟩, ⟨0⟩])
  obtain ⟨e, he⟩ := (hmade _ rfl).1.2 (.inl (by decide))
  exact ⟨e, he, (hkept e _).2 ⟨he, rfl⟩⟩

end GraphQuery.Arena
