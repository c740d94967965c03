import GraphQuery.Arena.Check
import GraphQuery.Proofs.Except
import Mathlib.Data.List.Nodup

namespace GraphQuery.Arena

def InstructionNode.arguments : InstructionNode → List TermId
  | step _ arguments => arguments
  | closure .. => []
  | statement term => [term]

def InstructionNode.body : InstructionNode → List InstructionId
  | closure _ _ body _ => body
  | _ => []

def held (a : Arena) : Owner → List Node
  | .container c =>
    match a.children c with
    | .ok body => body.map .instruction
    | .error _ => []
  | .instruction id => ((a.instruction? id).elim [] (·.node.arguments)).map .term
  | .term id => ((a.term? id).elim [] (·.node.operands)).map .term

def Owner.node? : Owner → Option Node
  | container .script => none
  | container (.closure id) => some (.instruction id)
  | instruction id => some (.instruction id)
  | term id => some (.term id)

theorem held_script (a : Arena) : a.held (.container .script) = a.root.map .instruction := rfl

theorem held_closure (a : Arena) (id : InstructionId) :
    a.held (.container (.closure id)) = ((a.instruction? id).elim [] (·.node.body)).map .instruction := by
  simp only [held, children, closure?]
  rcases a.instruction? id with _ | ⟨_ | _ | _, _⟩ <;> rfl

theorem held_instruction (a : Arena) (id : InstructionId) :
    a.held (.instruction id) = ((a.instruction? id).elim [] (·.node.arguments)).map .term := rfl

theorem held_term (a : Arena) (id : TermId) :
    a.held (.term id) = ((a.term? id).elim [] (·.node.operands)).map .term := rfl

theorem closure?_ok {a : Arena} {id : InstructionId} {body : List InstructionId} {isSealed : Bool}
    (h : a.closure? id = .ok (body, isSealed)) :
    ∃ name parameter owner, a.instruction? id = some ⟨.closure name parameter body isSealed, owner⟩ := by
  rw [closure?] at h
  split at h
  · cases h
  · rename_i slot hslot
    obtain ⟨node, owner⟩ := slot
    cases node with
    | closure name parameter body' isSealed' =>
      cases h
      exact ⟨name, parameter, owner, hslot⟩
    | step | statement => cases h

section Lookups

variable (a : Arena)

theorem term?_setTermOwner (o : Owner) (id x : TermId) :
    (a.setTermOwner o id).term? x =
      if x = id then (a.term? x).map (fun slot => { slot with owner := some o }) else a.term? x := by
  simp only [term?, setTermOwner, Array.getElem?_modify]
  have : id.index = x.index ↔ x = id := by cases id; cases x; simp [eq_comm]
  simp only [this]

theorem term?_pushTerm (node : TermNode) (x : TermId) :
    (a.pushTerm node).2.term? x = if x = a.nextTerm then some ⟨node, none⟩ else a.term? x := by
  have : x.index = a.terms.size ↔ x = a.nextTerm := by cases x; simp [nextTerm]
  simp only [term?, pushTerm, Array.getElem?_push, this]

theorem instruction?_pushInstruction (node : InstructionNode) (x : InstructionId) :
    (a.pushInstruction node).2.instruction? x =
      if x = a.nextInstruction then some ⟨node, none⟩ else a.instruction? x := by
  have : x.index = a.instructions.size ↔ x = a.nextInstruction := by cases x; simp [nextInstruction]
  simp only [instruction?, pushInstruction, Array.getElem?_push, this]

theorem instruction?_modifyInstruction (id x : InstructionId)
    (f : Slot InstructionNode → Slot InstructionNode) :
    (a.modifyInstruction id f).instruction? x =
      if x = id then (a.instruction? x).map f else a.instruction? x := by
  simp only [instruction?, modifyInstruction, Array.getElem?_modify]
  have : id.index = x.index ↔ x = id := by cases id; cases x; simp [eq_comm]
  simp only [this]

theorem term?_nextTerm : a.term? a.nextTerm = none := by
  simp [term?, nextTerm]

theorem instruction?_nextInstruction : a.instruction? a.nextInstruction = none := by
  simp [instruction?, nextInstruction]

end Lookups

theorem claimable_ok {a : Arena} {o : Owner} {ids before : List TermId}
    (h : claimable a o before ids = .ok ()) :
    ids.Nodup ∧ ∀ id ∈ ids, id ∉ before ∧ ∃ slot, a.term? id = some slot ∧ slot.owner = none := by
  induction ids generalizing before with
  | nil => simp
  | cons id ids ih =>
    simp only [claimable] at h
    split at h
    · cases h
    · rename_i slot hslot
      split at h
      · cases h
      · rename_i hfree
        split at h
        · cases h
        · rename_i hbefore
          obtain ⟨hnodup, hids⟩ := ih h
          refine ⟨List.nodup_cons.2 ⟨fun hmem => ?_, hnodup⟩, fun x hx => ?_⟩
          · exact (hids id hmem).1 (by simp)
          · rcases List.mem_cons.1 hx with rfl | hx
            · exact ⟨hbefore, slot, hslot, hfree⟩
            · obtain ⟨hx', hslot'⟩ := hids x hx
              exact ⟨fun hb => hx' (List.mem_append_left _ hb), hslot'⟩

theorem foldl_setTermOwner (o : Owner) (ids : List TermId) (a : Arena) :
    (ids.foldl (fun a id => a.setTermOwner o id) a).instructions = a.instructions ∧
      (ids.foldl (fun a id => a.setTermOwner o id) a).root = a.root ∧
      (ids.foldl (fun a id => a.setTermOwner o id) a).rootSealed = a.rootSealed ∧
      (ids.foldl (fun a id => a.setTermOwner o id) a).terms.size = a.terms.size ∧
      ∀ x, (ids.foldl (fun a id => a.setTermOwner o id) a).term? x =
        if x ∈ ids then (a.term? x).map (fun slot => { slot with owner := some o }) else a.term? x := by
  induction ids generalizing a with
  | nil => simp
  | cons id ids ih =>
    obtain ⟨hi, hr, hb, hs, ht⟩ := ih (a.setTermOwner o id)
    simp only [List.foldl_cons]
    refine ⟨hi, hr, hb, hs.trans (by simp [setTermOwner]), fun x => ?_⟩
    rw [ht x, term?_setTermOwner]
    by_cases hx : x = id
    · subst hx
      by_cases hm : x ∈ ids
      · simp [hm, Function.comp_def]
      · simp [hm]
    · simp [hx]

structure Claimed (a : Arena) (ids : List TermId) (o : Owner) (a' : Arena) : Prop where
  nodup : ids.Nodup
  free : ∀ id ∈ ids, ∃ slot, a.term? id = some slot ∧ slot.owner = none
  instructions : a'.instructions = a.instructions
  root : a'.root = a.root
  rootSealed : a'.rootSealed = a.rootSealed
  size : a'.terms.size = a.terms.size
  term? : ∀ x, a'.term? x =
    if x ∈ ids then (a.term? x).map (fun slot => { slot with owner := some o }) else a.term? x

theorem claim_ok {a a' : Arena} {ids : List TermId} {o : Owner} (h : a.claim ids o = .ok a') :
    Claimed a ids o a' := by
  rw [claim] at h
  obtain ⟨⟨⟩, hc, ha⟩ := bind_eq_ok.1 h
  cases ha
  obtain ⟨hnodup, hids⟩ := claimable_ok hc
  obtain ⟨hi, hr, hb, hs, ht⟩ := foldl_setTermOwner o ids a
  exact ⟨hnodup, fun id hid => (hids id hid).2, hi, hr, hb, hs, ht⟩

structure Grown (a : Arena) (n : Node) (o : Owner) (below : List Node) (a' : Arena) : Prop where
  part : o.node? = some n
  fresh : a.owner? n = none
  unlisted : a.held o = []
  nodup : below.Nodup
  free : ∀ k ∈ below, a.owner? k = some none
  owner? : ∀ x, a'.owner? x = if x = n then some none else if x ∈ below then some (some o) else a.owner? x
  held : ∀ p, a'.held p = if p = o then below else a.held p

structure Hung (a : Arena) (c : Container) (i : InstructionId) (a' : Arena) : Prop where
  free : a.owner? (.instruction i) = some none
  apart : ∀ t, c = .closure t → a.isWithin t i = false
  owner? : ∀ x, a'.owner? x = if x = .instruction i then some (some (.container c)) else a.owner? x
  held : ∀ p, a'.held p = if p = .container c then a.held p ++ [.instruction i] else a.held p

namespace Claimed

variable {a b : Arena} {ids : List TermId} {o : Owner}

theorem none (a : Arena) (o : Owner) : Claimed a [] o a :=
  ⟨List.nodup_nil, by simp, rfl, rfl, rfl, rfl, by simp⟩

theorem nextTerm (h : Claimed a ids o b) : b.nextTerm = a.nextTerm := by
  simp [Arena.nextTerm, h.size]

theorem nextInstruction (h : Claimed a ids o b) : b.nextInstruction = a.nextInstruction := by
  simp [Arena.nextInstruction, h.instructions]

theorem instruction? (h : Claimed a ids o b) (x : InstructionId) : b.instruction? x = a.instruction? x := by
  simp [Arena.instruction?, h.instructions]

theorem owner?_term (h : Claimed a ids o b) (x : TermId) :
    b.owner? (.term x) = if x ∈ ids then some (some o) else a.owner? (.term x) := by
  simp only [Arena.owner?, h.term? x]
  split
  · rename_i hx
    obtain ⟨slot, hslot, -⟩ := h.free x hx
    simp [hslot]
  · rfl

theorem operands (h : Claimed a ids o b) (x : TermId) :
    (b.term? x).elim [] (·.node.operands) = (a.term? x).elim [] (·.node.operands) := by
  rw [h.term? x]
  split
  · cases a.term? x <;> rfl
  · rfl

theorem free_nodes (h : Claimed a ids o b) : ∀ k ∈ ids.map Node.term, a.owner? k = some Option.none := by
  intro k hk
  obtain ⟨id, hid, rfl⟩ := List.mem_map.1 hk
  obtain ⟨slot, hslot, hfree⟩ := h.free id hid
  simp [Arena.owner?, hslot, hfree]

theorem nodup_nodes (h : Claimed a ids o b) : (ids.map Node.term).Nodup :=
  h.nodup.map (fun _ _ he => Node.term.inj he)

theorem pushTerm {node : TermNode} (h : Claimed a node.operands (.term a.nextTerm) b) :
    Grown a (.term a.nextTerm) (.term a.nextTerm) (node.operands.map .term) (b.pushTerm node).2 where
  part := rfl
  fresh := by simp [Arena.owner?, term?_nextTerm]
  unlisted := by simp [Arena.held, term?_nextTerm]
  nodup := h.nodup_nodes
  free := h.free_nodes
  owner? x := by
    cases x with
    | instruction i =>
      have : (b.pushTerm node).2.instruction? i = a.instruction? i := h.instruction? i
      simp [Arena.owner?, this]
    | term t =>
      have ht := h.owner?_term t
      simp only [Arena.owner?] at ht
      simp only [Arena.owner?, term?_pushTerm, h.nextTerm, Node.term.injEq, List.mem_map, exists_eq_right]
      by_cases hn : t = a.nextTerm
      · simp [hn]
      · simp only [hn, if_false, ht]
  held p := by
    rcases p with (_ | i) | i | t
    · simp [held_script, Arena.pushTerm, h.root]
    · have : (b.pushTerm node).2.instruction? i = a.instruction? i := h.instruction? i
      simp [held_closure, this]
    · have : (b.pushTerm node).2.instruction? i = a.instruction? i := h.instruction? i
      simp [Arena.held, this]
    · simp only [Arena.held, term?_pushTerm, h.nextTerm, Owner.term.injEq]
      by_cases hn : t = a.nextTerm
      · simp [hn]
      · simp only [hn, if_false, h.operands t]

theorem pushInstruction (node : InstructionNode)
    (h : Claimed a node.arguments (.instruction a.nextInstruction) b) (hbody : node.body = []) :
    Grown a (.instruction a.nextInstruction) (.instruction a.nextInstruction) (node.arguments.map .term)
      (b.pushInstruction node).2 where
  part := rfl
  fresh := by simp [Arena.owner?, instruction?_nextInstruction]
  unlisted := by simp [Arena.held, instruction?_nextInstruction]
  nodup := h.nodup_nodes
  free := h.free_nodes
  owner? x := by
    cases x with
    | instruction i =>
      simp only [Arena.owner?, instruction?_pushInstruction, h.nextInstruction, h.instruction?,
        Node.instruction.injEq]
      by_cases hn : i = a.nextInstruction <;> simp [hn]
    | term t =>
      have : (b.pushInstruction node).2.owner? (.term t) = b.owner? (.term t) := rfl
      simp [this, h.owner?_term t]
  held p := by
    rcases p with (_ | i) | i | t
    · simp [held_script, Arena.pushInstruction, h.root]
    · simp only [held_closure, instruction?_pushInstruction, h.nextInstruction, h.instruction?]
      by_cases hn : i = a.nextInstruction
      · simp [hn, hbody, instruction?_nextInstruction]
      · simp [hn]
    · simp only [Arena.held, instruction?_pushInstruction, h.nextInstruction, h.instruction?,
        Owner.instruction.injEq]
      by_cases hn : i = a.nextInstruction <;> simp [hn]
    · have : (b.pushInstruction node).2.term? t = b.term? t := rfl
      simp [Arena.held, this, h.operands t]

end Claimed

theorem addTerm_grown {a a' : Arena} {node : TermNode} {id : TermId} (h : a.addTerm node = .ok (id, a')) :
    Grown a (.term id) (.term id) (node.operands.map .term) a' := by
  rw [addTerm] at h
  obtain ⟨b, hc, hmade⟩ := bind_eq_ok.1 h
  have hb := claim_ok hc
  have hid : a.nextTerm = id := hb.nextTerm.symm.trans (congrArg Prod.fst (Except.ok.inj hmade))
  have ha : (b.pushTerm node).2 = a' := congrArg Prod.snd (Except.ok.inj hmade)
  rw [← ha, ← hid]
  exact hb.pushTerm

theorem addInstruction_grown {a a' : Arena} {id : InstructionId} (node : InstructionNode)
    (hbody : node.body = [])
    (h : (a.claim node.arguments (.instruction a.nextInstruction)).map (·.pushInstruction node) =
      .ok (id, a')) :
    Grown a (.instruction id) (.instruction id) (node.arguments.map .term) a' := by
  obtain ⟨b, hc, hmade⟩ := map_eq_ok.1 h
  have hb := claim_ok hc
  have hid : a.nextInstruction = id := hb.nextInstruction.symm.trans (congrArg Prod.fst hmade)
  have ha : (b.pushInstruction node).2 = a' := congrArg Prod.snd hmade
  rw [← ha, ← hid]
  exact hb.pushInstruction node hbody

theorem addStep_eq (a : Arena) (name : String) (arguments : List TermId) :
    a.addStep name arguments =
      (a.claim arguments (.instruction a.nextInstruction)).map
        (·.pushInstruction (.step name arguments)) := by
  rw [addStep]
  cases a.claim arguments (.instruction a.nextInstruction) <;> rfl

theorem addStatement_eq (a : Arena) (t : TermId) :
    a.addStatement t =
      (a.claim [t] (.instruction a.nextInstruction)).map (·.pushInstruction (.statement t)) := by
  rw [addStatement]
  cases a.claim [t] (.instruction a.nextInstruction) <;> rfl

theorem addStep_grown {a a' : Arena} {name : String} {arguments : List TermId} {id : InstructionId}
    (h : a.addStep name arguments = .ok (id, a')) :
    Grown a (.instruction id) (.instruction id) (arguments.map .term) a' :=
  addInstruction_grown (.step name arguments) rfl ((addStep_eq ..).symm.trans h)

theorem addStatement_grown {a a' : Arena} {t : TermId} {id : InstructionId}
    (h : a.addStatement t = .ok (id, a')) :
    Grown a (.instruction id) (.instruction id) [.term t] a' :=
  addInstruction_grown (.statement t) rfl ((addStatement_eq ..).symm.trans h)

theorem addClosure_grown (a : Arena) (name : String) (parameter : Option String) :
    Grown a (.instruction (a.addClosure name parameter).1) (.instruction (a.addClosure name parameter).1) []
      (a.addClosure name parameter).2 :=
  (Claimed.none a _).pushInstruction (.closure name parameter [] false) rfl

section Modify

variable (a : Arena) (i : InstructionId) {f : Slot InstructionNode → Slot InstructionNode}

theorem owner?_modifyInstruction (hf : ∀ slot, (f slot).owner = slot.owner) (x : Node) :
    (a.modifyInstruction i f).owner? x = a.owner? x := by
  cases x with
  | instruction j =>
    simp only [owner?, instruction?_modifyInstruction]
    split
    · cases a.instruction? j <;> simp [hf]
    · rfl
  | term t => rfl

theorem held_modifyInstruction (hbody : ∀ slot, (f slot).node.body = slot.node.body)
    (harguments : ∀ slot, (f slot).node.arguments = slot.node.arguments) (p : Owner) :
    (a.modifyInstruction i f).held p = a.held p := by
  rcases p with (_ | j) | j | t
  · rfl
  · simp only [held_closure, instruction?_modifyInstruction]
    split
    · cases a.instruction? j <;> simp [hbody]
    · rfl
  · simp only [held, instruction?_modifyInstruction]
    split
    · cases a.instruction? j <;> simp [harguments]
    · rfl
  · rfl

theorem owner?_setOwner (o : Owner) (h : a.owner? (.instruction i) = some none) (x : Node) :
    (a.modifyInstruction i (fun slot => { slot with owner := some o })).owner? x =
      if x = .instruction i then some (some o) else a.owner? x := by
  cases x with
  | instruction j =>
    simp only [owner?, instruction?_modifyInstruction, Node.instruction.injEq]
    split
    · rename_i hj
      subst hj
      simp only [owner?] at h
      cases hs : a.instruction? j with
      | none => simp [hs] at h
      | some slot => rfl
    · rfl
  | term t => simp [owner?, term?, modifyInstruction]

theorem held_setOwner (o : Option Owner) (p : Owner) :
    (a.modifyInstruction i (fun slot => { slot with owner := o })).held p = a.held p := by
  apply held_modifyInstruction <;> exact fun _ => rfl

end Modify

theorem owner?_pushChild (a : Arena) (c : Container) (i : InstructionId) (x : Node) :
    (a.pushChild c i).owner? x = a.owner? x := by
  cases c with
  | script => cases x <;> rfl
  | closure t =>
    apply owner?_modifyInstruction
    intro slot
    split <;> rfl

theorem held_pushChild {a : Arena} {c : Container} (i : InstructionId)
    (hc : ∃ body, a.children c = .ok body) (p : Owner) :
    (a.pushChild c i).held p = if p = .container c then a.held p ++ [.instruction i] else a.held p := by
  obtain ⟨body, hc⟩ := hc
  cases c with
  | script =>
    rcases p with (_ | j) | j | t
    · simp [pushChild, held_script]
    all_goals rfl
  | closure t =>
    obtain ⟨⟨_, isSealed⟩, hb, rfl⟩ := map_eq_ok.1 hc
    obtain ⟨name, parameter, owner, ht⟩ := closure?_ok hb
    rcases p with (_ | j) | j | t'
    · rfl
    · simp only [pushChild, held_closure, instruction?_modifyInstruction, Owner.container.injEq,
        Container.closure.injEq]
      by_cases hj : j = t
      · simp [hj, ht, InstructionNode.body]
      · simp [hj]
    · simp only [pushChild, held, instruction?_modifyInstruction, reduceCtorEq, if_false]
      by_cases hj : j = t
      · simp [hj, ht, InstructionNode.arguments]
      · simp [hj]
    · rfl

theorem isSealed_children {a : Arena} {c : Container} {b : Bool} (h : a.isSealed c = .ok b) :
    ∃ body, a.children c = .ok body := by
  cases c with
  | script => exact ⟨_, rfl⟩
  | closure t =>
    obtain ⟨x, hx, -⟩ := map_eq_ok.1 h
    exact ⟨x.1, map_eq_ok.2 ⟨x, hx, rfl⟩⟩

theorem children_setOwner (a : Arena) (i : InstructionId) (o : Option Owner) (c : Container) :
    (a.modifyInstruction i (fun slot => { slot with owner := o })).children c = a.children c := by
  cases c with
  | script => rfl
  | closure t =>
    simp only [children, closure?, instruction?_modifyInstruction]
    by_cases ht : t = i
    · simp only [ht, if_true]
      cases a.instruction? i <;> rfl
    · simp only [ht, if_false]

theorem append_hung {a a' : Arena} {c : Container} {i : InstructionId} (h : a.append c i = .ok a') :
    Hung a c i a' := by
  unfold append at h
  split at h
  · cases h
  · rename_i slot hslot
    split at h
    · cases h
    · rename_i hfree
      have hfree' : a.owner? (.instruction i) = some none := by simp [owner?, hslot, hfree]
      split at h
      · cases h
      · cases h
      · rename_i hopen
        obtain ⟨body, hbody⟩ := isSealed_children hopen
        have hdone : (∀ t, c = .closure t → a.isWithin t i = false) ∧
            (a.modifyInstruction i (fun slot => { slot with owner := some (.container c) })).pushChild c i =
              a' := by
          cases c with
          | script => exact ⟨by simp, Except.ok.inj h⟩
          | closure t =>
            by_cases hw : a.isWithin t i = true
            · simp [hw] at h
            · simp only [hw, Bool.false_eq_true, if_false, Except.ok.injEq] at h
              exact ⟨by rintro _ ⟨⟩; simpa using hw, h⟩
        obtain ⟨hcycle, rfl⟩ := hdone
        refine ⟨hfree', hcycle, fun x => ?_, fun p => ?_⟩
        · rw [owner?_pushChild, owner?_setOwner a i _ hfree']
        · rw [held_pushChild i ⟨body, (children_setOwner ..).trans hbody⟩, held_setOwner]

theorem close_same {a a' : Arena} {c : Container} (h : a.close c = .ok a') :
    (∀ x, a'.owner? x = a.owner? x) ∧ ∀ p, a'.held p = a.held p := by
  cases c with
  | script =>
    cases h
    refine ⟨fun x => ?_, fun p => ?_⟩
    · cases x <;> rfl
    · rcases p with (_ | _) | _ | _ <;> rfl
  | closure t =>
    obtain ⟨x, -, ha⟩ := bind_eq_ok.1 h
    cases ha
    refine ⟨owner?_modifyInstruction a t fun slot => ?_, held_modifyInstruction a t (fun slot => ?_)
      (fun slot => ?_)⟩
    all_goals rcases slot with ⟨_ | _ | _, _⟩ <;> rfl

inductive Change (a a' : Arena) : Prop
  | grown {n : Node} {o : Owner} {below : List Node} (h : Grown a n o below a')
  | hung {c : Container} {i : InstructionId} (h : Hung a c i a')
  | same (owner? : ∀ x, a'.owner? x = a.owner? x) (held : ∀ p, a'.held p = a.held p)

theorem change_of_addTerm {a a' : Arena} {reply : Reply} (node : TermNode)
    (h : (a.addTerm node).map replyTerm = .ok (reply, a')) : Change a a' := by
  obtain ⟨made, hmade, hreply⟩ := map_eq_ok.1 h
  cases hreply
  exact .grown (addTerm_grown hmade)

theorem perform_change {a a' : Arena} {op : Op} {reply : Reply} (h : a.perform op = .ok (reply, a')) :
    Change a a' := by
  cases op with
  | literal value => exact change_of_addTerm (.literal value) h
  | var name => exact change_of_addTerm (.var name) h
  | property target name => exact change_of_addTerm (.property target name) h
  | list items => exact change_of_addTerm (.list items) h
  | unary op operand => exact change_of_addTerm (.unary op operand) h
  | binary op left right => exact change_of_addTerm (.binary op left right) h
  | step name arguments =>
    obtain ⟨made, hmade, hreply⟩ := map_eq_ok.1 h
    cases hreply
    exact .grown (addStep_grown hmade)
  | statement t =>
    obtain ⟨made, hmade, hreply⟩ := map_eq_ok.1 h
    cases hreply
    exact .grown (addStatement_grown hmade)
  | closure name parameter =>
    cases h
    exact .grown (addClosure_grown a name parameter)
  | append c i =>
    obtain ⟨b, hb, hreply⟩ := map_eq_ok.1 h
    cases hreply
    exact .hung (append_hung hb)
  | close c =>
    obtain ⟨b, hb, hreply⟩ := map_eq_ok.1 h
    cases hreply
    obtain ⟨howner, hheld⟩ := close_same hb
    exact .same howner hheld

theorem after_change (a : Arena) (op : Op) : Change a (a.after op) := by
  rw [after]
  split
  · exact perform_change ‹_›
  · exact .same (fun _ => rfl) (fun _ => rfl)

end GraphQuery.Arena
