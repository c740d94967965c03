import GraphQuery.Proofs.Arena.Building

namespace GraphQuery.Arena

variable {a a' a'' : Arena}

def InstructionNode.outline : InstructionNode → InstructionNode
  | closure name parameter _ _ => closure name parameter [] false
  | node => node

structure AppendOnly (a a' : Arena) : Prop where
  terms : KeepsTerms a a'
  instructions : ∀ ⦃id node⦄, a.instructionNode? id = some node →
    (a'.instructionNode? id).map .outline = some node.outline
  owners : ∀ ⦃n o⦄, a.owner? n = some (some o) → a'.owner? n = some (some o)
  children : ∀ ⦃c body⦄, a.children c = .ok body → ∃ body', a'.children c = .ok body' ∧ body <+: body'
  seals : ∀ ⦃c⦄, a.isSealed c = .ok true → a'.isSealed c = .ok true ∧ a'.children c = a.children c

namespace AppendOnly

theorem refl (a : Arena) : AppendOnly a a where
  terms _ _ h := h
  instructions _ _ h := by rw [h, Option.map_some]
  owners _ _ h := h
  children _ body h := ⟨body, h, List.prefix_rfl⟩
  seals _ h := ⟨h, rfl⟩

theorem trans (h : AppendOnly a a') (h' : AppendOnly a' a'') : AppendOnly a a'' where
  terms _ _ hn := h'.terms (h.terms hn)
  instructions id node hn := by
    obtain ⟨node', hn', heq⟩ := Option.map_eq_some_iff.1 (h.instructions hn)
    rw [← heq]
    exact h'.instructions hn'
  owners _ _ ho := h'.owners (h.owners ho)
  children c body hc := by
    obtain ⟨body', hc', hle⟩ := h.children hc
    obtain ⟨body'', hc'', hle'⟩ := h'.children hc'
    exact ⟨body'', hc'', hle.trans hle'⟩
  seals c hs := by
    obtain ⟨hs', hc⟩ := h.seals hs
    obtain ⟨hs'', hc'⟩ := h'.seals hs'
    exact ⟨hs'', hc'.trans hc⟩

theorem owner?_eq_none (h : AppendOnly a a') {n : Node} (hn : a'.owner? n = none) : a.owner? n = none := by
  by_contra hne
  obtain ⟨owner, howner⟩ := Option.ne_none_iff_exists'.1 hne
  cases n with
  | instruction id =>
    obtain ⟨slot, hslot, -⟩ := Option.map_eq_some_iff.1 howner
    have hnode : a.instructionNode? id = some slot.node := by rw [instructionNode?, hslot, Option.map_some]
    have hkept := h.instructions hnode
    rw [instructionNode?, Option.map_eq_none_iff.1 hn] at hkept
    cases hkept
  | term id =>
    obtain ⟨slot, hslot, -⟩ := Option.map_eq_some_iff.1 howner
    have hnode : a.termNode? id = some slot.node := by rw [termNode?, hslot, Option.map_some]
    have hkept := h.terms hnode
    rw [termNode?, Option.map_eq_none_iff.1 hn] at hkept
    cases hkept

end AppendOnly

def contents (a : Arena) : Container → Except Error (List InstructionId × Bool)
  | .script => .ok (a.root, a.rootSealed)
  | .closure id => a.closure? id

theorem children_eq (a : Arena) (c : Container) : a.children c = (a.contents c).map (·.1) := by
  cases c <;> rfl

theorem isSealed_eq (a : Arena) (c : Container) : a.isSealed c = (a.contents c).map (·.2) := by
  cases c <;> rfl

theorem closure?_eq_ok {id : InstructionId} {body : List InstructionId} {isSealed : Bool} :
    a.closure? id = .ok (body, isSealed) ↔
      ∃ name parameter, a.instructionNode? id = some (.closure name parameter body isSealed) := by
  constructor
  · intro h
    obtain ⟨name, parameter, owner, hslot⟩ := closure?_ok h
    exact ⟨name, parameter, by simp [instructionNode?, hslot]⟩
  · rintro ⟨name, parameter, h⟩
    obtain ⟨slot, hslot, hnode⟩ := Option.map_eq_some_iff.1 h
    simp [closure?, hslot, hnode]

structure Lengthens (old new : List InstructionId × Bool) : Prop where
  longer : old.1 <+: new.1
  final : old.2 = true → new = old

theorem Lengthens.refl (old : List InstructionId × Bool) : Lengthens old old :=
  ⟨List.prefix_rfl, fun _ => rfl⟩

theorem lengthens_push (body : List InstructionId) (id : InstructionId) :
    Lengthens (body, false) (body ++ [id], false) :=
  ⟨List.prefix_append body [id], by simp⟩

theorem lengthens_seal (body : List InstructionId) (isSealed : Bool) : Lengthens (body, isSealed) (body, true) := by
  refine ⟨List.prefix_rfl, ?_⟩
  rintro rfl
  rfl

theorem appendOnly_of_contents (hterms : KeepsTerms a a')
    (hnodes : ∀ ⦃id node⦄, a.instructionNode? id = some node →
      (a'.instructionNode? id).map .outline = some node.outline)
    (howners : ∀ ⦃n o⦄, a.owner? n = some (some o) → a'.owner? n = some (some o))
    (hcontents : ∀ ⦃c old⦄, a.contents c = .ok old → ∃ new, a'.contents c = .ok new ∧ Lengthens old new) :
    AppendOnly a a' := by
  refine ⟨hterms, hnodes, howners, ?_, ?_⟩
  · intro c body hc
    rw [children_eq] at hc
    obtain ⟨old, hold, rfl⟩ := map_eq_ok.1 hc
    obtain ⟨new, hnew, hle⟩ := hcontents hold
    exact ⟨new.1, by rw [children_eq, hnew, map_ok], hle.longer⟩
  · intro c hs
    rw [isSealed_eq] at hs
    obtain ⟨old, hold, hs⟩ := map_eq_ok.1 hs
    obtain ⟨new, hnew, hle⟩ := hcontents hold
    obtain rfl := hle.final hs
    rw [isSealed_eq, children_eq, children_eq, hnew, hold, map_ok, hs]
    exact ⟨rfl, rfl⟩

theorem appendOnly_of_same (hterms : KeepsTerms a a')
    (howners : ∀ ⦃n o⦄, a.owner? n = some (some o) → a'.owner? n = some (some o))
    (hnodes : ∀ ⦃id node⦄, a.instructionNode? id = some node → a'.instructionNode? id = some node)
    (hroot : a'.root = a.root) (hsealed : a'.rootSealed = a.rootSealed) : AppendOnly a a' := by
  apply appendOnly_of_contents hterms _ howners
  · intro c old hold
    refine ⟨old, ?_, .refl old⟩
    cases c with
    | script => rwa [contents, hroot, hsealed]
    | closure id =>
      obtain ⟨name, parameter, hnode⟩ := closure?_eq_ok.1 hold
      exact closure?_eq_ok.2 ⟨name, parameter, hnodes hnode⟩
  · intro id node hnode
    rw [hnodes hnode, Option.map_some]

theorem appendOnly_of_root (new : List InstructionId × Bool) (hle : Lengthens (a.root, a.rootSealed) new) :
    AppendOnly a { a with root := new.1, rootSealed := new.2 } := by
  apply appendOnly_of_contents
  · exact fun _ _ hnode => hnode
  · intro id node hnode
    exact congrArg (Option.map InstructionNode.outline) hnode
  · intro n o ho
    cases n <;> exact ho
  · intro c old hold
    cases c with
    | script =>
      obtain rfl := Except.ok.inj hold
      exact ⟨new, rfl, hle⟩
    | closure id => exact ⟨old, hold, .refl old⟩

theorem appendOnly_of_closure (old new : List InstructionId × Bool) {t : InstructionId} {name : String}
    {parameter : Option String} (ht : a.instructionNode? t = some (.closure name parameter old.1 old.2))
    (hterms : KeepsTerms a a') (howners : ∀ ⦃n o⦄, a.owner? n = some (some o) → a'.owner? n = some (some o))
    (hnodes : ∀ id, a'.instructionNode? id =
      if id = t then some (.closure name parameter new.1 new.2) else a.instructionNode? id)
    (hroot : a'.root = a.root) (hsealed : a'.rootSealed = a.rootSealed) (hle : Lengthens old new) :
    AppendOnly a a' := by
  apply appendOnly_of_contents hterms _ howners
  · intro c found hfound
    cases c with
    | script =>
      refine ⟨found, ?_, .refl found⟩
      rwa [contents, hroot, hsealed]
    | closure id =>
      obtain ⟨name', parameter', hnode⟩ := closure?_eq_ok.1 hfound
      by_cases hid : id = t
      · subst hid
        obtain ⟨-, -, hbody, hseal⟩ := InstructionNode.closure.inj (Option.some.inj (hnode.symm.trans ht))
        obtain rfl : found = old := Prod.ext hbody hseal
        refine ⟨new, closure?_eq_ok.2 ⟨name, parameter, ?_⟩, hle⟩
        rw [hnodes, if_pos rfl]
      · refine ⟨found, closure?_eq_ok.2 ⟨name', parameter', ?_⟩, .refl found⟩
        rw [hnodes, if_neg hid, hnode]
  · intro id node hnode
    rw [hnodes]
    by_cases hid : id = t
    · subst hid
      obtain rfl := Option.some.inj (hnode.symm.trans ht)
      rw [if_pos rfl]
      rfl
    · rw [if_neg hid, hnode, Option.map_some]

section Steps

variable {ids : List TermId} {o : Owner} {b : Arena}

theorem Claimed.appendOnly (h : Claimed a ids o b) : AppendOnly a b := by
  apply appendOnly_of_same
  · intro id node hnode
    rw [h.termNode?, hnode]
  · intro n p hp
    cases n with
    | instruction id => rwa [Arena.owner?, h.instruction?]
    | term id =>
      rw [h.owner?_term]
      by_cases hid : id ∈ ids
      · obtain ⟨slot, hslot, hfree⟩ := h.free id hid
        simp [Arena.owner?, hslot, hfree] at hp
      · rw [if_neg hid, hp]
  · intro id node hnode
    rwa [instructionNode?, h.instruction?]
  · exact h.root
  · exact h.rootSealed

theorem appendOnly_pushTerm (a : Arena) (node : TermNode) : AppendOnly a (a.pushTerm node).2 := by
  have hterm : ∀ id slot, a.term? id = some slot → (a.pushTerm node).2.term? id = some slot := by
    intro id slot hslot
    have hne : id ≠ a.nextTerm := by
      rintro rfl
      simp [term?_nextTerm] at hslot
    rw [term?_pushTerm, if_neg hne, hslot]
  apply appendOnly_of_same
  · intro id found hfound
    obtain ⟨slot, hslot, rfl⟩ := Option.map_eq_some_iff.1 hfound
    rw [termNode?, hterm id slot hslot, Option.map_some]
  · intro n p hp
    cases n with
    | instruction id => exact hp
    | term id =>
      obtain ⟨slot, hslot, hp⟩ := Option.map_eq_some_iff.1 hp
      rw [owner?, hterm id slot hslot, Option.map_some, hp]
  · exact fun _ _ hnode => hnode
  · rfl
  · rfl

theorem appendOnly_pushInstruction (a : Arena) (node : InstructionNode) :
    AppendOnly a (a.pushInstruction node).2 := by
  have hinstruction : ∀ id slot, a.instruction? id = some slot →
      (a.pushInstruction node).2.instruction? id = some slot := by
    intro id slot hslot
    have hne : id ≠ a.nextInstruction := by
      rintro rfl
      simp [instruction?_nextInstruction] at hslot
    rw [instruction?_pushInstruction, if_neg hne, hslot]
  apply appendOnly_of_same
  · exact fun _ _ hnode => hnode
  · intro n p hp
    cases n with
    | instruction id =>
      obtain ⟨slot, hslot, hp⟩ := Option.map_eq_some_iff.1 hp
      rw [owner?, hinstruction id slot hslot, Option.map_some, hp]
    | term id => exact hp
  · intro id found hfound
    obtain ⟨slot, hslot, rfl⟩ := Option.map_eq_some_iff.1 hfound
    rw [instructionNode?, hinstruction id slot hslot, Option.map_some]
  · rfl
  · rfl

theorem appendOnly_setOwner {i : InstructionId} (hfree : a.owner? (.instruction i) = some none) (o : Owner) :
    AppendOnly a (a.modifyInstruction i (fun slot => { slot with owner := some o })) := by
  apply appendOnly_of_same
  · exact fun _ _ hnode => hnode
  · intro n p hp
    have hne : n ≠ .instruction i := by
      rintro rfl
      simp [hfree] at hp
    rw [owner?_setOwner a i o hfree, if_neg hne, hp]
  · intro id node hnode
    rw [instructionNode?_setOwner, hnode]
  · rfl
  · rfl

theorem appendOnly_pushChild {c : Container} (hopen : a.isSealed c = .ok false) (i : InstructionId) :
    AppendOnly a (a.pushChild c i) := by
  cases c with
  | script =>
    have hsealed : a.rootSealed = false := Except.ok.inj hopen
    apply appendOnly_of_root (a.root ++ [i], a.rootSealed)
    rw [hsealed]
    exact lengthens_push a.root i
  | closure t =>
    obtain ⟨⟨body, isSealed⟩, hbody, rfl⟩ := map_eq_ok.1 hopen
    obtain ⟨name, parameter, hnode⟩ := closure?_eq_ok.1 hbody
    apply appendOnly_of_closure (body, false) (body ++ [i], false) hnode
    · exact fun _ _ hterm => hterm
    · intro n o ho
      rw [owner?_pushChild, ho]
    · exact instructionNode?_pushChild i hnode
    · rfl
    · rfl
    · exact lengthens_push body i

theorem appendOnly_append {c : Container} {i : InstructionId} (h : a.append c i = .ok a') : AppendOnly a a' := by
  have hung := append_hung h
  unfold append at h
  split at h
  · cases h
  split at h
  · cases h
  split at h
  · cases h
  · cases h
  · rename_i hopen
    have hopen' : (a.modifyInstruction i (fun slot => { slot with owner := some (.container c) })).isSealed c =
        .ok false := by
      rw [← hopen]
      cases c with
      | script => rfl
      | closure t =>
        simp only [isSealed, closure?, instruction?_modifyInstruction]
        by_cases ht : t = i
        · simp only [ht, if_true]
          cases a.instruction? i <;> rfl
        · simp only [ht, if_false]
    have hdone := (appendOnly_setOwner hung.free (.container c)).trans (appendOnly_pushChild hopen' i)
    cases c with
    | script =>
      obtain rfl := Except.ok.inj h
      exact hdone
    | closure t =>
      by_cases hw : a.isWithin t i = true
      · simp [hw] at h
      · simp only [hw, Bool.false_eq_true, if_false, Except.ok.injEq] at h
        rw [← h]
        exact hdone

theorem appendOnly_close {c : Container} (h : a.close c = .ok a') : AppendOnly a a' := by
  cases c with
  | script =>
    obtain rfl := Except.ok.inj h
    exact appendOnly_of_root (a.root, true) (lengthens_seal a.root a.rootSealed)
  | closure t =>
    have hsame := (close_same h).1
    obtain ⟨⟨body, isSealed⟩, hbody, hdone⟩ := bind_eq_ok.1 h
    obtain rfl := Except.ok.inj hdone
    obtain ⟨name, parameter, hnode⟩ := closure?_eq_ok.1 hbody
    apply appendOnly_of_closure (body, isSealed) (body, true) hnode
    · exact fun _ _ hterm => hterm
    · intro n o ho
      rw [hsame, ho]
    · intro id
      rw [instructionNode?, instruction?_modifyInstruction]
      by_cases hid : id = t
      · obtain ⟨slot, hslot, hslot'⟩ := Option.map_eq_some_iff.1 hnode
        simp [hid, hslot, hslot']
      · rw [if_neg hid, if_neg hid]
        rfl
    · rfl
    · rfl
    · exact lengthens_seal body isSealed

theorem appendOnly_addTerm {node : TermNode} {id : TermId} (h : a.addTerm node = .ok (id, a')) :
    AppendOnly a a' := by
  obtain ⟨b, hb, hmade⟩ := bind_eq_ok.1 h
  cases hmade
  exact (claim_ok hb).appendOnly.trans (appendOnly_pushTerm b node)

theorem appendOnly_addInstruction {node : InstructionNode} {id : InstructionId}
    (h : (a.claim ids o).map (·.pushInstruction node) = .ok (id, a')) : AppendOnly a a' := by
  obtain ⟨b, hb, hmade⟩ := map_eq_ok.1 h
  cases hmade
  exact (claim_ok hb).appendOnly.trans (appendOnly_pushInstruction b node)

end Steps

inductive Performed (a : Arena) : Reply → Arena → Prop
  | term {node : TermNode} {id : TermId} {a' : Arena} (h : a.addTerm node = .ok (id, a')) :
    Performed a (.node (.term id)) a'
  | instruction {node : InstructionNode} {id : InstructionId} {a' : Arena} (hbody : node.body = [])
    (h : (a.claim node.arguments (.instruction a.nextInstruction)).map (·.pushInstruction node) = .ok (id, a')) :
    Performed a (.node (.instruction id)) a'
  | append {c : Container} {i : InstructionId} {a' : Arena} (h : a.append c i = .ok a') : Performed a .done a'
  | close {c : Container} {a' : Arena} (h : a.close c = .ok a') : Performed a .done a'

theorem performed_of_perform {op : Op} {reply : Reply} (h : a.perform op = .ok (reply, a')) :
    Performed a reply a' := by
  have hterm : ∀ node, (a.addTerm node).map replyTerm = .ok (reply, a') → Performed a reply a' := by
    intro node hnode
    obtain ⟨made, hmade, hreply⟩ := map_eq_ok.1 hnode
    cases hreply
    exact .term hmade
  cases op with
  | literal value => exact hterm (.literal value) h
  | var name => exact hterm (.var name) h
  | property target name => exact hterm (.property target name) h
  | list items => exact hterm (.list items) h
  | unary op operand => exact hterm (.unary op operand) h
  | binary op left right => exact hterm (.binary op left right) h
  | step name arguments =>
    obtain ⟨made, hmade, hreply⟩ := map_eq_ok.1 h
    cases hreply
    rw [addStep_eq] at hmade
    exact .instruction rfl hmade
  | statement t =>
    obtain ⟨made, hmade, hreply⟩ := map_eq_ok.1 h
    cases hreply
    rw [addStatement_eq] at hmade
    exact .instruction rfl hmade
  | closure name parameter =>
    cases h
    have hclaim : (a.claim [] (.instruction a.nextInstruction)).map
        (·.pushInstruction (.closure name parameter [] false)) = .ok (a.addClosure name parameter) := rfl
    exact .instruction rfl hclaim
  | append c i =>
    obtain ⟨b, hb, hreply⟩ := map_eq_ok.1 h
    cases hreply
    exact .append hb
  | close c =>
    obtain ⟨b, hb, hreply⟩ := map_eq_ok.1 h
    cases hreply
    exact .close hb

theorem Performed.appendOnly {reply : Reply} (h : Performed a reply a') : AppendOnly a a' := by
  cases h with
  | term h => exact appendOnly_addTerm h
  | instruction _ h => exact appendOnly_addInstruction h
  | append h => exact appendOnly_append h
  | close h => exact appendOnly_close h

theorem Performed.grown {n : Node} (h : Performed a (.node n) a') : ∃ o below, Grown a n o below a' := by
  cases h with
  | term h => exact ⟨_, _, addTerm_grown h⟩
  | instruction hbody h => exact ⟨_, _, addInstruction_grown _ hbody h⟩

theorem Performed.exists_iff {reply : Reply} (h : Performed a reply a') (n : Node) :
    a'.owner? n ≠ none ↔ a.owner? n ≠ none ∨ reply = .node n := by
  cases reply with
  | node m =>
    obtain ⟨o, below, hg⟩ := h.grown
    rw [hg.owner?]
    by_cases hm : n = m
    · simp [hm]
    · by_cases hb : n ∈ below
      · simp [hm, hb, hg.free n hb]
      · simp [hm, hb, Ne.symm hm]
  | done =>
    cases h with
    | append h =>
      rw [(append_hung h).owner?]
      split
      · rename_i hn
        simp [hn, (append_hung h).free]
      · simp
    | close h => simp [(close_same h).1]

theorem appendOnly_after (a : Arena) (op : Op) : AppendOnly a (a.after op) := by
  rw [after]
  split
  · rename_i h
    exact (performed_of_perform h).appendOnly
  · exact .refl a

theorem appendOnly_foldl (a : Arena) (ops : List Op) : AppendOnly a (ops.foldl after a) := by
  induction ops generalizing a with
  | nil => exact .refl a
  | cons op ops ih => exact (appendOnly_after a op).trans (ih (a.after op))

def made? (a : Arena) (op : Op) : Option Node :=
  match a.perform op with
  | .ok (.node n, _) => some n
  | _ => none

def issued (a : Arena) : List Op → List Node
  | [] => []
  | op :: ops => (a.made? op).toList ++ (a.after op).issued ops

theorem after_exists_iff (a : Arena) (op : Op) (n : Node) :
    (a.after op).owner? n ≠ none ↔ a.owner? n ≠ none ∨ a.made? op = some n := by
  unfold after made?
  cases hperform : a.perform op with
  | error e => simp
  | ok made =>
    obtain ⟨reply, a'⟩ := made
    have hexists := (performed_of_perform hperform).exists_iff n
    cases reply with
    | node m => simpa using hexists
    | done => simpa using hexists

theorem foldl_exists_iff (a : Arena) (ops : List Op) (n : Node) :
    (ops.foldl after a).owner? n ≠ none ↔ a.owner? n ≠ none ∨ n ∈ a.issued ops := by
  induction ops generalizing a with
  | nil => simp [issued]
  | cons op ops ih =>
    rw [List.foldl_cons, ih, after_exists_iff, issued, List.mem_append, Option.mem_toList, or_assoc]

theorem made?_fresh {op : Op} {n : Node} (h : a.made? op = some n) :
    a.owner? n = none ∧ (a.after op).owner? n = some none := by
  unfold made? at h
  split at h
  · rename_i a' hperform
    cases h
    obtain ⟨o, below, hg⟩ := (performed_of_perform hperform).grown
    refine ⟨hg.fresh, ?_⟩
    rw [after, hperform, hg.owner?, if_pos rfl]
  · cases h

theorem issued_fresh (a : Arena) (ops : List Op) :
    (a.issued ops).Nodup ∧ ∀ n ∈ a.issued ops, a.owner? n = none := by
  induction ops generalizing a with
  | nil => exact ⟨List.nodup_nil, List.forall_mem_nil _⟩
  | cons op ops ih =>
    obtain ⟨hnodup, hfresh⟩ := ih (a.after op)
    have hlater : ∀ n ∈ (a.after op).issued ops, a.owner? n = none :=
      fun n hn => (appendOnly_after a op).owner?_eq_none (hfresh n hn)
    rw [issued]
    cases hmade : a.made? op with
    | none => exact ⟨hnodup, hlater⟩
    | some n =>
      obtain ⟨habsent, hthere⟩ := made?_fresh hmade
      refine ⟨List.nodup_cons.2 ⟨?_, hnodup⟩, List.forall_mem_cons.2 ⟨habsent, hlater⟩⟩
      intro hn
      rw [hfresh n hn] at hthere
      cases hthere

theorem mem_issued_iff (ops : List Op) (n : Node) : n ∈ issued {} ops ↔ (afterAll ops).owner? n ≠ none := by
  have habsent : ({} : Arena).owner? n = none := by
    cases n <;> simp [owner?, instruction?, term?]
  rw [afterAll, foldl_exists_iff]
  simp [habsent]

/-- The arena after some operations is kept by the arena after any more of them: its nodes, their owners, and the
lists of its containers up to what is appended, which is nothing once they are sealed. The nodes of an arena are those
that were created, each of them once. -/
theorem afterAll_appendOnly (ops more : List Op) :
    AppendOnly (afterAll ops) (afterAll (ops ++ more)) ∧ (issued {} (ops ++ more)).Nodup ∧
      ∀ n, n ∈ issued {} (ops ++ more) ↔ (afterAll (ops ++ more)).owner? n ≠ none := by
  refine ⟨?_, (issued_fresh {} (ops ++ more)).1, mem_issued_iff (ops ++ more)⟩
  rw [afterAll, afterAll, List.foldl_append]
  exact appendOnly_foldl _ more

end GraphQuery.Arena
