import GraphQuery.Proofs.Arena.Forest
import GraphQuery.Proofs.Arena.Unfolding

namespace GraphQuery.Arena

variable {a a' a'' : Arena}

def KeepsTerms (a a' : Arena) : Prop :=
  ∀ ⦃id node⦄, a.termNode? id = some node → a'.termNode? id = some node

structure Extends (a a' : Arena) : Prop where
  terms : KeepsTerms a a'
  instructions : ∀ ⦃id node⦄, a.instructionNode? id = some node → a'.instructionNode? id = some node

theorem Extends.refl (a : Arena) : Extends a a :=
  ⟨fun _ _ h => h, fun _ _ h => h⟩

theorem Extends.trans (h : Extends a a') (h' : Extends a' a'') : Extends a a'' :=
  ⟨fun _ _ hn => h'.terms (h.terms hn), fun _ _ hn => h'.instructions (h.instructions hn)⟩

mutual
theorem TermAt.mono (hk : KeepsTerms a a') {id : TermId} : {t : Term} → TermAt a id t → TermAt a' id t
  | .literal _, h => hk h
  | .var _, h => hk h
  | .property _ _, ⟨u, hu, h⟩ => ⟨u, hk hu, TermAt.mono hk h⟩
  | .list _, ⟨us, hus, h⟩ => ⟨us, hk hus, TermsAt.mono hk h⟩
  | .unary _ _, ⟨u, hu, h⟩ => ⟨u, hk hu, TermAt.mono hk h⟩
  | .binary _ _ _, ⟨l, r, hu, hl, hr⟩ => ⟨l, r, hk hu, TermAt.mono hk hl, TermAt.mono hk hr⟩

theorem TermsAt.mono (hk : KeepsTerms a a') : {ids : List TermId} → {ts : List Term} →
    TermsAt a ids ts → TermsAt a' ids ts
  | [], [], _ => trivial
  | _ :: _, _ :: _, h => ⟨TermAt.mono hk h.1, TermsAt.mono hk h.2⟩
end

mutual
theorem InstructionAt.mono (h : Extends a a') {id : InstructionId} : {i : Instruction} →
    InstructionAt a id i → InstructionAt a' id i
  | .step _ _, ⟨ts, hts, ht⟩ => ⟨ts, h.instructions hts, TermsAt.mono h.terms ht⟩
  | .closure _ _ _, ⟨is, b, his, hi⟩ => ⟨is, b, h.instructions his, InstructionsAt.mono h hi⟩
  | .statement _, ⟨t, hn, ht⟩ => ⟨t, h.instructions hn, TermAt.mono h.terms ht⟩

theorem InstructionsAt.mono (h : Extends a a') : {ids : List InstructionId} → {is : List Instruction} →
    InstructionsAt a ids is → InstructionsAt a' ids is
  | [], [], _ => trivial
  | _ :: _, _ :: _, hi => ⟨InstructionAt.mono h hi.1, InstructionsAt.mono h hi.2⟩
end

theorem InstructionsAt.append : {ids ids' : List InstructionId} → {is is' : List Instruction} →
    InstructionsAt a ids is → InstructionsAt a ids' is' → InstructionsAt a (ids ++ ids') (is ++ is')
  | [], _, [], _, _, h' => h'
  | _ :: _, _, _ :: _, _, h, h' => ⟨h.1, InstructionsAt.append h.2 h'⟩

structure Ready (a : Arena) (loose : List Node) : Prop where
  forest : IsForest a
  unsealed : a.rootSealed = false
  nodup : loose.Nodup
  loose : ∀ n, a.owner? n = some none ↔ n ∈ loose

namespace Ready

variable {loose loose' below : List Node} {n : Node} {o : Owner} {i : InstructionId}

theorem empty : Ready {} [] := by
  refine ⟨isForest_empty, rfl, List.nodup_nil, fun n => ?_⟩
  cases n <;> simp [owner?, instruction?, term?]

theorem perm (h : Ready a loose) (hp : loose.Perm loose') : Ready a loose' :=
  ⟨h.forest, h.unsealed, hp.nodup_iff.1 h.nodup, fun n => (h.loose n).trans hp.mem_iff⟩

theorem grown (h : Ready a (below ++ loose)) (hg : Grown a n o below a') (hs : a'.rootSealed = a.rootSealed) :
    Ready a' (n :: loose) := by
  have hnodup := List.nodup_append.1 h.nodup
  refine ⟨h.forest.grown hg, hs.trans h.unsealed, List.nodup_cons.2 ⟨fun hn => ?_, hnodup.2.1⟩, fun x => ?_⟩
  · have := (h.loose n).2 (List.mem_append_right _ hn)
    simp [hg.fresh] at this
  · rw [hg.owner?, List.mem_cons]
    by_cases hx : x = n
    · simp [hx]
    · rw [if_neg hx]
      by_cases hb : x ∈ below
      · have : x ∉ loose := fun hl => hnodup.2.2 x hb x hl rfl
        simp [hx, hb, this]
      · rw [if_neg hb, h.loose x]
        simp [hx, hb]

theorem hung (h : Ready a (.instruction i :: loose)) {c : Container} (hh : Hung a c i a')
    (hs : a'.rootSealed = a.rootSealed) : Ready a' loose := by
  have hnodup := List.nodup_cons.1 h.nodup
  refine ⟨h.forest.hung hh, hs.trans h.unsealed, hnodup.2, fun x => ?_⟩
  rw [hh.owner?]
  by_cases hx : x = .instruction i
  · simp [hx, hnodup.1]
  · rw [if_neg hx, h.loose x]
    simp [hx]

end Ready

section Operations

variable {loose : List Node}

theorem claimable_of_loose {o : Owner} {ids before : List TermId} (hnodup : ids.Nodup)
    (hfree : ∀ id ∈ ids, a.owner? (.term id) = some none) (hbefore : ∀ id ∈ ids, id ∉ before) :
    claimable a o before ids = .ok () := by
  induction ids generalizing before with
  | nil => rfl
  | cons id ids ih =>
    obtain ⟨hid, hids⟩ := List.nodup_cons.1 hnodup
    obtain ⟨slot, hslot, howner⟩ := Option.map_eq_some_iff.1 (hfree id List.mem_cons_self)
    rw [claimable, hslot]
    simp only [howner, hbefore id List.mem_cons_self, if_false]
    apply ih hids
    · exact fun x hx => hfree x (List.mem_cons_of_mem _ hx)
    · intro x hx hmem
      rcases List.mem_append.1 hmem with hb | hb
      · exact hbefore x (List.mem_cons_of_mem _ hx) hb
      · rw [List.mem_singleton.1 hb] at hx
        exact hid hx

theorem claim_of_ready {o : Owner} {ids : List TermId} (h : Ready a (ids.map .term ++ loose)) :
    ∃ b, a.claim ids o = .ok b := by
  have hnodup : ids.Nodup := List.Nodup.of_map _ (List.nodup_append.1 h.nodup).1
  have hfree : ∀ id ∈ ids, a.owner? (.term id) = some none :=
    fun id hid => (h.loose _).2 (List.mem_append_left _ (List.mem_map_of_mem hid))
  rw [claim, claimable_of_loose hnodup hfree (by simp)]
  exact ⟨_, rfl⟩

theorem Claimed.termNode? {ids : List TermId} {o : Owner} {b : Arena} (h : Claimed a ids o b) (x : TermId) :
    b.termNode? x = a.termNode? x := by
  rw [Arena.termNode?, h.term? x]
  split
  · cases hx : a.term? x <;> simp [Arena.termNode?, hx]
  · rfl

theorem addTerm_of_ready {node : TermNode} (h : Ready a (node.operands.map .term ++ loose)) :
    ∃ id a', a.addTerm node = .ok (id, a') ∧ Extends a a' ∧ a'.root = a.root ∧
      a'.termNode? id = some node ∧ Ready a' (.term id :: loose) := by
  obtain ⟨b, hb⟩ := claim_of_ready (o := .term a.nextTerm) h
  have hc := claim_ok hb
  refine ⟨a.nextTerm, (b.pushTerm node).2, ?_, ⟨?_, ?_⟩, hc.root, ?_, h.grown hc.pushTerm hc.rootSealed⟩
  · rw [addTerm, hb, ok_bind, ← hc.nextTerm]
    rfl
  · intro id n hn
    have hne : id ≠ b.nextTerm := by
      rintro rfl
      simp [hc.nextTerm, termNode?, term?_nextTerm] at hn
    rw [← hc.termNode?] at hn
    rwa [termNode?, term?_pushTerm, if_neg hne]
  · intro id n hn
    rw [instructionNode?, ← hc.instruction?] at hn
    exact hn
  · rw [termNode?, term?_pushTerm, if_pos hc.nextTerm.symm]
    rfl

theorem addInstruction_of_ready (node : InstructionNode) (hbody : node.body = [])
    (h : Ready a (node.arguments.map .term ++ loose)) :
    ∃ id a', (a.claim node.arguments (.instruction a.nextInstruction)).map (·.pushInstruction node) =
        .ok (id, a') ∧ Extends a a' ∧ a'.root = a.root ∧ a.instructionNode? id = none ∧
      a'.instructionNode? id = some node ∧ Ready a' (.instruction id :: loose) := by
  obtain ⟨b, hb⟩ := claim_of_ready (o := .instruction a.nextInstruction) h
  have hc := claim_ok hb
  refine ⟨a.nextInstruction, (b.pushInstruction node).2, ?_, ⟨?_, ?_⟩, hc.root, ?_, ?_,
    h.grown (hc.pushInstruction node hbody) hc.rootSealed⟩
  · rw [hb, map_ok, ← hc.nextInstruction]
    rfl
  · intro id n hn
    rw [← hc.termNode?] at hn
    exact hn
  · intro id n hn
    have hne : id ≠ b.nextInstruction := by
      rintro rfl
      simp [hc.nextInstruction, instructionNode?, instruction?_nextInstruction] at hn
    rw [instructionNode?, ← hc.instruction?] at hn
    rwa [instructionNode?, instruction?_pushInstruction, if_neg hne]
  · simp [instructionNode?, instruction?_nextInstruction]
  · rw [instructionNode?, instruction?_pushInstruction, if_pos hc.nextInstruction.symm]
    rfl

theorem isWithin_of_loose {t i : InstructionId} (ht : a.owner? (.instruction t) = some none) (hne : t ≠ i) :
    a.isWithin t i = false := by
  obtain ⟨slot, hslot, howner⟩ := Option.map_eq_some_iff.1 ht
  simp [isWithin, isWithinSteps, hne, enclosing?, hslot, howner]

theorem append_eq (c : Container) {i : InstructionId} (hfree : a.owner? (.instruction i) = some none)
    (hopen : a.isSealed c = .ok false) (hapart : ∀ t, c = .closure t → a.isWithin t i = false) :
    a.append c i = .ok ((a.modifyInstruction i
      (fun slot => { slot with owner := some (.container c) })).pushChild c i) := by
  obtain ⟨slot, hslot, howner⟩ := Option.map_eq_some_iff.1 hfree
  unfold append
  simp only [hslot, howner, hopen]
  cases c with
  | script => rfl
  | closure t => simp [hapart t rfl]

theorem instructionNode?_setOwner (a : Arena) (i x : InstructionId) (o : Option Owner) :
    (a.modifyInstruction i (fun slot => { slot with owner := o })).instructionNode? x =
      a.instructionNode? x := by
  rw [instructionNode?, instruction?_modifyInstruction]
  split
  · cases hx : a.instruction? x <;> simp [instructionNode?, hx]
  · rfl

theorem instructionNode?_pushChild {t : InstructionId} {name : String} {parameter : Option String}
    {body : List InstructionId} {isSealed : Bool} (i : InstructionId)
    (ht : a.instructionNode? t = some (.closure name parameter body isSealed)) (x : InstructionId) :
    (a.pushChild (.closure t) i).instructionNode? x =
      if x = t then some (.closure name parameter (body ++ [i]) isSealed) else a.instructionNode? x := by
  obtain ⟨slot, hslot, hnode⟩ := Option.map_eq_some_iff.1 ht
  rw [pushChild, instructionNode?, instruction?_modifyInstruction]
  by_cases hx : x = t
  · simp [hx, hslot, hnode]
  · simp only [hx, if_false]
    rfl

theorem append_script_of_ready {i : InstructionId} (h : Ready a (.instruction i :: loose)) :
    ∃ a', a.append .script i = .ok a' ∧ Extends a a' ∧ a'.root = a.root ++ [i] ∧ Ready a' loose := by
  have heq := append_eq .script ((h.loose _).2 List.mem_cons_self) (congrArg Except.ok h.unsealed) (by simp)
  refine ⟨_, heq, ⟨fun _ _ hn => hn, fun _ _ hn => ?_⟩, rfl, h.hung (append_hung heq) rfl⟩
  exact (instructionNode?_setOwner a i _ _).trans hn

theorem append_closure_of_ready {t i : InstructionId} {name : String} {parameter : Option String}
    {body : List InstructionId} (h : Ready a (.instruction i :: .instruction t :: loose))
    (ht : a.instructionNode? t = some (.closure name parameter body false)) :
    ∃ a', a.append (.closure t) i = .ok a' ∧ KeepsTerms a a' ∧ a'.root = a.root ∧
      (∀ x, a'.instructionNode? x =
        if x = t then some (.closure name parameter (body ++ [i]) false) else a.instructionNode? x) ∧
      Ready a' (.instruction t :: loose) := by
  have hne : t ≠ i := by
    rintro rfl
    simpa using h.nodup
  have hfree : ∀ n ∈ Node.instruction i :: .instruction t :: loose, a.owner? n = some none :=
    fun n hn => (h.loose n).2 hn
  have hopen : a.isSealed (.closure t) = .ok false := by
    obtain ⟨slot, hslot, hnode⟩ := Option.map_eq_some_iff.1 ht
    simp [isSealed, closure?, hslot, hnode]
  have hapart : ∀ u, Container.closure t = .closure u → a.isWithin u i = false := by
    rintro u ⟨⟩
    exact isWithin_of_loose (hfree _ (by simp)) hne
  have heq := append_eq (.closure t) (hfree _ (by simp)) hopen hapart
  refine ⟨_, heq, fun _ _ hn => hn, rfl, fun x => ?_, h.hung (append_hung heq) rfl⟩
  rw [instructionNode?_pushChild i ((instructionNode?_setOwner ..).trans ht), instructionNode?_setOwner]

end Operations

end GraphQuery.Arena
