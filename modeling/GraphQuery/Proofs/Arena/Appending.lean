import GraphQuery.Error
import GraphQuery.Proofs.Arena.AppendOnly

namespace GraphQuery.Arena

open Relation

variable {a a' : Arena}

def InstructionNode.isClosure : InstructionNode → Bool
  | closure .. => true
  | _ => false

def InstructionNode.isSealed : InstructionNode → Bool
  | closure _ _ _ isSealed => isSealed
  | _ => false

def Contains (a : Arena) (p x : InstructionId) : Prop :=
  ∃ body, a.children (.closure p) = .ok body ∧ x ∈ body

structure Appended (a : Arena) (c : Container) (i : InstructionId) (a' : Arena) : Prop where
  children : ∀ d, a'.children d = if d = c then (a.children d).map (· ++ [i]) else a.children d
  isSealed : ∀ d, a'.isSealed d = a.isSealed d
  owner? : ∀ n, a'.owner? n = if n = .instruction i then some (some (.container c)) else a.owner? n
  outlines : ∀ x, (a'.instructionNode? x).map (·.outline) = (a.instructionNode? x).map (·.outline)
  terms : a'.terms = a.terms

/-- What appending an instruction to a container comes to. A container is inside an instruction if bodies of closures
lead from the one to the other. -/
structure AppendOutcome (a : Arena) (c : Container) (i : InstructionId) : Prop where
  unknown : a.owner? (.instruction i) = none → a.append c i = .error (.unknown (.instruction i))
  owned : ∀ o, a.owner? (.instruction i) = some (some o) → a.append c i = .error (.owned (.instruction i) o)
  noContainer : a.owner? (.instruction i) = some none → ∀ t, c = .closure t → a.instructionNode? t = none →
    a.append c i = .error (.unknown (.instruction t))
  notClosure : a.owner? (.instruction i) = some none → ∀ t node, c = .closure t →
    a.instructionNode? t = some node → node.isClosure = false → a.append c i = .error (.notClosure t)
  isSealed : a.owner? (.instruction i) = some none → a.isSealed c = .ok true →
    a.append c i = .error (.sealedContainer i c)
  cycle : a.owner? (.instruction i) = some none → a.isSealed c = .ok false →
    (∃ t, c = .closure t ∧ ReflTransGen a.Contains i t) → a.append c i = .error (.cycle i c)
  done : a.owner? (.instruction i) = some none → a.isSealed c = .ok false →
    (¬ ∃ t, c = .closure t ∧ ReflTransGen a.Contains i t) → ∃ a', a.append c i = .ok a' ∧ Appended a c i a'
  category : ∀ e, a.append c i = .error e → (GraphQuery.Error.arena e).category =
    if a.isAttached i then .ownership else .structural

section Nesting

theorem mem_held_closure {p x : InstructionId} :
    Node.instruction x ∈ a.held (.container (.closure p)) ↔ a.Contains p x := by
  simp only [held, Contains]
  cases a.children (.closure p) with
  | error e => simp
  | ok body => simp

theorem IsForest.ownedBy_iff (h : IsForest a) {p x : InstructionId} : a.OwnedBy x p ↔ a.Contains p x := by
  rw [← mem_held_closure]
  exact ⟨h.mem_of_owner?, h.owner?_of_mem⟩

theorem IsForest.isWithin_iff (h : IsForest a) {top x : InstructionId} :
    a.isWithin x top = true ↔ ReflTransGen a.Contains top x := by
  have hswap : a.OwnedBy = Function.swap a.Contains := by
    funext x p
    exact propext h.ownedBy_iff
  rw [isWithin_iff_ownedBy (h.acc_ownedBy x), hswap, reflTransGen_swap]

end Nesting

section Views

theorem closure?_eq (a : Arena) (id : InstructionId) :
    a.closure? id =
      (a.instructionNode? id).elim (.error (.unknown (.instruction id))) (fun node =>
        if node.isClosure then .ok (node.body, node.isSealed) else .error (.notClosure id)) := by
  unfold closure? instructionNode?
  rcases a.instruction? id with _ | ⟨_ | _ | _, _⟩ <;> rfl

theorem contents_eq_of_nodes (hnodes : ∀ x, a'.instructionNode? x = a.instructionNode? x) (hroot : a'.root = a.root)
    (hsealed : a'.rootSealed = a.rootSealed) (d : Container) : a'.contents d = a.contents d := by
  cases d with
  | script => rw [contents, contents, hroot, hsealed]
  | closure t => rw [contents, contents, closure?_eq, closure?_eq, hnodes]

theorem contents_pushChild {c : Container} {old : List InstructionId × Bool} (hc : a.contents c = .ok old)
    (i : InstructionId) (d : Container) :
    (a.pushChild c i).contents d = if d = c then .ok (old.1 ++ [i], old.2) else a.contents d := by
  cases c with
  | script =>
    obtain rfl := Except.ok.inj hc
    cases d with
    | script => rfl
    | closure x => rfl
  | closure t =>
    obtain ⟨name, parameter, hnode⟩ := closure?_eq_ok.1 hc
    cases d with
    | script => rfl
    | closure x =>
      rw [contents, closure?_eq, instructionNode?_pushChild i hnode]
      by_cases hx : x = t
      · simp only [hx, if_true, Option.elim_some]
        rfl
      · simp only [hx, if_false, Container.closure.injEq]
        rw [contents, closure?_eq]

theorem outline_pushChild (c : Container) (i x : InstructionId) :
    ((a.pushChild c i).instructionNode? x).map (·.outline) = (a.instructionNode? x).map (·.outline) := by
  cases c with
  | script => rfl
  | closure t =>
    rw [pushChild, instructionNode?, instruction?_modifyInstruction, instructionNode?]
    split
    · rcases a.instruction? x with _ | ⟨_ | _ | _, _⟩ <;> rfl
    · rfl

theorem appended_of_open {c : Container} {i : InstructionId} (hfree : a.owner? (.instruction i) = some none)
    (hopen : a.isSealed c = .ok false) :
    Appended a c i
      ((a.modifyInstruction i (fun slot => { slot with owner := some (.container c) })).pushChild c i) := by
  rw [isSealed_eq] at hopen
  obtain ⟨old, hold, -⟩ := map_eq_ok.1 hopen
  have hcontents : ∀ d, ((a.modifyInstruction i
      (fun slot => { slot with owner := some (.container c) })).pushChild c i).contents d =
        if d = c then .ok (old.1 ++ [i], old.2) else a.contents d := by
    have hsame : ∀ d, (a.modifyInstruction i
        (fun slot => { slot with owner := some (.container c) })).contents d = a.contents d :=
      contents_eq_of_nodes (fun x => instructionNode?_setOwner a i x _) rfl rfl
    intro d
    rw [contents_pushChild ((hsame c).trans hold), hsame]
  refine ⟨fun d => ?_, fun d => ?_, fun n => ?_, fun x => ?_, ?_⟩
  · rw [children_eq, hcontents, children_eq]
    by_cases hd : d = c
    · simp only [hd, if_true, hold, map_ok]
    · simp only [hd, if_false]
  · rw [isSealed_eq, hcontents, isSealed_eq]
    by_cases hd : d = c
    · simp only [hd, if_true, hold, map_ok]
    · simp only [hd, if_false]
  · rw [owner?_pushChild, owner?_setOwner a i _ hfree]
  · rw [outline_pushChild, instructionNode?_setOwner]
  · cases c <;> rfl

end Views

section Outcomes

variable {c : Container} {i : InstructionId}

theorem append_of_unknown (c : Container) (h : a.owner? (.instruction i) = none) :
    a.append c i = .error (.unknown (.instruction i)) := by
  unfold append
  simp only [Option.map_eq_none_iff.1 h]

theorem append_of_owned (c : Container) {o : Owner} (h : a.owner? (.instruction i) = some (some o)) :
    a.append c i = .error (.owned (.instruction i) o) := by
  obtain ⟨slot, hslot, howner⟩ := Option.map_eq_some_iff.1 h
  unfold append
  simp only [hslot, howner]

theorem append_of_noContainer {e : Error} (hfree : a.owner? (.instruction i) = some none)
    (hc : a.isSealed c = .error e) : a.append c i = .error e := by
  obtain ⟨slot, hslot, howner⟩ := Option.map_eq_some_iff.1 hfree
  unfold append
  simp only [hslot, howner, hc]

theorem append_of_isSealed (hfree : a.owner? (.instruction i) = some none) (hc : a.isSealed c = .ok true) :
    a.append c i = .error (.sealedContainer i c) := by
  obtain ⟨slot, hslot, howner⟩ := Option.map_eq_some_iff.1 hfree
  unfold append
  simp only [hslot, howner, hc]

theorem append_of_isWithin {t : InstructionId} (hfree : a.owner? (.instruction i) = some none)
    (hopen : a.isSealed (.closure t) = .ok false) (hw : a.isWithin t i = true) :
    a.append (.closure t) i = .error (.cycle i (.closure t)) := by
  obtain ⟨slot, hslot, howner⟩ := Option.map_eq_some_iff.1 hfree
  unfold append
  simp only [hslot, howner, hopen, hw, if_true]

theorem isSealed_of_unknown {t : InstructionId} (h : a.instructionNode? t = none) :
    a.isSealed (.closure t) = .error (.unknown (.instruction t)) := by
  rw [isSealed, closure?_eq, h]
  rfl

theorem isSealed_of_not_isClosure {t : InstructionId} {node : InstructionNode} (h : a.instructionNode? t = some node)
    (hnode : node.isClosure = false) : a.isSealed (.closure t) = .error (.notClosure t) := by
  rw [isSealed, closure?_eq, h, Option.elim_some, hnode]
  rfl

theorem category_of_isSealed {e : Error} (h : a.isSealed c = .error e) :
    (GraphQuery.Error.arena e).category = .structural := by
  cases c with
  | script => cases h
  | closure t =>
    rw [isSealed, closure?_eq] at h
    cases hnode : a.instructionNode? t with
    | none =>
      rw [hnode] at h
      cases h
      rfl
    | some node =>
      rw [hnode, Option.elim_some] at h
      split at h
      · cases h
      · cases h
        rfl

theorem category_of_append_free {e : Error} (hfree : a.owner? (.instruction i) = some none)
    (h : a.append c i = .error e) : (GraphQuery.Error.arena e).category = .structural := by
  rcases hc : a.isSealed c with e' | _ | _
  · rw [append_of_noContainer hfree hc] at h
    cases h
    exact category_of_isSealed hc
  · by_cases hapart : ∀ t, c = .closure t → a.isWithin t i = false
    · rw [append_eq c hfree hc hapart] at h
      cases h
    · push Not at hapart
      obtain ⟨t, rfl, hw⟩ := hapart
      rw [append_of_isWithin hfree hc (by simpa using hw)] at h
      cases h
      rfl
  · rw [append_of_isSealed hfree hc] at h
    cases h
    rfl

theorem category_of_append {e : Error} (h : a.append c i = .error e) :
    (GraphQuery.Error.arena e).category = if a.isAttached i then .ownership else .structural := by
  have hattached : a.isAttached i = ((a.owner? (.instruction i)).join).isSome := by
    rw [isAttached, owner?]
    cases a.instruction? i <;> rfl
  rw [hattached]
  rcases howner : a.owner? (.instruction i) with _ | _ | o
  · rw [append_of_unknown c howner] at h
    cases h
    rfl
  · exact category_of_append_free howner h
  · rw [append_of_owned c howner] at h
    cases h
    rfl

/-- After any operations, performed or refused: appending fails for an unknown instruction, then for one with an owner,
then for a container that is no closure or is sealed, then for a closure that is the instruction or inside it; otherwise
the instruction becomes the last one of the container. -/
theorem afterAll_append (ops : List Op) (c : Container) (i : InstructionId) : AppendOutcome (afterAll ops) c i := by
  have hforest := isForest_afterAll ops
  refine ⟨?_, ?_, ?_, ?_, ?_, ?_, ?_, ?_⟩
  · exact append_of_unknown c
  · exact fun o ho => append_of_owned c ho
  · rintro hfree t rfl hnone
    exact append_of_noContainer hfree (isSealed_of_unknown hnone)
  · rintro hfree t node rfl hnode hclosure
    exact append_of_noContainer hfree (isSealed_of_not_isClosure hnode hclosure)
  · exact append_of_isSealed
  · rintro hfree hopen ⟨t, rfl, hpath⟩
    exact append_of_isWithin hfree hopen (hforest.isWithin_iff.2 hpath)
  · intro hfree hopen hpath
    refine ⟨_, append_eq c hfree hopen fun t hc => ?_, appended_of_open hfree hopen⟩
    rw [← Bool.not_eq_true, hforest.isWithin_iff]
    exact fun hpath' => hpath ⟨t, hc, hpath'⟩
  · exact fun e he => category_of_append he

end Outcomes

end GraphQuery.Arena
