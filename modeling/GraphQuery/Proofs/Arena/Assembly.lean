import GraphQuery.Error
import GraphQuery.Proofs.Arena.Unfolding
import GraphQuery.Proofs.Arena.Walk

namespace GraphQuery.Arena

def TermNode.fill : TermNode → List Term → Term
  | literal value, _ => .literal value
  | var name, _ => .var name
  | property _ name, ts => .property (ts.getD 0 default) name
  | list _, ts => .list ts
  | unary op _, ts => .unary op (ts.getD 0 default)
  | binary op _ _, ts => .binary op (ts.getD 0 default) (ts.getD 1 default)

def InstructionNode.fill : InstructionNode → List Term → List Instruction → Instruction
  | step name _, ts, _ => .step name ts
  | closure name parameter _ _, _, is => .closure name parameter is
  | statement _, ts, _ => .statement (ts.getD 0 default)

theorem assembleTerm_succ (levels : Nat) (id : TermId) :
    assembleTerm (levels + 1) id = do
      let node ← takeTerm id
      let ts ← node.operands.mapM (assembleTerm levels)
      return node.fill ts := by
  rw [assembleTerm]
  congr 1
  funext node
  cases node <;> simp [TermNode.operands, TermNode.fill]

theorem assembleInstruction_succ (termLevels levels : Nat) (id : InstructionId) :
    assembleInstruction termLevels (levels + 1) id = do
      let node ← takeInstruction id
      let ts ← node.arguments.mapM (assembleTerm termLevels)
      let is ← node.body.mapM (assembleInstruction termLevels levels)
      return node.fill ts is := by
  rw [assembleInstruction]
  congr 1
  funext node
  cases node <;> simp [InstructionNode.arguments, InstructionNode.body, InstructionNode.fill]

theorem TermsAt.length {a : Arena} {ids : List TermId} {ts : List Term} (h : TermsAt a ids ts) :
    ts.length = ids.length := by
  induction ids generalizing ts with
  | nil => cases ts <;> simp_all [TermsAt]
  | cons id ids ih =>
    cases ts with
    | nil => simp [TermsAt] at h
    | cons t ts => simp [ih h.2]

theorem termAt_fill {a : Arena} {id : TermId} {node : TermNode} {ts : List Term}
    (hnode : a.termNode? id = some node) (hts : TermsAt a node.operands ts) :
    TermAt a id (node.fill ts) ∧ (node.fill ts).nodeCount = 1 + Term.nodeCounts ts := by
  have hlength := hts.length
  cases node with
  | literal | var =>
    obtain rfl : ts = [] := List.eq_nil_of_length_eq_zero hlength
    exact ⟨hnode, rfl⟩
  | property target name =>
    obtain ⟨t, rfl⟩ := List.length_eq_one_iff.1 hlength
    exact ⟨⟨target, hnode, hts.1⟩, rfl⟩
  | list items => exact ⟨⟨items, hnode, hts⟩, rfl⟩
  | unary op operand =>
    obtain ⟨t, rfl⟩ := List.length_eq_one_iff.1 hlength
    exact ⟨⟨operand, hnode, hts.1⟩, rfl⟩
  | binary op left right =>
    obtain ⟨l, r, rfl⟩ := List.length_eq_two.1 hlength
    exact ⟨⟨left, right, hnode, hts.1, hts.2.1⟩, rfl⟩

theorem instructionAt_fill {a : Arena} {id : InstructionId} {node : InstructionNode} {ts : List Term}
    {is : List Instruction} (hnode : a.instructionNode? id = some node) (hts : TermsAt a node.arguments ts)
    (his : InstructionsAt a node.body is) :
    InstructionAt a id (node.fill ts is) ∧
      (node.fill ts is).nodeCount = 1 + (Term.nodeCounts ts + Instruction.nodeCounts is) := by
  cases node with
  | step name arguments =>
    obtain rfl : is = [] := by cases is <;> simp_all [InstructionNode.body, InstructionsAt]
    exact ⟨⟨arguments, hnode, hts⟩, rfl⟩
  | closure name parameter body isSealed =>
    obtain rfl : ts = [] := List.eq_nil_of_length_eq_zero hts.length
    refine ⟨⟨body, isSealed, hnode, his⟩, ?_⟩
    simp [InstructionNode.fill, Instruction.nodeCount, Term.nodeCounts]
  | statement t =>
    obtain rfl : is = [] := by cases is <;> simp_all [InstructionNode.body, InstructionsAt]
    obtain ⟨term, rfl⟩ := List.length_eq_one_iff.1 hts.length
    exact ⟨⟨t, hnode, hts.1⟩, rfl⟩

structure Taken (a : Arena) (done pending : List (Owner × Node)) (s : Stock) : Prop
    extends Walked a done pending where
  terms : ∀ t : TermId, s.terms[t.index]?.join = if .term t ∈ done.map Prod.snd then none else a.termNode? t
  instructions : ∀ i : InstructionId,
    s.instructions[i.index]?.join = if .instruction i ∈ done.map Prod.snd then none else a.instructionNode? i

def unmet (size : Nat) (node : Nat → Node) (done : List (Owner × Node)) : Nat :=
  ((Finset.range size).filter (fun i => node i ∉ done.map Prod.snd)).card

theorem unmet_append_le (size : Nat) (node : Nat → Node) (more done : List (Owner × Node)) :
    unmet size node (more ++ done) ≤ unmet size node done := by
  apply Finset.card_le_card
  intro i hi
  simp only [Finset.mem_filter, List.map_append, List.mem_append, not_or] at hi ⊢
  exact ⟨hi.1, hi.2.2⟩

theorem unmet_cons_lt {size i : Nat} (node : Nat → Node) {done : List (Owner × Node)} (o : Owner)
    (hi : i < size) (hnew : node i ∉ done.map Prod.snd) :
    unmet size node ((o, node i) :: done) < unmet size node done := by
  apply Finset.card_lt_card
  rw [Finset.ssubset_iff_of_subset]
  · exact ⟨i, by simp [hi, hnew], by simp⟩
  · intro j hj
    simp only [Finset.mem_filter, List.map_cons, List.mem_cons, not_or] at hj ⊢
    exact ⟨hj.1, hj.2.2⟩

theorem lt_size_of_term {a : Arena} {id : TermId} {node : TermNode} (h : a.termNode? id = some node) :
    id.index < a.terms.size := by
  obtain ⟨slot, hslot, -⟩ := Option.map_eq_some_iff.1 h
  exact (Array.getElem?_eq_some_iff.1 hslot).1

theorem lt_size_of_instruction {a : Arena} {id : InstructionId} {node : InstructionNode}
    (h : a.instructionNode? id = some node) : id.index < a.instructions.size := by
  obtain ⟨slot, hslot, -⟩ := Option.map_eq_some_iff.1 h
  exact (Array.getElem?_eq_some_iff.1 hslot).1

def Fits (a : Arena) (termLevels levels : Nat) (done : List (Owner × Node)) : Prop :=
  unmet a.terms.size (fun i => .term ⟨i⟩) done ≤ termLevels ∧
    unmet a.instructions.size (fun i => .instruction ⟨i⟩) done ≤ levels

theorem Fits.append {a : Arena} {termLevels levels : Nat} {done : List (Owner × Node)}
    (h : Fits a termLevels levels done) (more : List (Owner × Node)) :
    Fits a termLevels levels (more ++ done) :=
  ⟨(unmet_append_le ..).trans h.1, (unmet_append_le ..).trans h.2⟩

theorem Fits.meetTerm {a : Arena} {termLevels levels : Nat} {done : List (Owner × Node)} {id : TermId}
    {node : TermNode} (h : Fits a termLevels levels done) (hnode : a.termNode? id = some node)
    (hnew : .term id ∉ done.map Prod.snd) (o : Owner) :
    0 < termLevels ∧ Fits a (termLevels - 1) levels ((o, .term id) :: done) := by
  have hlt := unmet_cons_lt (fun i => .term ⟨i⟩) o (lt_size_of_term hnode) hnew
  have hle := (h.append [(o, .term id)]).2
  exact ⟨by have := h.1; omega, Nat.le_sub_one_of_lt (hlt.trans_le h.1), hle⟩

theorem Fits.meetInstruction {a : Arena} {termLevels levels : Nat} {done : List (Owner × Node)}
    {id : InstructionId} {node : InstructionNode} (h : Fits a termLevels levels done)
    (hnode : a.instructionNode? id = some node) (hnew : .instruction id ∉ done.map Prod.snd) (o : Owner) :
    0 < levels ∧ Fits a termLevels (levels - 1) ((o, .instruction id) :: done) := by
  have hlt := unmet_cons_lt (fun i => .instruction ⟨i⟩) o (lt_size_of_instruction hnode) hnew
  have hle := (h.append [(o, .instruction id)]).1
  exact ⟨by have := h.2; omega, hle, Nat.le_sub_one_of_lt (hlt.trans_le h.2)⟩

def Takes {α : Type} (a : Arena) (termLevels levels : Nat) (m : Assembly α) (asked : List (Owner × Node))
    (result : α → Prop) (size : α → Nat) : Prop :=
  ∀ {done pending : List (Owner × Node)} {s : Stock}, Taken a done (asked ++ pending) s →
    Fits a termLevels levels done →
    ∃ x more s', m s = .ok (x, s') ∧ result x ∧ Taken a (more ++ done) pending s' ∧ more.length = size x

theorem Takes.mapM {ι α : Type} {a : Arena} {termLevels levels : Nat} {f : ι → Assembly α}
    {asked : ι → Owner × Node} {result : ι → α → Prop} {size : α → Nat} (results : List ι → List α → Prop)
    (sizes : List α → Nat) (hnil : results [] []) (hzero : sizes [] = 0)
    (hcons : ∀ {i x is xs}, result i x → results is xs → results (i :: is) (x :: xs))
    (hadd : ∀ x xs, sizes (x :: xs) = size x + sizes xs)
    (h : ∀ i, Takes a termLevels levels (f i) [asked i] (result i) size) (is : List ι) :
    Takes a termLevels levels (is.mapM f) (is.map asked) (results is) sizes := by
  induction is with
  | nil => exact fun {done pending s} ht _ => ⟨[], [], s, rfl, hnil, ht, hzero.symm⟩
  | cons i is ih =>
    intro done pending s ht hfits
    obtain ⟨x, more, s₁, hx, hresult, ht₁, hsize⟩ := h i ht hfits
    obtain ⟨xs, more', s₂, hxs, hresults, ht₂, hsize'⟩ := ih ht₁ (hfits.append more)
    refine ⟨x :: xs, more' ++ more, s₂, ?_, hcons hresult hresults, by rwa [List.append_assoc], ?_⟩
    · rw [List.mapM_cons, stateT_bind_of_ok hx, stateT_bind_of_ok hxs]
      rfl
    · rw [List.length_append, hsize, hsize', hadd, Nat.add_comm]

theorem join_modify_none {α : Type} (xs : Array (Option α)) (i j : Nat) :
    (xs.modify i (fun _ => none))[j]?.join = if j = i then none else xs[j]?.join := by
  rw [Array.getElem?_modify]
  by_cases h : i = j
  · cases hs : xs[j]? <;> simp [h]
  · simp [h, Ne.symm h]

section Take

variable {a : Arena} {done pending : List (Owner × Node)} {s : Stock} {o : Owner}

theorem takeTerm_ok (hf : IsForest a) {id : TermId} (h : Taken a done ((o, .term id) :: pending) s) :
    ∃ node s', takeTerm id s = .ok (node, s') ∧ a.termNode? id = some node ∧
      Taken a ((o, .term id) :: done) (a.listed (.term id) ++ pending) s' := by
  have howner := h.owner? hf (List.mem_append_right _ List.mem_cons_self)
  obtain ⟨slot, hslot, -⟩ := Option.map_eq_some_iff.1 howner
  have hnode : a.termNode? id = some slot.node := by simp [termNode?, hslot]
  have hstock := h.terms id
  rw [if_neg (h.not_done hf), hnode] at hstock
  refine ⟨slot.node, { s with terms := s.terms.modify id.index (fun _ => none) }, ?_, hnode, h.next hf,
    ?_, ?_⟩
  · rw [takeTerm, hstock]
  · intro t
    have hindex : t.index = id.index ↔ t = id := by cases t; cases id; simp
    rw [join_modify_none, h.terms t]
    simp only [hindex, List.map_cons, List.mem_cons, Node.term.injEq]
    grind
  · intro i
    simp only [List.map_cons, List.mem_cons, reduceCtorEq, false_or]
    exact h.instructions i

theorem takeInstruction_ok (hf : IsForest a) {id : InstructionId}
    (h : Taken a done ((o, .instruction id) :: pending) s) :
    ∃ node s', takeInstruction id s = .ok (node, s') ∧ a.instructionNode? id = some node ∧
      Taken a ((o, .instruction id) :: done) (a.listed (.instruction id) ++ pending) s' := by
  have howner := h.owner? hf (List.mem_append_right _ List.mem_cons_self)
  obtain ⟨slot, hslot, -⟩ := Option.map_eq_some_iff.1 howner
  have hnode : a.instructionNode? id = some slot.node := by simp [instructionNode?, hslot]
  have hstock := h.instructions id
  rw [if_neg (h.not_done hf), hnode] at hstock
  refine ⟨slot.node, { s with instructions := s.instructions.modify id.index (fun _ => none) }, ?_, hnode,
    h.next hf, ?_, ?_⟩
  · rw [takeInstruction, hstock]
  · intro t
    simp only [List.map_cons, List.mem_cons, reduceCtorEq, false_or]
    exact h.terms t
  · intro i
    have hindex : i.index = id.index ↔ i = id := by cases i; cases id; simp
    rw [join_modify_none, h.instructions i]
    simp only [hindex, List.map_cons, List.mem_cons, Node.instruction.injEq]
    grind

end Take

theorem listed_term_eq {a : Arena} {id : TermId} {node : TermNode} (h : a.termNode? id = some node) :
    a.listed (.term id) = node.operands.map (fun t => (.term id, .term t)) := by
  obtain ⟨slot, hslot, rfl⟩ := Option.map_eq_some_iff.1 h
  simp [listed, hslot]

theorem listed_instruction_eq {a : Arena} {id : InstructionId} {node : InstructionNode}
    (h : a.instructionNode? id = some node) :
    a.listed (.instruction id) = node.arguments.map (fun t => (.instruction id, .term t)) ++
      node.body.map (fun i => (.container (.closure id), .instruction i)) := by
  obtain ⟨⟨node, owner⟩, hslot, rfl⟩ := Option.map_eq_some_iff.1 h
  cases node <;> simp [listed, hslot, InstructionNode.arguments, InstructionNode.body]

theorem assembleTerm_takes {a : Arena} (hf : IsForest a) (termLevels levels : Nat) (id : TermId) (o : Owner) :
    Takes a termLevels levels (assembleTerm termLevels id) [(o, .term id)] (TermAt a id) Term.nodeCount := by
  induction termLevels generalizing id o with
  | zero =>
    intro done pending s ht hfits
    obtain ⟨node, -, -, hnode, -⟩ := takeTerm_ok hf ht
    exact absurd (hfits.meetTerm hnode (ht.not_done hf) o).1 (Nat.lt_irrefl 0)
  | succ termLevels ih =>
    intro done pending s ht hfits
    obtain ⟨node, s₁, htake, hnode, ht₁⟩ := takeTerm_ok hf ht
    rw [listed_term_eq hnode] at ht₁
    obtain ⟨ts, more, s₂, hts, hat, ht₂, hsize⟩ :=
      Takes.mapM (TermsAt a) Term.nodeCounts trivial rfl And.intro (fun _ _ => rfl)
        (fun t => ih t (.term id)) node.operands ht₁ (hfits.meetTerm hnode (ht.not_done hf) o).2
    obtain ⟨hterm, hcount⟩ := termAt_fill hnode hat
    refine ⟨node.fill ts, more ++ [(o, .term id)], s₂, ?_, hterm, by simpa using ht₂, ?_⟩
    · rw [assembleTerm_succ, stateT_bind_of_ok htake, stateT_bind_of_ok hts]
      rfl
    · simp [hsize, hcount, Nat.add_comm]

theorem assembleInstruction_takes {a : Arena} (hf : IsForest a) (termLevels levels : Nat) (id : InstructionId)
    (o : Owner) :
    Takes a termLevels levels (assembleInstruction termLevels levels id) [(o, .instruction id)]
      (InstructionAt a id) Instruction.nodeCount := by
  induction levels generalizing id o with
  | zero =>
    intro done pending s ht hfits
    obtain ⟨node, -, -, hnode, -⟩ := takeInstruction_ok hf ht
    exact absurd (hfits.meetInstruction hnode (ht.not_done hf) o).1 (Nat.lt_irrefl 0)
  | succ levels ih =>
    intro done pending s ht hfits
    obtain ⟨node, s₁, htake, hnode, ht₁⟩ := takeInstruction_ok hf ht
    have hfits₁ := (hfits.meetInstruction hnode (ht.not_done hf) o).2
    rw [listed_instruction_eq hnode, List.append_assoc] at ht₁
    obtain ⟨ts, more, s₂, hts, hat, ht₂, hsize⟩ :=
      Takes.mapM (TermsAt a) Term.nodeCounts trivial rfl And.intro (fun _ _ => rfl)
        (fun t => assembleTerm_takes hf termLevels levels t (.instruction id)) node.arguments ht₁ hfits₁
    obtain ⟨is, more', s₃, his, hbody, ht₃, hsize'⟩ :=
      Takes.mapM (InstructionsAt a) Instruction.nodeCounts trivial rfl And.intro (fun _ _ => rfl)
        (fun i => ih i (.container (.closure id))) node.body ht₂ (hfits₁.append more)
    obtain ⟨hinstruction, hcount⟩ := instructionAt_fill hnode hat hbody
    refine ⟨node.fill ts is, more' ++ (more ++ [(o, .instruction id)]), s₃, ?_, hinstruction,
      by simpa using ht₃, ?_⟩
    · rw [assembleInstruction_succ, stateT_bind_of_ok htake, stateT_bind_of_ok hts, stateT_bind_of_ok his]
      rfl
    · simp only [List.length_append, List.length_cons, List.length_nil, hsize, hsize', hcount]
      omega

theorem taken_start (a : Arena) : Taken a [] a.rootListed a.stock where
  toWalked := Walked.start a
  terms t := by cases h : a.terms[t.index]? <;> simp [stock, termNode?, term?, h]
  instructions i := by cases h : a.instructions[i.index]? <;> simp [stock, instructionNode?, instruction?, h]

theorem fits_start (a : Arena) : Fits a a.terms.size a.instructions.size [] :=
  ⟨(Finset.card_filter_le _ _).trans (by simp), (Finset.card_filter_le _ _).trans (by simp)⟩

theorem assemble_ok {a : Arena} (hf : IsForest a) :
    ∃ s done, a.assemble = .ok s ∧ a.Unfolds s ∧ Walked a done [] ∧ done.length = s.nodeCount := by
  have hstart := taken_start a
  rw [rootListed, ← List.append_nil (a.root.map _)] at hstart
  obtain ⟨is, more, s', his, hat, ht, hsize⟩ :=
    Takes.mapM (InstructionsAt a) Instruction.nodeCounts trivial rfl And.intro (fun _ _ => rfl)
      (fun i => assembleInstruction_takes hf a.terms.size a.instructions.size i (.container .script)) a.root
      hstart (fits_start a)
  refine ⟨⟨is⟩, more, ?_, hat, by simpa using ht.toWalked, ?_⟩
  · rw [assemble, StateT.run, his]
    rfl
  · exact hsize

theorem findLoose_eq_none {α : Type} {slots : Array (Slot α)} :
    slots.findIdx? (·.owner.isNone) = none ↔ ∀ i : Nat, slots[i]?.map (·.owner) ≠ some none := by
  rw [Array.findIdx?_eq_none_iff]
  constructor
  · intro h i hi
    obtain ⟨slot, hslot, howner⟩ := Option.map_eq_some_iff.1 hi
    have := h slot (Array.mem_of_getElem? hslot)
    simp [howner] at this
  · intro h slot hslot
    obtain ⟨i, hi⟩ := Array.getElem?_of_mem hslot
    have := h i
    simpa [hi, Option.isSome_iff_ne_none] using this

theorem findLoose_eq_some {α : Type} {slots : Array (Slot α)} {i : Nat}
    (h : slots.findIdx? (·.owner.isNone) = some i) :
    slots[i]?.map (·.owner) = some none ∧ ∀ j < i, slots[j]?.map (·.owner) ≠ some none := by
  obtain ⟨hi, hloose, hleast⟩ := Array.findIdx?_eq_some_iff_getElem.1 h
  refine ⟨by simpa [Array.getElem?_eq_getElem hi] using hloose, fun j hj => ?_⟩
  have := hleast j hj
  simpa [Array.getElem?_eq_getElem (hj.trans hi)] using this

inductive NamesLoose (a : Arena) : Error → Prop
  | instruction {i : InstructionId} (hi : a.owner? (.instruction i) = some none)
      (hleast : ∀ j, j.index < i.index → a.owner? (.instruction j) ≠ some none) :
      NamesLoose a (.neverAttached i)
  | term {t : TermId} (hall : ∀ i, a.owner? (.instruction i) ≠ some none)
      (ht : a.owner? (.term t) = some none)
      (hleast : ∀ u, u.index < t.index → a.owner? (.term u) ≠ some none) :
      NamesLoose a (.neverUsed t)

theorem unattached?_eq_none {a : Arena} :
    a.unattached? = none ↔ ∀ i, a.owner? (.instruction i) ≠ some none := by
  rw [unattached?, Option.map_eq_none_iff, findLoose_eq_none]
  exact ⟨fun h i => h i.index, fun h i => h ⟨i⟩⟩

theorem unused?_eq_none {a : Arena} : a.unused? = none ↔ ∀ t, a.owner? (.term t) ≠ some none := by
  rw [unused?, Option.map_eq_none_iff, findLoose_eq_none]
  exact ⟨fun h t => h t.index, fun h t => h ⟨t⟩⟩

theorem IsForest.finish_eq {a : Arena} (hf : IsForest a) (inspect : Bool) :
    a.finish inspect = a.finish false := by
  cases inspect with
  | false => rfl
  | true => simp [finish, hf.checkTree]

theorem finish_cases (a : Arena) :
    (∃ e n, a.finish false = .error e ∧ NamesLoose a e ∧ a.owner? n = some none) ∨
      (∀ n, a.owner? n ≠ some none) ∧ a.finish false = a.assemble := by
  rw [finish]
  split
  · rename_i i hi
    obtain ⟨k, hk, rfl⟩ := Option.map_eq_some_iff.1 hi
    obtain ⟨hloose, hleast⟩ := findLoose_eq_some hk
    exact .inl ⟨_, .instruction ⟨k⟩, rfl, .instruction hloose (fun j hj => hleast j.index hj), hloose⟩
  · rename_i hi
    have hall := unattached?_eq_none.1 hi
    split
    · rename_i t ht
      obtain ⟨k, hk, rfl⟩ := Option.map_eq_some_iff.1 ht
      obtain ⟨hloose, hleast⟩ := findLoose_eq_some hk
      exact .inl ⟨_, .term ⟨k⟩, rfl, .term hall hloose (fun u hu => hleast u.index hu), hloose⟩
    · rename_i ht
      refine .inr ⟨?_, rfl⟩
      rintro (i | t)
      · exact hall i
      · exact unused?_eq_none.1 ht t

theorem NamesLoose.structural {a : Arena} {e : Error} (h : NamesLoose a e) :
    (GraphQuery.Error.arena e).category = .structural := by
  cases h <;> rfl

theorem Walked.length_eq {a : Arena} {done : List (Owner × Node)} (h : Walked a done []) (hf : IsForest a)
    (howned : ∀ n, a.owner? n ≠ some none) : done.length = a.nodeCount := by
  have hperm : (done.map Prod.snd).Perm a.nodes := by
    apply (List.perm_ext_iff_of_nodup h.nodup (nodup_nodes a)).2
    intro n
    rw [mem_nodes]
    refine ⟨fun hn => ?_, h.mem_done_of_owned hf howned⟩
    obtain ⟨⟨o, m⟩, hm, rfl⟩ := List.mem_map.1 hn
    simp [h.owner? hf (List.mem_append_left _ hm)]
  have hlength := hperm.length_eq
  simpa [nodes, nodeCount] using hlength

/-- The arena after any operations can be finished exactly if every node has an owner. Its script is then the
tree of the root and has as many nodes as the arena; else the error is one of structure and names the first
node that is loose. Inspecting the tree makes no difference. -/
theorem afterAll_finish (ops : List Op) (inspect : Bool) :
    ((∃ s, (afterAll ops).finish inspect = .ok s) ↔ ∀ n, (afterAll ops).owner? n ≠ some none) ∧
      (∀ s, (afterAll ops).finish inspect = .ok s →
        (afterAll ops).Unfolds s ∧ s.nodeCount = (afterAll ops).nodeCount) ∧
      (∀ e, (afterAll ops).finish inspect = .error e →
        NamesLoose (afterAll ops) e ∧ (GraphQuery.Error.arena e).category = .structural) ∧
      (afterAll ops).finish inspect = (afterAll ops).finish (!inspect) := by
  have hf := isForest_afterAll ops
  generalize afterAll ops = a at hf
  rw [hf.finish_eq inspect, hf.finish_eq (!inspect)]
  rcases a.finish_cases with ⟨e, n, he, hnames, hn⟩ | ⟨howned, hassemble⟩
  · rw [he]
    refine ⟨⟨by simp, fun howned => absurd hn (howned n)⟩, by simp, ?_, rfl⟩
    rintro _ ⟨⟩
    exact ⟨hnames, hnames.structural⟩
  · obtain ⟨s, done, hs, hunfolds, hwalked, hlength⟩ := assemble_ok hf
    rw [hassemble, hs]
    refine ⟨⟨fun _ => howned, fun _ => ⟨s, rfl⟩⟩, ?_, by simp, rfl⟩
    rintro _ ⟨⟩
    exact ⟨hunfolds, hlength.symm.trans (hwalked.length_eq hf howned)⟩

end GraphQuery.Arena
