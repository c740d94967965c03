import GraphQuery.Proofs.Arena.Forest
import Mathlib.Data.List.Perm.Basic

namespace GraphQuery.Arena

open Relation

theorem listed_instruction (a : Arena) (id : InstructionId) :
    a.listed (.instruction id) =
      (a.held (.container (.closure id))).map (Prod.mk (.container (.closure id))) ++
        (a.held (.instruction id)).map (Prod.mk (.instruction id)) := by
  rw [listed, held_closure, held_instruction]
  rcases a.instruction? id with _ | ⟨_ | _ | _, _⟩ <;>
    simp [InstructionNode.body, InstructionNode.arguments]

theorem listed_term (a : Arena) (id : TermId) :
    a.listed (.term id) = (a.held (.term id)).map (Prod.mk (.term id)) := by
  rw [listed, held_term]
  rcases a.term? id with _ | _ <;> simp

theorem rootListed_eq (a : Arena) :
    a.rootListed = (a.held (.container .script)).map (Prod.mk (.container .script)) := by
  simp [rootListed, held_script]

theorem count_map_mk (o p : Owner) (n : Node) (ns : List Node) :
    (ns.map (Prod.mk p)).count (o, n) = if o = p then ns.count n else 0 := by
  by_cases h : o = p
  · subst h
    rw [if_pos rfl]
    exact List.count_map_of_injective ns _ (fun _ _ he => (Prod.mk.inj he).2) n
  · rw [if_neg h]
    apply List.count_eq_zero.2
    simp [Ne.symm h]

theorem count_rootListed (a : Arena) (o : Owner) (n : Node) :
    a.rootListed.count (o, n) = if o.node? = none then (a.held o).count n else 0 := by
  rw [rootListed_eq, count_map_mk]
  rcases o with (_ | t) | t | t <;> simp [Owner.node?]

theorem count_listed (a : Arena) (o : Owner) (m n : Node) :
    (a.listed m).count (o, n) = if o.node? = some m then (a.held o).count n else 0 := by
  cases m with
  | instruction id =>
    rw [listed_instruction, List.count_append, count_map_mk, count_map_mk]
    rcases o with (_ | t) | t | t
    · simp [Owner.node?]
    · by_cases ht : t = id <;> simp [Owner.node?, ht]
    · by_cases ht : t = id <;> simp [Owner.node?, ht]
    · simp [Owner.node?]
  | term id =>
    rw [listed_term, count_map_mk]
    rcases o with (_ | t) | t | t
    · simp [Owner.node?]
    · simp [Owner.node?]
    · simp [Owner.node?]
    · by_cases ht : t = id <;> simp [Owner.node?, ht]

theorem count_flatMap_listed (a : Arena) (o : Owner) (n : Node) {ms : List Node} (hms : ms.Nodup) :
    (ms.flatMap a.listed).count (o, n) = if o.node? ∈ ms.map some then (a.held o).count n else 0 := by
  induction ms with
  | nil => simp
  | cons m ms ih =>
    obtain ⟨hm, hms⟩ := List.nodup_cons.1 hms
    rw [List.flatMap_cons, List.count_append, ih hms, count_listed]
    by_cases ho : o.node? = some m
    · simp [ho, hm]
    · simp [ho]

theorem owner?_isSome_of_held {a : Arena} {o : Owner} {p : Node} (hp : o.node? = some p)
    (ho : a.held o ≠ []) : (a.owner? p).isSome := by
  rcases o with (_ | t) | t | t
  · simp [Owner.node?] at hp
  · obtain rfl : p = .instruction t := by simpa [Owner.node?, eq_comm] using hp
    cases hs : a.instruction? t <;> simp_all [held_closure, owner?]
  · obtain rfl : p = .instruction t := by simpa [Owner.node?, eq_comm] using hp
    cases hs : a.instruction? t <;> simp_all [held_instruction, owner?]
  · obtain rfl : p = .term t := by simpa [Owner.node?, eq_comm] using hp
    cases hs : a.term? t <;> simp_all [held_term, owner?]

/-- A walk that has met the nodes of `done`, each from the owner given with it, and has `pending` ahead. -/
structure Walked (a : Arena) (done pending : List (Owner × Node)) : Prop where
  nodup : (done.map Prod.snd).Nodup
  perm : (done ++ pending).Perm (a.rootListed ++ (done.map Prod.snd).flatMap a.listed)

namespace Walked

variable {a : Arena} {done pending : List (Owner × Node)} {o : Owner} {n : Node}

theorem start (a : Arena) : Walked a [] a.rootListed := ⟨List.nodup_nil, by simp⟩

theorem count_le (h : Walked a done pending) : (done ++ pending).count (o, n) ≤ (a.held o).count n := by
  rw [h.perm.count_eq, List.count_append, count_rootListed, count_flatMap_listed a o n h.nodup]
  cases o.node? with
  | none => simp
  | some m =>
    simp only [reduceCtorEq, if_false, Nat.zero_add]
    split <;> omega

theorem mem_held (h : Walked a done pending) (hmem : (o, n) ∈ done ++ pending) : n ∈ a.held o := by
  apply List.count_pos_iff.1
  exact (List.count_pos_iff.2 hmem).trans_le h.count_le

theorem owner? (h : Walked a done pending) (hf : IsForest a) (hmem : (o, n) ∈ done ++ pending) :
    a.owner? n = some (some o) :=
  hf.owner?_of_mem (h.mem_held hmem)

theorem not_done (h : Walked a done ((o, n) :: pending)) (hf : IsForest a) : n ∉ done.map Prod.snd := by
  intro hmem
  obtain ⟨⟨p, m⟩, hp, hm⟩ := List.mem_map.1 hmem
  subst hm
  have hn := h.owner? hf (List.mem_append_right _ List.mem_cons_self)
  have hn' := h.owner? hf (List.mem_append_left _ hp)
  obtain rfl : o = p := by simpa using hn.symm.trans hn'
  have hle := h.count_le (o := o) (n := m)
  rw [hf.listed, if_pos hn, List.count_append, List.count_cons_self] at hle
  have hpos : 0 < done.count (o, m) := List.count_pos_iff.2 hp
  omega

theorem visit (h : Walked a done ((o, n) :: pending)) (hn : n ∉ done.map Prod.snd) :
    Walked a ((o, n) :: done) (a.listed n ++ pending) := by
  refine ⟨List.nodup_cons.2 ⟨hn, h.nodup⟩, ?_⟩
  rw [List.perm_iff_count]
  intro x
  have hx := h.perm.count_eq x
  simp only [List.map_cons, List.flatMap_cons, List.count_append, List.count_cons] at hx ⊢
  omega

theorem next (h : Walked a done ((o, n) :: pending)) (hf : IsForest a) :
    Walked a ((o, n) :: done) (a.listed n ++ pending) :=
  h.visit (h.not_done hf)

theorem mem_done (h : Walked a done []) (hf : IsForest a) (hn : a.owner? n = some (some o))
    (ho : o.node? = none ∨ o.node? ∈ (done.map Prod.snd).map some) : n ∈ done.map Prod.snd := by
  have hperm := h.perm.count_eq (o, n)
  rw [List.append_nil, List.count_append, count_rootListed, count_flatMap_listed a o n h.nodup, hf.listed,
    if_pos hn] at hperm
  have hpos : 0 < done.count (o, n) := by
    rcases ho with ho | ho
    · simp [ho] at hperm
      omega
    · rw [if_pos ho] at hperm
      omega
  exact List.mem_map.2 ⟨_, List.count_pos_iff.1 hpos, rfl⟩

theorem mem_done_of_owned (h : Walked a done []) (hf : IsForest a)
    (howned : ∀ n, a.owner? n ≠ some none) (hn : (a.owner? n).isSome) : n ∈ done.map Prod.snd := by
  induction hf.ends n with
  | intro n _ ih =>
    obtain ⟨_ | o, ho⟩ := Option.isSome_iff_exists.1 hn
    · exact absurd ho (howned n)
    · apply h.mem_done hf ho
      cases hp : o.node? with
      | none => exact .inl rfl
      | some p =>
        refine .inr (List.mem_map_of_mem ?_)
        exact ih p ⟨o, ho, hp⟩ (owner?_isSome_of_held hp (List.ne_nil_of_mem (hf.mem_of_owner? ho)))

end Walked

theorem mem_nodes {a : Arena} {n : Node} : n ∈ a.nodes ↔ (a.owner? n).isSome := by
  cases n with
  | instruction i =>
    obtain ⟨k⟩ := i
    simp [nodes, owner?, instruction?]
  | term t =>
    obtain ⟨k⟩ := t
    simp [nodes, owner?, term?]

theorem nodup_nodes (a : Arena) : a.nodes.Nodup := by
  refine List.nodup_append.2 ⟨List.nodup_range.map ?_, List.nodup_range.map ?_, ?_⟩
  · intro i j hij
    simpa using hij
  · intro i j hij
    simpa using hij
  · simp

theorem checkFrom_ok {a : Arena} {unseen : List Node} {done stack : List (Owner × Node)} (hf : IsForest a)
    (hw : Walked a done stack) (hu : ∀ n, (a.owner? n).isSome → n ∉ done.map Prod.snd → n ∈ unseen) :
    checkFrom a unseen stack = .ok () := by
  induction unseen, stack using checkFrom.induct a generalizing done with
  | case1 unseen => rw [checkFrom]
  | case2 unseen parent node stack hnone =>
    have := hw.owner? hf (List.mem_append_right _ List.mem_cons_self)
    rw [hnone] at this
    cases this
  | case3 unseen parent node stack hmem hrecorded ih =>
    rw [checkFrom]
    simp only [hrecorded, hmem, dite_true, if_true]
    apply ih (hw.next hf)
    intro n hn hdone
    rw [List.map_cons, List.mem_cons, not_or] at hdone
    exact (List.mem_erase_of_ne hdone.1).2 (hu n hn hdone.2)
  | case4 unseen parent node stack recorded hrecorded hmem hparent =>
    have := hw.owner? hf (List.mem_append_right _ List.mem_cons_self)
    rw [hrecorded] at this
    exact absurd (Option.some.inj this) hparent
  | case5 unseen parent node stack recorded hrecorded hmem =>
    exact absurd (hu node (by simp [hrecorded]) (hw.not_done hf)) hmem

theorem IsForest.checkTree {a : Arena} (hf : IsForest a) : a.checkTree = .ok () :=
  checkFrom_ok hf (Walked.start a) (fun _ hn _ => mem_nodes.2 hn)

/-- After any operations, performed or refused, every node is listed by the owner that it records and there
once, no other node is listed anywhere, following owners never leads back, and the check of the arena
succeeds. -/
theorem afterAll_isTree (ops : List Op) :
    (∀ o n, ((afterAll ops).held o).count n = if (afterAll ops).owner? n = some (some o) then 1 else 0) ∧
      (∀ n, ¬ TransGen (afterAll ops).Under n n) ∧
      (afterAll ops).checkTree = .ok () := by
  have hf := isForest_afterAll ops
  exact ⟨hf.listed, hf.acyclic, hf.checkTree⟩

end GraphQuery.Arena
