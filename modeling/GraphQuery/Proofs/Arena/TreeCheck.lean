import GraphQuery.Proofs.Arena.Walk
import GraphQuery.Proofs.Loop
import Mathlib

/-!
What the check of an arena decides, for arenas of any kind: from the root on, every node exists, is listed once and
records the owner that lists it. The check ends also where nodes are shared or contain themselves, since it never goes
on from a node that it has seen.
-/

namespace GraphQuery.Arena

inductive Reached (a : Arena) : Node → Prop
  | root {n : Node} (hn : n ∈ a.held (.container .script)) : Reached a n
  | listed {o : Owner} {m n : Node} (hm : Reached a m) (ho : o.node? = some m) (hn : n ∈ a.held o) : Reached a n

def Live (a : Arena) (o : Owner) : Prop :=
  ∀ m, o.node? = some m → a.Reached m

/-- From the root on, every node exists, stands at one place of one list, and records the owner of that list. -/
structure IsRootedTree (a : Arena) : Prop where
  known : ∀ n, a.Reached n → (a.owner? n).isSome
  once : ∀ n, a.Reached n → ∃! place : Owner × Nat, a.Live place.1 ∧ (a.held place.1)[place.2]? = some n
  owned : ∀ n o, a.Reached n → a.Live o → n ∈ a.held o → a.owner? n = some (some o)

section Lists

variable {a : Arena} {o : Owner} {m n : Node}

theorem mem_rootListed : (o, n) ∈ a.rootListed ↔ o.node? = none ∧ n ∈ a.held o := by
  rw [← List.count_pos_iff, count_rootListed, ← List.count_pos_iff]
  split <;> simp [*]

theorem mem_listed : (o, n) ∈ a.listed m ↔ o.node? = some m ∧ n ∈ a.held o := by
  rw [← List.count_pos_iff, count_listed, ← List.count_pos_iff]
  split <;> simp [*]

theorem Owner.eq_script (ho : o.node? = none) : o = .container .script := by
  rcases o with (_ | t) | t | t
  · rfl
  all_goals cases ho

theorem Live.reached (ho : a.Live o) (hn : n ∈ a.held o) : a.Reached n := by
  cases hm : o.node? with
  | none =>
    rw [Owner.eq_script hm] at hn
    exact .root hn
  | some m => exact .listed (ho m hm) hm hn

theorem Reached.exists_live (h : a.Reached n) : ∃ o, a.Live o ∧ n ∈ a.held o := by
  cases h with
  | root hn =>
    refine ⟨.container .script, fun m hm => ?_, hn⟩
    cases hm
  | listed hm ho hn =>
    refine ⟨_, fun m' hm' => ?_, hn⟩
    rw [ho] at hm'
    cases hm'
    exact hm

theorem IsRootedTree.count_le_one (h : IsRootedTree a) (ho : a.Live o) (hn : n ∈ a.held o) :
    (a.held o).count n ≤ 1 := by
  by_contra hcount
  have hduplicate : List.Duplicate n (a.held o) := List.duplicate_iff_two_le_count.2 (by omega)
  obtain ⟨i, j, hlt, hi, hj⟩ := List.duplicate_iff_exists_distinct_get.1 hduplicate
  have hplace : ∀ k : Fin (a.held o).length, n = (a.held o).get k → (a.held o)[k.val]? = some n := by
    intro k hk
    rw [hk]
    exact List.getElem?_eq_getElem k.isLt
  have hsame : (o, i.val) = (o, j.val) :=
    (h.once n (ho.reached hn)).unique ⟨ho, hplace i hi⟩ ⟨ho, hplace j hj⟩
  exact Nat.ne_of_lt hlt (Prod.mk.inj hsame).2

end Lists

structure Checked (a : Arena) (done pending : List (Owner × Node)) : Prop extends Walked a done pending where
  reached : ∀ m ∈ done.map Prod.snd, a.Reached m
  owned : ∀ x ∈ done, a.owner? x.2 = some (some x.1)

namespace Checked

variable {a : Arena} {done pending : List (Owner × Node)} {o : Owner} {n : Node}

theorem start (a : Arena) : Checked a [] a.rootListed :=
  ⟨Walked.start a, by simp, by simp⟩

theorem live (h : Checked a done pending) (hmem : (o, n) ∈ done ++ pending) : a.Live o := by
  intro m hm
  rcases List.mem_append.1 (h.perm.mem_iff.1 hmem) with hroot | hlisted
  · rw [mem_rootListed, hm] at hroot
    cases hroot.1
  · obtain ⟨m', hm', hmem'⟩ := List.mem_flatMap.1 hlisted
    rw [mem_listed, hm] at hmem'
    cases hmem'.1
    exact h.reached m hm'

theorem next (h : Checked a done ((o, n) :: pending)) (hn : n ∉ done.map Prod.snd)
    (howner : a.owner? n = some (some o)) : Checked a ((o, n) :: done) (a.listed n ++ pending) := by
  have hmem : (o, n) ∈ done ++ (o, n) :: pending := List.mem_append_right _ List.mem_cons_self
  refine ⟨h.visit hn, ?_, ?_⟩
  · rw [List.map_cons, List.forall_mem_cons]
    exact ⟨(h.live hmem).reached (h.mem_held hmem), h.reached⟩
  · rw [List.forall_mem_cons]
    exact ⟨howner, h.owned⟩

theorem ahead (h : Checked a done ((o, n) :: pending)) (ht : IsRootedTree a) :
    a.owner? n = some (some o) ∧ n ∉ done.map Prod.snd := by
  have hmem : (o, n) ∈ done ++ (o, n) :: pending := List.mem_append_right _ List.mem_cons_self
  have ho := h.live hmem
  have hheld := h.mem_held hmem
  have howner := ht.owned n o (ho.reached hheld) ho hheld
  refine ⟨howner, fun hdone => ?_⟩
  obtain ⟨p, hp⟩ : ∃ p, (p, n) ∈ done := by simpa using hdone
  obtain rfl : o = p := by simpa using howner.symm.trans (h.owned _ hp)
  -- met before and ahead, the node stands twice in one list
  have hle := h.count_le (o := o) (n := n)
  rw [List.count_append, List.count_cons_self] at hle
  have hpos : 0 < done.count (o, n) := List.count_pos_iff.2 hp
  have hone := ht.count_le_one ho hheld
  omega

theorem count_done (h : Checked a done []) (ho : ∀ m, o.node? = some m → m ∈ done.map Prod.snd) :
    done.count (o, n) = (a.held o).count n := by
  have hperm := h.perm.count_eq (o, n)
  rw [List.append_nil, List.count_append, count_rootListed, count_flatMap_listed a o n h.nodup] at hperm
  cases hm : o.node? with
  | none => rw [hperm, hm, if_pos rfl, if_neg (by simp), Nat.add_zero]
  | some m => rw [hperm, hm, if_neg (by simp), if_pos (List.mem_map_of_mem (ho m hm)), Nat.zero_add]

theorem mem_done (h : Checked a done []) (ho : ∀ m, o.node? = some m → m ∈ done.map Prod.snd)
    (hn : n ∈ a.held o) : (o, n) ∈ done := by
  rw [← List.count_pos_iff, h.count_done ho, List.count_pos_iff]
  exact hn

theorem done_of_reached (h : Checked a done []) (hn : a.Reached n) : n ∈ done.map Prod.snd := by
  induction hn with
  | root hn =>
    have hmem := h.mem_done (fun m hm => by cases hm) hn
    exact List.mem_map_of_mem (f := Prod.snd) hmem
  | listed _ ho hn ih =>
    have hmem := h.mem_done (fun m hm => by rw [ho] at hm; cases hm; exact ih) hn
    exact List.mem_map_of_mem (f := Prod.snd) hmem

theorem nodup_held (h : Checked a done []) (ho : a.Live o) : (a.held o).Nodup := by
  rw [List.nodup_iff_count_le_one]
  intro n
  rw [← h.count_done fun m hm => h.done_of_reached (ho m hm)]
  exact List.nodup_iff_count_le_one.1 (List.Nodup.of_map _ h.nodup) (o, n)

theorem isRootedTree (h : Checked a done []) : IsRootedTree a := by
  have howned : ∀ n o, a.Live o → n ∈ a.held o → a.owner? n = some (some o) := by
    intro n o ho hn
    exact h.owned _ (h.mem_done (fun m hm => h.done_of_reached (ho m hm)) hn)
  refine ⟨fun n hn => ?_, fun n hn => ?_, fun n o _ => howned n o⟩
  · obtain ⟨o, ho, hheld⟩ := hn.exists_live
    rw [howned n o ho hheld]
    rfl
  · obtain ⟨o, ho, hheld⟩ := hn.exists_live
    obtain ⟨i, hi⟩ := List.mem_iff_getElem?.1 hheld
    refine ⟨(o, i), ⟨ho, hi⟩, ?_⟩
    rintro ⟨p, j⟩ ⟨hp, hj⟩
    have hsame := (howned n p hp (List.mem_of_getElem? hj)).symm.trans (howned n o ho hheld)
    obtain rfl : p = o := by simpa using hsame
    have hlt := (List.getElem?_eq_some_iff.1 hi).1
    rw [(List.getElem?_inj hlt (h.nodup_held ho)).1 (hi.trans hj.symm)]

end Checked

theorem checkFrom_ok_iff {a : Arena} {unseen : List Node} {done stack : List (Owner × Node)}
    (h : Checked a done stack) (hnodup : unseen.Nodup)
    (hunseen : ∀ n, n ∈ unseen ↔ (a.owner? n).isSome ∧ n ∉ done.map Prod.snd) :
    checkFrom a unseen stack = .ok () ↔ IsRootedTree a := by
  induction unseen, stack using checkFrom.induct a generalizing done with
  | case1 unseen =>
    rw [checkFrom]
    exact iff_of_true rfl h.isRootedTree
  | case2 unseen parent node stack hnone =>
    rw [checkFrom, hnone]
    refine iff_of_false (by simp) fun ht => ?_
    have hahead := (h.ahead ht).1
    rw [hnone] at hahead
    cases hahead
  | case3 unseen parent node stack hmem hrecorded ih =>
    rw [checkFrom]
    simp only [hrecorded, hmem, dite_true, if_true]
    apply ih (h.next ((hunseen node).1 hmem).2 hrecorded) (hnodup.erase node)
    intro n
    rw [hnodup.mem_erase_iff, hunseen, List.map_cons, List.mem_cons, not_or, and_left_comm]
  | case4 unseen parent node stack recorded hrecorded hmem hparent =>
    rw [checkFrom]
    simp only [hrecorded, hmem, dite_true, hparent, if_false]
    refine iff_of_false (by simp) fun ht => hparent ?_
    have hahead := (h.ahead ht).1
    rw [hrecorded] at hahead
    exact Option.some.inj hahead
  | case5 unseen parent node stack recorded hrecorded hmem =>
    rw [checkFrom]
    simp only [hrecorded, hmem, dite_false]
    refine iff_of_false (by simp) fun ht => hmem ?_
    exact (hunseen node).2 ⟨by simp [hrecorded], (h.ahead ht).2⟩

section Rounds

structure Checking where
  seenInstructions : Array Bool
  seenTerms : Array Bool
  stack : Array (Owner × Node)

namespace Checking

def seen (c : Checking) : Node → Bool
  | .instruction id => c.seenInstructions.getD id.index false
  | .term id => c.seenTerms.getD id.index false

def mark (c : Checking) : Node → Checking
  | .instruction id => { c with seenInstructions := c.seenInstructions.setIfInBounds id.index true }
  | .term id => { c with seenTerms := c.seenTerms.setIfInBounds id.index true }

end Checking

def checkTop (a : Arena) (c : Checking) : Checking ⊕ Except Error Unit :=
  match c.stack.back? with
  | none => .inr (.ok ())
  | some (parent, node) =>
    match a.owner? node with
    | none => .inr (.error (.unknown node))
    | some recorded =>
      if c.seen node then .inr (.error (.reachedTwice node))
      else if recorded = some parent then
        .inl { c.mark node with stack := (a.listed node).reverse.foldl Array.push c.stack.pop }
      else .inr (.error (.wrongOwner node parent recorded))

def checkingRoot (a : Arena) : Checking where
  seenInstructions := Array.replicate a.instructions.size false
  seenTerms := Array.replicate a.terms.size false
  stack := a.rootListed.reverse.toArray

structure Tracks (a : Arena) (unseen : List Node) (c : Checking) : Prop where
  instructions : c.seenInstructions.size = a.instructions.size
  terms : c.seenTerms.size = a.terms.size
  nodup : unseen.Nodup
  mem_iff : ∀ n, n ∈ unseen ↔ (a.owner? n).isSome ∧ c.seen n = false

variable {a : Arena} {c : Checking} {unseen : List Node} {o : Owner} {n : Node}

theorem getD_setIfInBounds {flags : Array Bool} {i : Nat} (hi : i < flags.size) (j : Nat) :
    (flags.setIfInBounds i true).getD j false = (decide (j = i) || flags.getD j false) := by
  rw [Array.getD_eq_getD_getElem?, Array.getElem?_setIfInBounds, Array.getD_eq_getD_getElem?]
  by_cases hj : j = i
  · simp [hj, hi]
  · simp [hj, Ne.symm hj]

theorem Tracks.seen_mark (h : Tracks a unseen c) (hn : n ∈ unseen) (m : Node) :
    (c.mark n).seen m = (decide (m = n) || c.seen m) := by
  have hknown := ((h.mem_iff n).1 hn).1
  cases n with
  | instruction id =>
    cases m with
    | instruction id' =>
      have hid : id.index < c.seenInstructions.size := by
        rw [h.instructions]
        simpa [owner?, instruction?] using hknown
      have heq : id' = id ↔ id'.index = id.index := by cases id; cases id'; simp
      simpa [Checking.mark, Checking.seen, heq] using getD_setIfInBounds hid id'.index
    | term id' => rfl
  | term id =>
    cases m with
    | instruction id' => rfl
    | term id' =>
      have hid : id.index < c.seenTerms.size := by
        rw [h.terms]
        simpa [owner?, term?] using hknown
      have heq : id' = id ↔ id'.index = id.index := by cases id; cases id'; simp
      simpa [Checking.mark, Checking.seen, heq] using getD_setIfInBounds hid id'.index

theorem Tracks.next (h : Tracks a unseen c) (hn : n ∈ unseen) (stack : Array (Owner × Node)) :
    Tracks a (unseen.erase n) { c.mark n with stack } := by
  have hseen : ∀ m, Checking.seen { c.mark n with stack } m = (decide (m = n) || c.seen m) := by
    intro m
    rw [← h.seen_mark hn m]
    cases m <;> rfl
  refine ⟨?_, ?_, h.nodup.erase n, fun m => ?_⟩
  · cases n <;> simp [Checking.mark, h.instructions]
  · cases n <;> simp [Checking.mark, h.terms]
  · rw [h.nodup.mem_erase_iff, h.mem_iff, hseen]
    simp [and_left_comm]

theorem tracks_checkingRoot (a : Arena) : Tracks a a.nodes a.checkingRoot := by
  refine ⟨by simp [checkingRoot], by simp [checkingRoot], a.nodup_nodes, fun n => ?_⟩
  have hflag : ∀ size i : Nat, (Array.replicate size false).getD i false = false := by
    intro size i
    rw [Array.getD_eq_getD_getElem?, Array.getElem?_replicate]
    split <;> rfl
  have hseen : a.checkingRoot.seen n = false := by cases n <;> exact hflag _ _
  simp [mem_nodes, hseen]

theorem endsAfter_checkTop {todo : List (Owner × Node)} (h : Tracks a unseen c)
    (htodo : c.stack.toList.reverse = todo) :
    ∃ k ≤ unseen.length, EndsAfter a.checkTop k c (checkFrom a unseen todo) := by
  induction unseen, todo using checkFrom.induct a generalizing c with
  | case1 unseen =>
    have hempty : c.stack.back? = none := by simpa using htodo
    refine ⟨0, Nat.zero_le _, .stop ?_⟩
    rw [checkTop, hempty, checkFrom]
  | case2 unseen parent node stack hnone =>
    refine ⟨0, Nat.zero_le _, .stop ?_⟩
    rw [checkTop, back?_of_reverse htodo, checkFrom]
    simp only [hnone]
  | case3 unseen parent node stack hmem hrecorded ih =>
    have hseen := ((h.mem_iff node).1 hmem).2
    have hround : a.checkTop c =
        .inl { c.mark node with stack := (a.listed node).reverse.foldl Array.push c.stack.pop } := by
      rw [checkTop, back?_of_reverse htodo]
      simp [hrecorded, hseen]
    obtain ⟨k, hk, hends⟩ := ih (h.next hmem _) (by rw [reverse_pushes, reverse_pop htodo])
    have hpos := List.length_pos_of_mem hmem
    rw [List.length_erase_of_mem hmem] at hk
    refine ⟨k + 1, by omega, .again hround ?_⟩
    rw [checkFrom]
    simpa only [hrecorded, hmem, dite_true, if_true] using hends
  | case4 unseen parent node stack recorded hrecorded hmem hparent =>
    refine ⟨0, Nat.zero_le _, .stop ?_⟩
    rw [checkTop, back?_of_reverse htodo, checkFrom]
    have hseen := ((h.mem_iff node).1 hmem).2
    simp [hrecorded, hmem, hparent, hseen]
  | case5 unseen parent node stack recorded hrecorded hmem =>
    refine ⟨0, Nat.zero_le _, .stop ?_⟩
    have hseen : c.seen node = true := by
      by_contra hnot
      exact hmem ((h.mem_iff node).2 ⟨by simp [hrecorded], by simpa using hnot⟩)
    rw [checkTop, back?_of_reverse htodo, checkFrom]
    simp [hrecorded, hmem, hseen]

end Rounds

theorem length_nodes (a : Arena) : a.nodes.length = a.nodeCount := by
  simp [nodes, nodeCount]

/-- For an arena of any kind, the check goes on at most once for each node and then ends. It succeeds if and only if,
from the root on, every node exists, stands at one place of one list, and records the owner of that list. -/
theorem checkTree_exact (a : Arena) :
    (∃ k ≤ a.nodeCount, EndsAfter a.checkTop k a.checkingRoot a.checkTree) ∧
      (a.checkTree = .ok () ↔ IsRootedTree a) := by
  constructor
  · rw [← length_nodes, checkTree]
    exact endsAfter_checkTop a.tracks_checkingRoot (by simp [checkingRoot])
  · apply checkFrom_ok_iff (Checked.start a) a.nodup_nodes
    intro n
    simp [mem_nodes]

end GraphQuery.Arena
