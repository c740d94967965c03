import GraphQuery.Proofs.Arena.Ancestors
import GraphQuery.Proofs.Arena.Changes

/-!
Whatever operations are performed, an arena stays a forest: every node is listed once, by the owner that it
records, and following owners always ends.
-/

namespace GraphQuery.Arena

open Relation

def Under (a : Arena) (n p : Node) : Prop :=
  ∃ o, a.owner? n = some (some o) ∧ o.node? = some p

structure IsForest (a : Arena) : Prop where
  listed : ∀ o n, (a.held o).count n = if a.owner? n = some (some o) then 1 else 0
  ends : ∀ n, Acc (fun p n => a.Under n p) n

namespace IsForest

variable {a a' : Arena}

theorem owner?_of_mem (h : IsForest a) {o : Owner} {n : Node} (hn : n ∈ a.held o) :
    a.owner? n = some (some o) := by
  by_contra hne
  have hcount := h.listed o n
  rw [if_neg hne] at hcount
  exact List.count_eq_zero.1 hcount hn

theorem mem_of_owner? (h : IsForest a) {o : Owner} {n : Node} (hn : a.owner? n = some (some o)) :
    n ∈ a.held o := by
  apply List.count_pos_iff.1
  rw [h.listed, if_pos hn]
  exact Nat.one_pos

theorem acyclic (h : IsForest a) (n : Node) : ¬ TransGen a.Under n n := by
  induction h.ends n with
  | intro n _ ih =>
    intro hcycle
    obtain ⟨p, hp, hback⟩ := TransGen.head'_iff.1 hcycle
    exact ih p hp (TransGen.tail' hback hp)

theorem grown (h : IsForest a) {n : Node} {o : Owner} {below : List Node} (hg : Grown a n o below a') :
    IsForest a' := by
  have hnot : ∀ x, a.owner? x ≠ some (some o) := by
    intro x hx
    have := h.mem_of_owner? hx
    simp [hg.unlisted] at this
  refine ⟨fun p x => ?_, ?_⟩
  · rw [hg.held, hg.owner? x]
    by_cases hp : p = o
    · subst hp
      rw [if_pos rfl]
      by_cases hx : x ∈ below
      · have hxn : x ≠ n := by
          rintro rfl
          simpa [hg.fresh] using hg.free x hx
        simp [hxn, hx, List.count_eq_one_of_mem hg.nodup hx]
      · by_cases hxn : x = n
        · simp [hxn, List.count_eq_zero.2 (hxn ▸ hx)]
        · simp [hxn, hx, List.count_eq_zero.2 hx, hnot x]
    · rw [if_neg hp, h.listed p x]
      by_cases hxn : x = n
      · simp [hxn, hg.fresh]
      · by_cases hx : x ∈ below
        · simp [hxn, hx, hg.free x hx, Ne.symm hp]
        · simp [hxn, hx]
  · have htop : Acc (fun p n => a'.Under n p) n := by
      refine ⟨_, ?_⟩
      rintro p ⟨q, hq, -⟩
      simp [hg.owner? n] at hq
    intro x
    induction h.ends x with
    | intro x _ ih =>
      refine ⟨_, ?_⟩
      rintro p ⟨q, hq, hp⟩
      rw [hg.owner? x] at hq
      split at hq
      · simp at hq
      · split at hq
        · cases hq
          rw [hg.part] at hp
          cases hp
          exact htop
        · exact ih p ⟨q, hq, hp⟩

theorem same (h : IsForest a) (howner : ∀ x, a'.owner? x = a.owner? x) (hheld : ∀ p, a'.held p = a.held p) :
    IsForest a' := by
  refine ⟨fun o n => ?_, ?_⟩
  · rw [hheld, howner]
    exact h.listed o n
  · have hunder : a'.Under = a.Under := by
      funext n p
      simp only [Under, howner]
    rw [hunder]
    exact h.ends

theorem acc_ownedBy (h : IsForest a) (x : InstructionId) : Acc (fun p x => a.OwnedBy x p) x := by
  have hunder : ∀ {p y}, a.OwnedBy y p → a.Under (.instruction y) (.instruction p) := fun hp => ⟨_, hp, rfl⟩
  exact Subrelation.accessible hunder (InvImage.accessible Node.instruction (h.ends _))

theorem under_instruction (h : IsForest a) {x : InstructionId} {p : Node} (hp : a.Under (.instruction x) p) :
    ∃ t, p = .instruction t ∧ a.OwnedBy x t := by
  obtain ⟨o, ho, hop⟩ := hp
  have hmem := h.mem_of_owner? ho
  rcases o with (_ | t) | t | t
  · simp [Owner.node?] at hop
  · exact ⟨t, by simpa [Owner.node?, eq_comm] using hop, ho⟩
  · simp [held] at hmem
  · simp [held] at hmem

theorem ownedBy_of_path (h : IsForest a) {x : InstructionId} {n : Node}
    (hpath : ReflTransGen a.Under (.instruction x) n) : ∃ y, n = .instruction y ∧ ReflTransGen a.OwnedBy x y := by
  induction hpath with
  | refl => exact ⟨x, rfl, .refl⟩
  | tail _ hp ih =>
    obtain ⟨y, rfl, hy⟩ := ih
    obtain ⟨t, rfl, ht⟩ := h.under_instruction hp
    exact ⟨t, rfl, hy.tail ht⟩

theorem isWithin_of_path (h : IsForest a) {top x : InstructionId}
    (hpath : ReflTransGen a.Under (.instruction x) (.instruction top)) : a.isWithin x top = true := by
  obtain ⟨y, heq, hy⟩ := h.ownedBy_of_path hpath
  cases heq
  exact (isWithin_iff_ownedBy (h.acc_ownedBy x)).2 hy

theorem hung (h : IsForest a) {c : Container} {i : InstructionId} (hh : Hung a c i a') : IsForest a' := by
  refine ⟨fun o n => ?_, ?_⟩
  · rw [hh.held, hh.owner? n]
    by_cases ho : o = .container c
    · subst ho
      rw [if_pos rfl, List.count_append, h.listed]
      by_cases hn : n = .instruction i
      · simp [hn, hh.free]
      · simp [hn, Ne.symm hn]
    · rw [if_neg ho, h.listed]
      by_cases hn : n = .instruction i
      · simp [hn, hh.free, Ne.symm ho]
      · simp [hn]
  · have hup : ∀ {n p}, a'.Under n p → a.Under n p ∨
        (n = .instruction i ∧ ∃ t, c = .closure t ∧ p = .instruction t) := by
      rintro n p ⟨o, ho, hp⟩
      rw [hh.owner? n] at ho
      split at ho
      · rename_i hn
        cases ho
        cases c with
        | script => simp [Owner.node?] at hp
        | closure t => exact .inr ⟨hn, t, rfl, by simpa [Owner.node?, eq_comm] using hp⟩
      · exact .inl ⟨o, ho, hp⟩
    have htarget : ∀ t, c = .closure t → ∀ y, ReflTransGen a.Under (.instruction t) y →
        Acc (fun p n => a'.Under n p) y := by
      intro t ht y
      induction h.ends y with
      | intro y _ ih =>
        intro hy
        refine ⟨_, fun p hp => ?_⟩
        rcases hup hp with hp | ⟨rfl, -⟩
        · exact ih p hp (hy.tail hp)
        · have := h.isWithin_of_path hy
          rw [hh.apart t ht] at this
          cases this
    intro x
    induction h.ends x with
    | intro x _ ih =>
      refine ⟨_, fun p hp => ?_⟩
      rcases hup hp with hp | ⟨rfl, t, ht, rfl⟩
      · exact ih p hp
      · exact htarget t ht _ .refl

theorem after (h : IsForest a) (op : Op) : IsForest (a.after op) := by
  cases a.after_change op with
  | grown hg => exact h.grown hg
  | hung hh => exact h.hung hh
  | same howner hheld => exact h.same howner hheld

end IsForest

theorem isForest_empty : IsForest {} := by
  have howner : ∀ n, ({} : Arena).owner? n = none := by
    intro n
    cases n <;> simp [owner?, instruction?, term?]
  refine ⟨fun o n => ?_, fun n => ⟨_, ?_⟩⟩
  · rcases o with (_ | t) | t | t <;> simp [howner, held, children, closure?, instruction?, term?, Except.map]
  · rintro p ⟨o, ho, -⟩
    simp [howner] at ho

def afterAll (ops : List Op) : Arena :=
  ops.foldl after {}

theorem isForest_afterAll (ops : List Op) : IsForest (afterAll ops) := by
  have h : ∀ a, IsForest a → IsForest (ops.foldl after a) := by
    induction ops with
    | nil => exact fun a ha => ha
    | cons op ops ih => exact fun a ha => ih _ (ha.after op)
  exact h _ isForest_empty

/-- After any operations, performed or refused, and for any two numbers of instructions: the search for an ancestor ends
after at most one round more than there are instructions, and finds it if and only if recorded closures lead to it. -/
theorem afterAll_isWithin (ops : List Op) (x top : InstructionId) :
    (∃ k, k + 1 ≤ (afterAll ops).instructions.size + 1 ∧ ∀ j found,
        EndsAfter ((afterAll ops).climb top) j x found ↔ j = k ∧ found = (afterAll ops).isWithin x top) ∧
      ((afterAll ops).isWithin x top = true ↔ ReflTransGen (afterAll ops).OwnedBy x top) := by
  have hacc := (isForest_afterAll ops).acc_ownedBy x
  obtain ⟨k, found, hends⟩ := exists_endsAfter hacc top
  obtain rfl := isWithin_of_endsAfter hends
  refine ⟨⟨k, Nat.succ_le_succ (endsAfter_le_size hends), fun j found => ⟨fun h => h.unique hends, ?_⟩⟩,
    isWithin_iff_ownedBy hacc⟩
  rintro ⟨rfl, rfl⟩
  exact hends

end GraphQuery.Arena
