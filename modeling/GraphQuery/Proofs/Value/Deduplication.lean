import GraphQuery.Machine.Operators
import Mathlib

/-!
Loose equality and the lists without loosely equal values. The equality is symmetric, but neither reflexive nor
transitive, so what is kept of a list depends on the order in which it is scanned.
-/

namespace GraphQuery

theorem swap_compare_then (e e' : Int) (m m' : Nat) :
    ((compare e e').then (compare m m')).swap = (compare e' e).then (compare m' m) := by
  rw [Ordering.swap_then, ← Std.OrientedCmp.eq_swap, ← Std.OrientedCmp.eq_swap]

open Float.Model

theorem swap_compare_sign (s s' : UnpackedFloat.Sign) : (compare s s').swap = compare s' s := by
  cases s <;> cases s' <;> rfl

theorem compare_swap (a b : UnpackedFloat) : b.compare a = (a.compare b).map Ordering.swap := by
  rcases a with (_ | _) | _ | (_ | _) | (_ | _) <;> rcases b with (_ | _) | _ | (_ | _) | (_ | _) <;>
    simp [UnpackedFloat.compare, swap_compare_sign, swap_compare_then]

theorem float_beq_comm (x y : Float) : (x == y) = (y == x) := by
  change (x.toModel.unpack.compare y.toModel.unpack == some .eq) =
    (y.toModel.unpack.compare x.toModel.unpack == some .eq)
  rw [compare_swap]
  rcases y.toModel.unpack.compare x.toModel.unpack with _ | (_ | _ | _) <;> rfl

namespace Value

mutual
theorem looseEq_comm : (v u : Value) → v.looseEq u = u.looseEq v
  | null, u => by cases u <;> rfl
  | boolean a, u => by cases u <;> simp [looseEq, BEq.comm]
  | integer a, u => by cases u <;> simp [looseEq, BEq.comm]
  | float a, u => by cases u <;> simp [looseEq, float_beq_comm]
  | string a, u => by cases u <;> simp [looseEq, BEq.comm]
  | element a, u => by cases u <;> simp [looseEq, BEq.comm]
  | list as, u => by
    cases u with
    | list bs => rw [looseEq, looseEq, looseEqItems_comm as bs]
    | _ => rfl

theorem looseEqItems_comm : (vs us : List Value) → looseEqItems vs us = looseEqItems us vs
  | [], us => by cases us <;> rfl
  | v :: vs, us => by
    cases us with
    | nil => rfl
    | cons u us => rw [looseEqItems, looseEqItems, looseEq_comm v u, looseEqItems_comm vs us]
end

theorem looseEq_nan : (float (0 / 0)).looseEq (float (0 / 0)) = false := by
  decide +kernel

theorem looseEq_beyond_doubles :
    (integer 9007199254740992).looseEq (float (realOfInteger 9007199254740992)) = true ∧
      (float (realOfInteger 9007199254740992)).looseEq (integer 9007199254740993) = true ∧
      (integer 9007199254740992).looseEq (integer 9007199254740993) = false := by
  decide +kernel

/-- What is kept of the admitted values of a list, and at which positions: a value that is dropped is loosely equal to
one that is kept before it. -/
structure Keeps (admits : Value → Prop) (xs : List Value) (positions : List Nat) (ys : List Value) : Prop where
  increasing : positions.Pairwise (· < ·)
  values : positions.map (xs[·]?) = ys.map some
  admitted : ∀ y ∈ ys, admits y
  distinct : ys.Pairwise fun y y' => y.looseEq y' = false
  dropped : ∀ i x, xs[i]? = some x → admits x → i ∉ positions →
    ∃ j ∈ positions, j < i ∧ ∃ y, xs[j]? = some y ∧ x.looseEq y = true

namespace Keeps

variable {admits : Value → Prop} {xs ys : List Value} {positions : List Nat} {x : Value}

theorem lt_length (h : Keeps admits xs positions ys) {i : Nat} (hi : i ∈ positions) : i < xs.length := by
  have hsome : xs[i]? ∈ ys.map some := h.values ▸ List.mem_map_of_mem hi
  obtain ⟨y, -, hy⟩ := List.mem_map.1 hsome
  exact (List.getElem?_eq_some_iff.1 hy.symm).1

theorem values_append (h : Keeps admits xs positions ys) (x : Value) :
    positions.map ((xs ++ [x])[·]?) = ys.map some := by
  rw [← h.values]
  apply List.map_congr_left
  intro i hi
  exact List.getElem?_append_left (h.lt_length hi)

theorem dropped_append (h : Keeps admits xs positions ys) {i : Nat} (hi : i < xs.length) {z : Value}
    (hz : (xs ++ [x])[i]? = some z) (hadmits : admits z) (hdropped : i ∉ positions) :
    ∃ j ∈ positions, j < i ∧ ∃ y, (xs ++ [x])[j]? = some y ∧ z.looseEq y = true := by
  rw [List.getElem?_append_left hi] at hz
  obtain ⟨j, hj, hlt, y, hy, heq⟩ := h.dropped i z hz hadmits hdropped
  exact ⟨j, hj, hlt, y, by rw [List.getElem?_append_left (h.lt_length hj), hy], heq⟩

theorem nil : Keeps admits [] [] [] :=
  ⟨.nil, rfl, by simp, .nil, by simp⟩

theorem drop (h : Keeps admits xs positions ys) (hx : admits x → ∃ y ∈ ys, y.looseEq x = true) :
    Keeps admits (xs ++ [x]) positions ys := by
  refine ⟨h.increasing, h.values_append x, h.admitted, h.distinct, ?_⟩
  intro i z hz hadmits hdropped
  have hi : i < xs.length + 1 := by simpa using (List.getElem?_eq_some_iff.1 hz).1
  rcases Nat.lt_succ_iff_lt_or_eq.1 hi with hi | rfl
  · exact h.dropped_append hi hz hadmits hdropped
  · obtain rfl : x = z := by simpa using hz
    obtain ⟨y, hy, heq⟩ := hx hadmits
    have hmem : some y ∈ positions.map (xs[·]?) := h.values ▸ List.mem_map_of_mem hy
    obtain ⟨j, hj, hj'⟩ := List.mem_map.1 hmem
    refine ⟨j, hj, h.lt_length hj, y, ?_, by rw [looseEq_comm, heq]⟩
    rw [List.getElem?_append_left (h.lt_length hj), hj']

theorem keep (h : Keeps admits xs positions ys) (hx : admits x) (hnew : ∀ y ∈ ys, y.looseEq x = false) :
    Keeps admits (xs ++ [x]) (positions ++ [xs.length]) (ys ++ [x]) := by
  constructor
  · simpa [List.pairwise_append] using ⟨h.increasing, fun i hi => h.lt_length hi⟩
  · rw [List.map_append, List.map_append, h.values_append x]
    simp
  · intro y hy
    rcases List.mem_append.1 hy with hy | hy
    · exact h.admitted y hy
    · rw [List.mem_singleton.1 hy]
      exact hx
  · simpa [List.pairwise_append] using ⟨h.distinct, hnew⟩
  · intro i z hz hadmits hdropped
    have hi : i < xs.length + 1 := by simpa using (List.getElem?_eq_some_iff.1 hz).1
    rw [List.mem_append, List.mem_singleton, not_or] at hdropped
    obtain ⟨j, hj, hrest⟩ := h.dropped_append (by omega) hz hadmits hdropped.1
    exact ⟨j, List.mem_append_left _ hj, hrest⟩

end Keeps

theorem dedup_concat (xs : List Value) (x : Value) :
    dedup (xs ++ [x]) = if (dedup xs).any (·.looseEq x) then dedup xs else dedup xs ++ [x] := by
  rw [dedup, List.foldl_append]
  rfl

theorem keeps_dedup_filter (test : Value → Bool) (xs : List Value) :
    ∃ positions, Keeps (test · = true) xs positions (dedup (xs.filter test)) := by
  induction xs using List.reverseRecOn with
  | nil => exact ⟨[], .nil⟩
  | append_singleton xs x ih =>
    obtain ⟨positions, h⟩ := ih
    rw [List.filter_append]
    by_cases hx : test x = true
    · rw [List.filter_cons_of_pos hx, List.filter_nil, dedup_concat]
      split
      · rename_i hany
        exact ⟨positions, h.drop fun _ => by simpa using hany⟩
      · rename_i hany
        exact ⟨positions ++ [xs.length], h.keep hx (by simpa using hany)⟩
    · rw [List.filter_cons_of_neg hx, List.filter_nil, List.append_nil]
      exact ⟨positions, h.drop fun hadmits => absurd hadmits hx⟩

theorem keeps_dedup (xs : List Value) : ∃ positions, Keeps (fun _ => True) xs positions (dedup xs) := by
  simpa using keeps_dedup_filter (fun _ => true) xs

theorem dedup_eq_self {ys : List Value} (h : ys.Pairwise fun y y' => y.looseEq y' = false) : dedup ys = ys := by
  induction ys using List.reverseRecOn with
  | nil => rfl
  | append_singleton ys y ih =>
    obtain ⟨hys, -, hy⟩ := List.pairwise_append.1 h
    rw [dedup_concat, ih hys, if_neg]
    simpa using hy

theorem dedup_prefix_append (xs ys : List Value) : dedup xs <+: dedup (xs ++ ys) := by
  induction ys using List.reverseRecOn with
  | nil => rw [List.append_nil]
  | append_singleton ys y ih =>
    rw [← List.append_assoc, dedup_concat]
    split
    · exact ih
    · exact ih.trans (List.prefix_append _ _)

/-- Of a list, a value is kept if it is not loosely equal to one kept before, and what is kept is left as it is when it
is scanned again. A union keeps values of the two lists one after another in this way, beginning with those of the
first, and an intersection keeps values of the first list that are loosely equal to some value of the second. Loose
equality is neither reflexive nor transitive. -/
theorem dedup_union_intersection (xs as bs : List Value) :
    (∃ positions, Keeps (fun _ => True) xs positions (dedup xs)) ∧ dedup (dedup xs) = dedup xs ∧
    (∃ cs positions, applyBinary .union (list as) (list bs) = .ok (list cs) ∧
      Keeps (fun _ => True) (as ++ bs) positions cs ∧ dedup cs = cs ∧ dedup as <+: cs) ∧
    (∃ cs positions, applyBinary .intersection (list as) (list bs) = .ok (list cs) ∧
      Keeps (fun a => ∃ b ∈ bs, a.looseEq b = true) as positions cs) ∧
    (∃ v : Value, v.looseEq v = false) ∧
    ∃ u v w : Value, u.looseEq v = true ∧ v.looseEq w = true ∧ u.looseEq w = false := by
  obtain ⟨positions, hkeeps⟩ := keeps_dedup xs
  obtain ⟨positions', hunion⟩ := keeps_dedup (as ++ bs)
  obtain ⟨positions'', hintersection⟩ := keeps_dedup_filter (fun a => bs.any (a.looseEq ·)) as
  refine ⟨⟨positions, hkeeps⟩, dedup_eq_self hkeeps.distinct, ⟨_, positions', rfl, hunion, ?_, ?_⟩,
    ⟨_, positions'', rfl, by simpa using hintersection⟩, ⟨_, looseEq_nan⟩, _, _, _, looseEq_beyond_doubles⟩
  · exact dedup_eq_self hunion.distinct
  · exact dedup_prefix_append as bs

end Value

end GraphQuery
