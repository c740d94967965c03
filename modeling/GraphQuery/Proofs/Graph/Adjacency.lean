import GraphQuery.Proofs.Machine.Frame
import Mathlib

namespace GraphQuery

namespace Edge

def fits (label : Option String) (e : Edge) : Bool :=
  label.all (e.label == ·)

def joins (label : Option String) (source target : ElementId) (e : Edge) : Bool :=
  e.fits label && e.source == source && e.target == target

def adds? (label : Option String) (id : ElementId) (d : Direction) (e : Edge) : Option ElementId :=
  if e.fits label then
    match d with
    | .outgoing => if e.source = id then some e.target else none
    | .incoming => if e.target = id then some e.source else none
    | .both => if e.source = id then some e.target else if e.target = id then some e.source else none
  else none

variable {label : Option String} {u v : ElementId} {e : Edge}

theorem adds?_outgoing : e.adds? label u .outgoing = some v ↔ e.joins label u v = true := by
  simp [adds?, joins, and_assoc]

theorem adds?_incoming : e.adds? label v .incoming = some u ↔ e.joins label u v = true := by
  simp [adds?, joins, and_assoc, and_left_comm, and_comm]

theorem adds?_both : e.adds? label u .both = some v ↔ e.joins label u v = true ∨ e.joins label v u = true := by
  by_cases hfits : e.fits label = true
  · by_cases hsource : e.source = u
    · simp only [adds?, joins, hfits, hsource, if_true, Option.some.injEq, Bool.true_and, beq_self_eq_true,
        beq_iff_eq, Bool.and_eq_true]
      constructor
      · exact .inl
      · rintro (h | ⟨rfl, h⟩) <;> exact h
    · simp [adds?, joins, hfits, hsource, and_comm]
  · simp [adds?, joins, hfits]

section Neighbours

variable (label : Option String) (edges : List Edge) (u v : ElementId)

theorem count_filterMap_eq {f : Edge → Option ElementId} {p : Edge → Bool} {v : ElementId}
    (h : ∀ e, f e = some v ↔ p e = true) : (edges.filterMap f).count v = edges.countP p := by
  rw [List.count_filterMap]
  apply List.countP_congr
  intro e _
  rw [beq_iff_eq, h]

theorem count_outgoing :
    (edges.filterMap (adds? label u .outgoing)).count v = edges.countP (joins label u v) :=
  count_filterMap_eq edges fun _ => adds?_outgoing

theorem count_incoming :
    (edges.filterMap (adds? label v .incoming)).count u = edges.countP (joins label u v) :=
  count_filterMap_eq edges fun _ => adds?_incoming

theorem count_both_self :
    (edges.filterMap (adds? label u .both)).count u = edges.countP (joins label u u) :=
  count_filterMap_eq edges fun _ => by rw [adds?_both, or_self]

theorem count_both {u v : ElementId} (h : u ≠ v) :
    (edges.filterMap (adds? label u .both)).count v =
      edges.countP (joins label u v) + edges.countP (joins label v u) := by
  rw [count_filterMap_eq edges (p := fun e => e.joins label u v || e.joins label v u) (by simp [adds?_both])]
  induction edges with
  | nil => rfl
  | cons e edges ih =>
    -- an edge between different elements leads one way only
    have hways : ¬ (e.joins label u v = true ∧ e.joins label v u = true) := by
      simp only [joins, Bool.and_eq_true, beq_iff_eq]
      rintro ⟨⟨⟨-, rfl⟩, -⟩, ⟨-, hu⟩, -⟩
      exact h hu
    rw [List.countP_cons, List.countP_cons, List.countP_cons, ih]
    cases huv : e.joins label u v <;> cases hvu : e.joins label v u
    · simp
    · simp [Nat.add_assoc]
    · simp [Nat.add_right_comm]
    · exact absurd ⟨huv, hvu⟩ hways

theorem outgoing_sublist_both :
    (edges.filterMap (adds? label u .outgoing)).Sublist (edges.filterMap (adds? label u .both)) := by
  induction edges with
  | nil => exact .slnil
  | cons e edges ih =>
    cases hout : e.adds? label u .outgoing with
    | none =>
      rw [List.filterMap_cons_none hout]
      exact ih.trans ((List.sublist_cons_self e edges).filterMap _)
    | some v =>
      have hboth : e.adds? label u .both = some v := adds?_both.2 (.inl (adds?_outgoing.1 hout))
      rw [List.filterMap_cons_some hout, List.filterMap_cons_some hboth]
      exact ih.cons_cons v

end Neighbours

end Edge

theorem Graph.adjacent_eq (g : Graph) (label : Option String) (u : ElementId) (d : Direction) :
    g.adjacent u d label = g.edges.toList.filterMap (Edge.adds? label u d) := by
  rw [adjacent, edgesAt, List.filter_filter, List.filterMap_filter]
  congr 1
  funext e
  change (if (e.fits label && e.touches u d) then e.neighbour? u d else none) = e.adds? label u d
  cases hfits : e.fits label with
  | false => simp [Edge.adds?, hfits]
  | true =>
    cases d with
    | outgoing | incoming => simp [Edge.adds?, hfits, Edge.touches, Edge.neighbour?]
    | both =>
      by_cases hsource : e.source = u <;>
        simp [Edge.adds?, hfits, Edge.touches, Edge.neighbour?, Edge.other?, hsource]

namespace Stores

def created? (s : Stores) (id : StoreId) : Op → Option Edge
  | .addEdge store source label target =>
    if store.id = id then ((s.get id).addEdge source label target).toOption.map (·.1) else none
  | _ => none

def edgesCreated (id : StoreId) (s : Stores) : List Op → List Edge
  | [] => []
  | op :: ops => (s.created? id op).toList ++ edgesCreated id (s.after op) ops

theorem edges_get_of_new {s : Stores} {id : StoreId} (h : ¬ s.graphs.any (·.id == id) = true) :
    (s.get id).edges = #[] := by
  have hnone : s.graphs.find? (·.id == id) = none := by simpa using h
  rw [get, hnone]
  rfl

theorem edges_after {s : Stores} (h : s.Intact) (id : StoreId) (op : Op) :
    ((s.after op).get id).edges.toList = (s.get id).edges.toList ++ (s.created? id op).toList := by
  cases op with
  | new store =>
    change ((if s.graphs.any (·.id == store.id) then s else s.put _).get id).edges.toList = _ ++ []
    rw [List.append_nil]
    split
    · rfl
    · rename_i hnew
      rw [apply_get_put Graph.edges (edges_get_of_new hnew).symm]
  | add store labels properties =>
    rw [after, perform_add (h.locks store.id)]
    change ((s.put _).get id).edges.toList = _ ++ []
    rw [List.append_nil, apply_get_put Graph.edges]
    simp [Graph.add]
  | addEdge store source label target =>
    rw [after, perform_addEdge (h.locks store.id), created?]
    cases hadd : (s.get store.id).addEdge source label target with
    | error cause =>
      change (s.get id).edges.toList = _
      split
      · rename_i hid
        rw [← hid, hadd]
        exact (List.append_nil _).symm
      · exact (List.append_nil _).symm
    | ok made =>
      obtain ⟨edge, g⟩ := made
      have hg := Graph.addEdge_eq_ok hadd
      have hgid : g.id = store.id := by rw [hg, id_get]
      change ((s.put g).get id).edges.toList = _
      rw [get_put, hgid]
      by_cases hid : store.id = id
      · rw [if_pos hid.symm, if_pos hid, ← hid, hadd, hg]
        exact Array.toList_push
      · rw [if_neg (Ne.symm hid), if_neg hid]
        exact (List.append_nil _).symm
  | setProperty store element key value =>
    rw [after, perform_setProperty (h.locks store.id)]
    change ((s.settle _).2.get id).edges.toList = _ ++ []
    rw [List.append_nil]
    cases hset : (s.get store.id).setProperty element key value with
    | error cause => rfl
    | ok g =>
      have hgrown := Graph.grown_setProperty hset
      change ((s.put g).get id).edges.toList = _
      rw [apply_get_put Graph.edges]
      rw [hgrown.edges, hgrown.id, id_get]
  | run environment script =>
    have hframe := Machine.Changes.frame (Machine.run_changes environment script s) h.graphs
    rw [after, perform_run]
    change ((Machine.run environment script s).2.get id).edges.toList = _ ++ []
    rw [List.append_nil, (hframe.grown id).edges]

theorem edges_foldl_after {s : Stores} (h : s.Intact) (id : StoreId) (ops : List Op) :
    ((ops.foldl after s).get id).edges.toList = (s.get id).edges.toList ++ edgesCreated id s ops := by
  induction ops generalizing s with
  | nil => simp [edgesCreated]
  | cons op ops ih => rw [List.foldl_cons, ih (h.after op), edges_after h, edgesCreated, List.append_assoc]

/-- After any operations, an element is as often among the elements that another leads to as that one is among those
that lead to it. Both directions together give every other element as often as the two give it, and a loop once. All
neighbours follow the order in which the edges were created, so that those an element leads to are found in their order
among the neighbours in both directions. -/
theorem afterAll_adjacent (ops : List Op) (store : Handle) (label : Option String) :
    let g := (afterAll ops).get store.id
    let edges := edgesCreated store.id {} ops
    (∀ u v, (g.adjacent u .outgoing label).count v = (g.adjacent v .incoming label).count u) ∧
      (∀ u v, u ≠ v → (g.adjacent u .both label).count v =
        (g.adjacent u .outgoing label).count v + (g.adjacent u .incoming label).count v) ∧
      (∀ u d, (g.adjacent u d label).count u = edges.countP (Edge.joins label u u)) ∧
      (∀ u d, g.adjacent u d label = edges.filterMap (Edge.adds? label u d)) ∧
      ∀ u, ((g.adjacent u .outgoing label).filter (· ≠ u)).Sublist (g.adjacent u .both label) := by
  intro g edges
  have hedges : g.edges.toList = edges := edges_foldl_after intact_empty store.id ops
  have hadjacent : ∀ u d, g.adjacent u d label = edges.filterMap (Edge.adds? label u d) := by
    intro u d
    rw [g.adjacent_eq, hedges]
  refine ⟨fun u v => ?_, fun u v h => ?_, fun u d => ?_, hadjacent, fun u => ?_⟩
  · rw [hadjacent, hadjacent, Edge.count_outgoing, Edge.count_incoming]
  · rw [hadjacent, hadjacent, hadjacent, Edge.count_both label edges h, Edge.count_outgoing, Edge.count_incoming]
  · rw [hadjacent]
    cases d with
    | outgoing => exact Edge.count_outgoing label edges u u
    | incoming => exact Edge.count_incoming label edges u u
    | both => exact Edge.count_both_self label edges u
  · rw [hadjacent, hadjacent]
    exact List.filter_sublist.trans (Edge.outgoing_sublist_both label edges u)

end Stores

end GraphQuery
