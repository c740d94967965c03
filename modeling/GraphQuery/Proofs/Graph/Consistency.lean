import GraphQuery.Stores
import Std.Data.HashMap.Lemmas

namespace GraphQuery

theorem Element.nodup_addLabel {e : Element} (label : String) (h : e.labels.Nodup) :
    (e.addLabel label).labels.Nodup := by
  unfold addLabel
  split
  · exact h
  · rename_i hlabel
    exact List.nodup_append.2 ⟨h, by simp, fun a ha b hb hab => hlabel (by simp_all)⟩

theorem Element.nodup_withLabels (ref : ElementRef) (labels : List String) :
    (withLabels ref labels).labels.Nodup :=
  List.foldlRecOn labels addLabel (motive := fun e => e.labels.Nodup) List.nodup_nil
    fun _ he label _ => nodup_addLabel label he

theorem Element.ref_withLabels (ref : ElementRef) (labels : List String) :
    (withLabels ref labels).ref = ref := by
  apply List.foldlRecOn labels addLabel (motive := fun e => e.ref = ref) rfl
  intro e he label _
  rw [addLabel]
  split <;> exact he

namespace Graph

/-- The `k`-th element has the identifier `k` of this store and no label twice, the index maps exactly these
identifiers to their positions, and edges have both their ends in it. Identifiers are lost only after the lock. -/
structure Consistent (g : Graph) : Prop where
  next : g.poisoned = false → g.ids.next = g.elements.size + 1
  refs : ∀ (k : Nat) (e : Element), g.elements[k]? = some e → e.ref = ⟨g.id, ⟨k + 1⟩⟩
  labels : ∀ (k : Nat) (e : Element), g.elements[k]? = some e → e.labels.Nodup
  index : ∀ (id : ElementId) (k : Nat), g.index[id]? = some k ↔ id = ⟨k + 1⟩ ∧ k < g.elements.size
  edges : ∀ e ∈ g.edges, g.index.contains e.source ∧ g.index.contains e.target

theorem acquire_eq_ok {ε : Type} {g g' : Graph} {failure : ε} :
    g.acquire failure = .ok g' ↔ g.poisoned = false ∧ g = g' := by
  cases h : g.poisoned <;> simp [acquire, h]

theorem create_of_open {ε : Type} {g : Graph} (h : g.poisoned = false) (failure : ε) (labels : List String)
    (properties : Properties) :
    g.create failure labels properties = (.ok (g.add labels properties).1, (g.add labels properties).2) := by
  simp [create, h]

theorem create_of_poisoned {ε : Type} {g : Graph} (h : g.poisoned = true) (failure : ε) (labels : List String)
    (properties : Properties) :
    g.create failure labels properties = (.error failure, { g with ids := g.ids.fresh.2 }) := by
  simp [create, h]

theorem id_create {ε : Type} (g : Graph) (failure : ε) (labels : List String) (properties : Properties) :
    (g.create failure labels properties).2.id = g.id := by
  unfold create
  split <;> rfl

theorem poisoned_create {ε : Type} (g : Graph) (failure : ε) (labels : List String) (properties : Properties) :
    (g.create failure labels properties).2.poisoned = g.poisoned := by
  unfold create
  split <;> rfl

theorem addEdge_eq_ok {g g' : Graph} {source target : ElementId} {label : String} {edge : Edge}
    (h : g.addEdge source label target = .ok (edge, g')) : g' = { g with edges := g.edges.push edge } := by
  unfold addEdge at h
  split at h
  · cases h
  · split at h
    · cases h
    · cases h
      rfl

theorem setProperty_eq_ok {g g' : Graph} {id : ElementId} {key : String} {value : Value}
    (h : g.setProperty id key value = .ok g') :
    ∃ position, g' = { g with elements := g.elements.modify position (·.set key value) } := by
  unfold setProperty at h
  split at h
  · rename_i position _
    cases h
    exact ⟨position, rfl⟩
  · cases h

theorem consistent_empty (id : StoreId) (name : String) : (empty id name).Consistent := by
  constructor <;> simp [empty]

namespace Consistent

variable {g : Graph} (h : g.Consistent)

include h

theorem find?_eq_some {id : ElementId} {e : Element} :
    g.find? id = some e ↔ ∃ k, id = ⟨k + 1⟩ ∧ g.elements[k]? = some e := by
  unfold find?
  constructor
  · intro hfind
    split at hfind
    · rename_i k hk
      exact ⟨k, ((h.index id k).1 hk).1, hfind⟩
    · cases hfind
  · rintro ⟨k, rfl, he⟩
    have hk := (h.index ⟨k + 1⟩ k).2 ⟨rfl, (Array.getElem?_eq_some_iff.1 he).1⟩
    rw [hk]
    exact he

theorem find?_of_mem {e : Element} (he : e ∈ g.elements.toList) :
    e.ref.store = g.id ∧ g.find? e.ref.element = some e := by
  obtain ⟨k, hk⟩ := List.mem_iff_getElem?.1 he
  rw [Array.getElem?_toList] at hk
  have href := h.refs k e hk
  exact ⟨by rw [href], h.find?_eq_some.2 ⟨k, by rw [href], hk⟩⟩

theorem add (hopen : g.poisoned = false) (labels : List String) (properties : Properties) :
    (g.add labels properties).2.Consistent := by
  have hnext := h.next hopen
  constructor
  · simp [Graph.add, IdSource.fresh, hnext]
  · intro k e hk
    simp only [Graph.add, Array.getElem?_push] at hk
    split at hk
    · cases hk
      simp [Graph.add, IdSource.fresh, Element.ref_withLabels, *]
    · exact h.refs k e hk
  · intro k e hk
    simp only [Graph.add, Array.getElem?_push] at hk
    split at hk
    · cases hk
      exact Element.nodup_withLabels _ labels
    · exact h.labels k e hk
  · intro id k
    simp only [Graph.add, IdSource.fresh, Std.HashMap.getElem?_insert, Array.size_push, hnext, beq_iff_eq]
    split
    · rename_i hid
      subst hid
      simp only [Option.some.injEq, ElementId.mk.injEq]
      omega
    · rename_i hid
      rw [h.index]
      constructor
      · rintro ⟨rfl, hk⟩
        exact ⟨rfl, by omega⟩
      · rintro ⟨rfl, hk⟩
        refine ⟨rfl, Nat.lt_of_le_of_ne (by omega) ?_⟩
        rintro rfl
        exact hid rfl
  · intro e he
    simp only [Graph.add, Std.HashMap.contains_insert, Bool.or_eq_true]
    exact ⟨.inr (h.edges e he).1, .inr (h.edges e he).2⟩

theorem create {ε : Type} (failure : ε) (labels : List String) (properties : Properties) :
    (g.create failure labels properties).2.Consistent := by
  cases hopen : g.poisoned with
  | false =>
    rw [create_of_open hopen]
    exact h.add hopen labels properties
  | true =>
    rw [create_of_poisoned hopen]
    exact ⟨fun hfalse => absurd (hopen.symm.trans hfalse) (by decide), h.refs, h.labels, h.index, h.edges⟩

theorem addEdge {source target : ElementId} {label : String} {edge : Edge} {g' : Graph}
    (hadd : g.addEdge source label target = .ok (edge, g')) : g'.Consistent := by
  unfold Graph.addEdge at hadd
  split at hadd
  · cases hadd
  · split at hadd
    · cases hadd
    · rename_i hsource htarget
      cases hadd
      refine ⟨h.next, h.refs, h.labels, h.index, fun e he => ?_⟩
      rcases Array.mem_push.1 he with he | rfl
      · exact h.edges e he
      · exact ⟨by simpa using hsource, by simpa using htarget⟩

theorem setProperty {id : ElementId} {key : String} {value : Value} {g' : Graph}
    (hset : g.setProperty id key value = .ok g') : g'.Consistent := by
  obtain ⟨position, rfl⟩ := setProperty_eq_ok hset
  have hmodify : ∀ (k : Nat) (e : Element), (g.elements.modify position (·.set key value))[k]? = some e →
      ∃ e₀ : Element, g.elements[k]? = some e₀ ∧ e.ref = e₀.ref ∧ e.labels = e₀.labels := by
    intro k e hk
    rw [Array.getElem?_modify] at hk
    split at hk
    · obtain ⟨e₀, he₀, rfl⟩ := Option.map_eq_some_iff.1 hk
      exact ⟨e₀, he₀, rfl, rfl⟩
    · exact ⟨e, hk, rfl, rfl⟩
  refine ⟨?_, fun k e hk => ?_, fun k e hk => ?_, fun id k => ?_, h.edges⟩
  · simpa using h.next
  · obtain ⟨e₀, he₀, href, -⟩ := hmodify k e hk
    rw [href, h.refs k e₀ he₀]
  · obtain ⟨e₀, he₀, -, hlabels⟩ := hmodify k e hk
    rw [hlabels]
    exact h.labels k e₀ he₀
  · simpa using h.index id k

end Consistent

end Graph

namespace Stores

@[simp] theorem id_get (s : Stores) (id : StoreId) : (s.get id).id = id := by
  unfold get
  cases hfind : s.graphs.find? (·.id == id) with
  | none => rfl
  | some g => simpa using List.find?_some hfind

theorem get_put (s : Stores) (g : Graph) (id : StoreId) :
    (s.put g).get id = if id = g.id then g else s.get id := by
  unfold put get
  by_cases hany : s.graphs.any (·.id == g.id) = true
  · -- the contents are replaced in place, which keeps the identifiers
    have hids : ((·.id == id) ∘ fun h : Graph => if h.id == g.id then g else h) = (·.id == id) := by
      funext h
      by_cases hh : h.id = g.id <;> simp [hh]
    rw [if_pos hany, List.find?_map, hids]
    cases hfind : s.graphs.find? (·.id == id) with
    | none =>
      obtain ⟨h, hmem, hh⟩ := List.any_eq_true.1 hany
      have hne := List.find?_eq_none.1 hfind h hmem
      have hid : id ≠ g.id := by
        rintro rfl
        exact hne hh
      rw [if_neg hid]
      rfl
    | some h =>
      have hid : h.id = id := by simpa using List.find?_some hfind
      by_cases hg : id = g.id <;> simp [hid, hg]
  · rw [if_neg hany, List.find?_append]
    by_cases hg : id = g.id
    · have hnone : s.graphs.find? (·.id == id) = none := by simpa [hg] using hany
      rw [hnone, if_pos hg, hg]
      simp
    · have hnone : [g].find? (·.id == id) = none := by simpa using Ne.symm hg
      rw [hnone, if_neg hg, Option.or_none]

theorem apply_get_put {β : Type} {s : Stores} {g : Graph} (f : Graph → β) (h : f g = f (s.get g.id)) (id : StoreId) :
    f ((s.put g).get id) = f (s.get id) := by
  rw [get_put]
  split
  · rename_i hid
    rw [h, hid]
  · rfl

theorem put_put (s : Stores) {g g' : Graph} (h : g'.id = g.id) : (s.put g).put g' = s.put g' := by
  unfold put
  rw [h]
  by_cases hany : s.graphs.any (·.id == g.id) = true
  · have hstill : (s.graphs.map fun a => if a.id == g.id then g else a).any (·.id == g.id) = true := by
      obtain ⟨a, ha, hid⟩ := List.any_eq_true.1 hany
      exact List.any_eq_true.2 ⟨_, List.mem_map.2 ⟨a, ha, rfl⟩, by simp [hid]⟩
    rw [if_pos hany, if_pos hstill, if_pos hany, List.map_map]
    congr 1
    apply List.map_congr_left
    intro a _
    by_cases ha : a.id = g.id <;> simp [ha]
  · have hother : ∀ a ∈ s.graphs, (if a.id == g.id then g' else a) = id a := by
      intro a ha
      have hne : a.id ≠ g.id := by
        intro hid
        exact hany (List.any_eq_true.2 ⟨a, ha, by simp [hid]⟩)
      simp [hne]
    have hlast : (s.graphs ++ [g]).any (·.id == g.id) = true := by simp
    rw [if_neg hany, if_pos hlast, if_neg hany, List.map_append, List.map_congr_left hother, List.map_id]
    simp

def Consistent (s : Stores) : Prop :=
  ∀ g ∈ s.graphs, g.Consistent

theorem Consistent.get {s : Stores} (h : s.Consistent) (id : StoreId) : (s.get id).Consistent := by
  unfold Stores.get
  cases hfind : s.graphs.find? (·.id == id) with
  | none => exact Graph.consistent_empty id ""
  | some g => exact h g (List.mem_of_find?_eq_some hfind)

theorem Consistent.put {s : Stores} {g : Graph} (h : s.Consistent) (hg : g.Consistent) :
    (s.put g).Consistent := by
  unfold Stores.put
  split
  · intro g' hg'
    obtain ⟨g₀, hg₀, rfl⟩ := List.mem_map.1 hg'
    split
    · exact hg
    · exact h g₀ hg₀
  · intro g' hg'
    rcases List.mem_append.1 hg' with hg' | hg'
    · exact h g' hg'
    · rw [List.mem_singleton.1 hg']
      exact hg

end Stores

end GraphQuery
