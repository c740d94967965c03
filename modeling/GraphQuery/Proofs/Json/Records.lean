import GraphQuery.Json.Record
import GraphQuery.Proofs.Except
import GraphQuery.Proofs.Json.Strings

namespace GraphQuery.Json

theorem decodeText?_of_plain {s : String} (h : keyOf s = s) : decodeText? s = some s := by
  have hdecode := decodeText?_keyOf s
  rwa [h] at hdecode

theorem mapM_eq_some {α β : Type} {f : α → Option β} {g : α → β} {as : List α} (h : ∀ a ∈ as, f a = some (g a)) :
    as.mapM f = some (as.map g) :=
  mapM_eq_pure h

theorem mapM_map_eq_some {α : Type} {read : Json → Option α} {write : α → Json} (as : List α)
    (h : ∀ a, read (write a) = some a) : (as.map write).mapM read = some as := by
  have hread : ∀ a ∈ as, (read ∘ write) a = some (id a) := fun a _ => h a
  rw [List.mapM_map, mapM_eq_some hread, List.map_id]

theorem membersNamed_cons (name : String) (m : String × Json) (ms : List (String × Json)) :
    membersNamed name (m :: ms) = if m.1 = name then m.2 :: membersNamed name ms else membersNamed name ms := by
  unfold membersNamed
  split <;> simp [*]

theorem membersNamed_of_not_mem {name : String} {ms : List (String × Json)} (h : name ∉ ms.map (·.1)) :
    membersNamed name ms = [] := by
  induction ms with
  | nil => rfl
  | cons m ms ih =>
    rw [List.map_cons, List.mem_cons, not_or] at h
    rw [membersNamed_cons, if_neg (Ne.symm h.1), ih h.2]

theorem membersNamed_of_mem {m : String × Json} {ms : List (String × Json)} (hnodup : (ms.map (·.1)).Nodup)
    (hmem : m ∈ ms) : membersNamed m.1 ms = [m.2] := by
  induction ms with
  | nil => cases hmem
  | cons m' ms ih =>
    rw [List.map_cons, List.nodup_cons] at hnodup
    rw [membersNamed_cons]
    obtain rfl | hmem := List.mem_cons.1 hmem
    · rw [if_pos rfl, membersNamed_of_not_mem hnodup.1]
    · have hne : m'.1 ≠ m.1 := fun h => hnodup.1 (h ▸ List.mem_map_of_mem hmem)
      rw [if_neg hne, ih hnodup.2 hmem]

theorem textMembers?_of_plain {ms : List (String × Json)} (hplain : ∀ n ∈ ms.map (·.1), keyOf n = n) :
    textMembers? ms = some ms := by
  have hdecoded : ∀ m ∈ ms, (decodeText? m.1).map (fun k => (k, m.2)) = some m := by
    intro m hm
    rw [decodeText?_of_plain (hplain m.1 (List.mem_map_of_mem hm)), Option.map_some]
  rw [textMembers?, mapM_eq_some hdecoded, List.map_id']

theorem textMembers?_keyOf {α : Type} (write : α → Json) (entries : List (String × α)) :
    textMembers? (entries.map (fun e => (keyOf e.1, write e.2))) = some (entries.map (fun e => (e.1, write e.2))) := by
  rw [textMembers?, List.mapM_map]
  apply mapM_eq_some
  intro e _
  simp only [Function.comp_apply, decodeText?_keyOf, Option.map_some]

theorem fields?_object (lenient : Bool) (ms : List (String × Json)) (hplain : ∀ n ∈ ms.map (·.1), keyOf n = n)
    (hnodup : (ms.map (·.1)).Nodup) :
    (object ms).fields? lenient (ms.map (·.1)) = some (ms.map (fun m => some m.2)) := by
  rw [fields?, textMembers?_of_plain hplain]
  change (ms.map (·.1)).mapM (member? ms) = _
  rw [List.mapM_map]
  apply mapM_eq_some
  intro m hm
  rw [Function.comp_apply, member?, membersNamed_of_mem hnodup hm]

theorem optional?_getD {α : Type} {read : Json → Option α} {write : α → Json} {o : Option α}
    (hnull : read null = none) (h : ∀ a ∈ o, read (write a) = some a) :
    optional? read (some ((o.map write).getD .null)) = some o := by
  cases o with
  | none => rfl
  | some a =>
    have hread := h a rfl
    change optional? read (some (write a)) = _
    unfold optional?
    split
    · rename_i heq
      cases heq
    · rename_i heq
      rw [Option.some.inj heq, hnull] at hread
      cases hread
    · rename_i heq
      rw [← Option.some.inj heq, hread, Option.map_some]

end GraphQuery.Json
