import GraphQuery.Error
import GraphQuery.Proofs.Machine.Blame
import Mathlib.Data.List.Perm.Basic

namespace GraphQuery

namespace Dict

variable {α : Type}

theorem findEntry_eq_some {entries : List (String × α)} (h : entries.Pairwise (fun a b => a.1 < b.1)) {k : String}
    {v : α} : findEntry k entries = some v ↔ (k, v) ∈ entries := by
  induction entries with
  | nil => simp [findEntry]
  | cons e entries ih =>
    obtain ⟨k', v'⟩ := e
    obtain ⟨hleast, hrest⟩ := List.pairwise_cons.1 h
    rw [findEntry, List.mem_cons, Prod.mk.injEq]
    by_cases hk : k = k'
    · have hnot : (k, v) ∉ entries := fun hmem => String.lt_irrefl k' (hk ▸ hleast _ hmem)
      simp [hk, eq_comm, hk ▸ hnot]
    · simp [hk, ih hrest]

theorem mem_entries {d : Dict α} {k : String} {v : α} : (k, v) ∈ d.entries ↔ d.get? k = some v :=
  (findEntry_eq_some d.sorted).symm

theorem nodup_entries (d : Dict α) : d.entries.Nodup := by
  apply d.sorted.imp
  rintro e _ hlt rfl
  exact String.lt_irrefl e.1 hlt

theorem ext_get? {d d' : Dict α} (h : ∀ k, d.get? k = d'.get? k) : d = d' := by
  have hperm : d.entries.Perm d'.entries := by
    rw [List.perm_ext_iff_of_nodup d.nodup_entries d'.nodup_entries]
    rintro ⟨k, v⟩
    rw [mem_entries, mem_entries, h]
  refine Dict.ext (hperm.eq_of_pairwise ?_ d.sorted d'.sorted)
  exact fun e e' _ _ hlt hgt => absurd hgt (String.lt_asymm hlt)

theorem get?_foldl_insert {entries : List (String × α)} (h : (entries.map Prod.fst).Nodup) (d : Dict α) {k : String}
    {v : α} : (entries.foldl (fun d e => d.insert e.1 e.2) d).get? k = some v ↔
      (k, v) ∈ entries ∨ k ∉ entries.map Prod.fst ∧ d.get? k = some v := by
  induction entries generalizing d with
  | nil => simp
  | cons e entries ih =>
    obtain ⟨k', v'⟩ := e
    rw [List.map_cons, List.nodup_cons] at h
    rw [List.foldl_cons, ih h.2, get?_insert]
    by_cases hk : k = k'
    · subst hk
      have hnot : (k, v) ∉ entries := fun hmem => h.1 (List.mem_map.2 ⟨_, hmem, rfl⟩)
      simp [h.1, hnot, eq_comm]
    · simp [hk]

theorem ofList_eq_of_perm {entries entries' : List (String × α)} (hperm : entries.Perm entries')
    (h : (entries.map Prod.fst).Nodup) : ofList entries = ofList entries' := by
  have h' : (entries'.map Prod.fst).Nodup := (hperm.map Prod.fst).nodup_iff.1 h
  apply ext_get?
  intro k
  apply Option.ext
  intro v
  rw [ofList, ofList, get?_foldl_insert h, get?_foldl_insert h']
  simp [hperm.mem_iff]

theorem contains_of_get?_eq_some {d : Dict α} {key : String} {value : α} (h : d.get? key = some value) :
    d.contains key = true := by
  rw [← isSome_get?, h]
  rfl

theorem contains_eq_false {d : Dict α} {key : String} : d.contains key = false ↔ d.get? key = none := by
  rw [← isSome_get?, ← Option.not_isSome_iff_eq_none, Bool.not_eq_true]

theorem contains_insert (d : Dict α) (key x : String) (value : α) :
    (d.insert key value).contains x = (x == key || d.contains x) := by
  rw [← isSome_get?, ← isSome_get?, get?_insert]
  by_cases hx : x = key <;> simp [hx]

end Dict

namespace Script

def isHandle (output : Option Handle) (x : String) : Bool :=
  x == inputName || (x == outputName && output.isSome)

def isMissing (output : Option Handle) (parameters : Parameters) (x : String) : Bool :=
  !(isHandle output x || parameters.contains x)

structure BindOutcome (s : Script) (input : Handle) (output : Option Handle) (parameters : Parameters) : Prop where
  inputGiven : parameters.contains inputName = true →
    s.bind input output parameters = .error (.shadowsHandle inputName)
  outputGiven : parameters.contains inputName = false → parameters.contains outputName = true →
    s.bind input output parameters = .error (.shadowsHandle outputName)
  sameStore : parameters.contains inputName = false → parameters.contains outputName = false →
    ∀ o, output = some o → o.id = input.id → s.bind input output parameters = .error (.outputIsInput o.name)
  unbound : parameters.contains inputName = false → parameters.contains outputName = false →
    (∀ o, output = some o → o.id ≠ input.id) →
    ∀ x, s.freeVariables.find? (isMissing output parameters) = some x →
      s.bind input output parameters = .error (.unbound x)
  bound : parameters.contains inputName = false → parameters.contains outputName = false →
    (∀ o, output = some o → o.id ≠ input.id) →
    s.freeVariables.find? (isMissing output parameters) = none →
    ∃ env, s.bind input output parameters = .ok env ∧ ∀ x, env.get? x =
      if x = inputName then some (.store input)
      else if x = outputName then output.map .store
      else if x ∈ s.freeVariables then (parameters.get? x).map .value
      else none
  category : ∀ e, s.bind input output parameters = .error e → (Error.binding e).category =
    if parameters.contains inputName || parameters.contains outputName || output.any (·.id == input.id)
    then .configuration else .unboundVariable

section Names

variable {parameters : Parameters} {names : List String} {env : Environment}

theorem contains_or_insert {name : String} {v : Value} (h : parameters.get? name = some v) (x : String) :
    ((Dict.insert env name (.value v)).contains x || parameters.contains x) =
      (Dict.contains env x || parameters.contains x) := by
  rw [Dict.contains_insert]
  by_cases hx : x = name
  · have hgiven : parameters.contains x = true := hx ▸ Dict.contains_of_get?_eq_some h
    rw [hgiven, Bool.or_true, Bool.or_true]
  · rw [beq_false_of_ne hx, Bool.false_or]

theorem bindNames_eq_error {x : String}
    (h : names.find? (fun x => !(Dict.contains env x || parameters.contains x)) = some x) :
    bindNames parameters names env = .error (.unbound x) := by
  induction names generalizing env with
  | nil => cases h
  | cons name names ih =>
    rw [List.find?_cons] at h
    unfold bindNames
    by_cases hbound : Dict.contains env name = true
    · rw [if_pos hbound]
      apply ih
      simpa [hbound] using h
    · rw [if_neg hbound]
      cases hget : parameters.get? name with
      | some v =>
        apply ih
        have hgiven := Dict.contains_of_get?_eq_some hget
        simp only [contains_or_insert hget]
        simpa [hbound, hgiven] using h
      | none =>
        have hgiven := Dict.contains_eq_false.2 hget
        obtain rfl : name = x := by simpa [hbound, hgiven] using h
        rfl

theorem bindNames_eq_ok (h : names.find? (fun x => !(Dict.contains env x || parameters.contains x)) = none) :
    ∃ env', bindNames parameters names env = .ok env' ∧ ∀ x, env'.get? x =
      (env.get? x).or (if x ∈ names then (parameters.get? x).map .value else none) := by
  induction names generalizing env with
  | nil => exact ⟨env, rfl, by simp⟩
  | cons name names ih =>
    rw [List.find?_cons] at h
    unfold bindNames
    by_cases hbound : Dict.contains env name = true
    · rw [if_pos hbound]
      obtain ⟨env', henv, hget⟩ := ih (by simpa [hbound] using h)
      refine ⟨env', henv, fun x => ?_⟩
      rw [hget]
      by_cases hx : x = name
      · obtain ⟨b, hb⟩ := Option.isSome_iff_exists.1 ((Dict.isSome_get? env name).trans hbound)
        simp [hx, hb]
      · simp [hx]
    · rw [if_neg hbound]
      cases hparameter : parameters.get? name with
      | some v =>
        have hgiven := Dict.contains_of_get?_eq_some hparameter
        have hrest : names.find? (fun x => !(Dict.contains (Dict.insert env name (.value v)) x ||
            parameters.contains x)) = none := by
          simp only [contains_or_insert hparameter]
          simpa [hbound, hgiven] using h
        obtain ⟨env', henv, hget⟩ := ih hrest
        refine ⟨env', henv, fun x => ?_⟩
        rw [hget, Dict.get?_insert]
        by_cases hx : x = name
        · have hnone : env.get? name = none := Dict.contains_eq_false.1 (eq_false_of_ne_true hbound)
          simp [hx, hnone, hparameter]
        · simp [hx]
      | none =>
        have hgiven := Dict.contains_eq_false.2 hparameter
        simp [hbound, hgiven] at h

end Names

section Stores

variable {input : Handle} {output : Option Handle}

theorem inputName_ne_outputName : inputName ≠ outputName := by decide

theorem bindStores_eq_error {o : Handle} (ho : output = some o) (hid : o.id = input.id) :
    bindStores input output = .error (.outputIsInput o.name) := by
  rw [ho, bindStores, if_pos hid]

theorem bindStores_eq_ok (h : ∀ o, output = some o → o.id ≠ input.id) :
    ∃ env, bindStores input output = .ok env ∧ ∀ x, env.get? x =
      if x = inputName then some (.store input) else if x = outputName then output.map .store else none := by
  cases output with
  | none =>
    refine ⟨_, rfl, fun x => ?_⟩
    rw [Dict.get?_insert, Dict.get?_empty, Option.map_none, ite_self]
  | some o =>
    refine ⟨_, if_neg (h o rfl), fun x => ?_⟩
    rw [Dict.get?_insert, Dict.get?_insert, Dict.get?_empty, Option.map_some]
    by_cases hx : x = inputName
    · rw [if_pos hx, if_pos hx, if_neg (hx ▸ inputName_ne_outputName)]
    · rw [if_neg hx, if_neg hx]

theorem contains_of_get? {env : Environment} (h : ∀ x, env.get? x =
      if x = inputName then some (.store input) else if x = outputName then output.map .store else none) (x : String) :
    Dict.contains env x = isHandle output x := by
  rw [← Dict.isSome_get?, h, isHandle]
  by_cases hx : x = inputName
  · simp [hx]
  · by_cases hx' : x = outputName
    · cases output <;> simp [hx', inputName_ne_outputName.symm]
    · simp [hx, hx']

end Stores

variable {s : Script} {input : Handle} {output : Option Handle} {parameters : Parameters}

theorem bind_of_inputGiven (h : parameters.contains inputName = true) :
    s.bind input output parameters = .error (.shadowsHandle inputName) := by
  rw [Script.bind, if_pos h]

theorem bind_of_outputGiven (hinput : parameters.contains inputName = false)
    (h : parameters.contains outputName = true) :
    s.bind input output parameters = .error (.shadowsHandle outputName) := by
  rw [Script.bind, hinput, if_neg Bool.false_ne_true, if_pos h]

section Allowed

variable (hinput : parameters.contains inputName = false) (houtput : parameters.contains outputName = false)

include hinput houtput

theorem bind_of_allowed :
    s.bind input output parameters = bindStores input output >>= bindNames parameters s.freeVariables := by
  rw [Script.bind, hinput, houtput, if_neg Bool.false_ne_true, if_neg Bool.false_ne_true]
  cases bindStores input output <;> rfl

theorem bind_of_sameStore {o : Handle} (ho : output = some o) (hid : o.id = input.id) :
    s.bind input output parameters = .error (.outputIsInput o.name) := by
  rw [bind_of_allowed hinput houtput, bindStores_eq_error ho hid, error_bind]

variable (hstores : ∀ o, output = some o → o.id ≠ input.id)

include hstores

theorem bind_of_distinct :
    ∃ env : Environment, s.bind input output parameters = bindNames parameters s.freeVariables env ∧
      (∀ x, env.get? x =
        if x = inputName then some (.store input) else if x = outputName then output.map .store else none) ∧
      (fun x => !(Dict.contains env x || parameters.contains x)) = isMissing output parameters := by
  obtain ⟨env, henv, hget⟩ := bindStores_eq_ok hstores
  refine ⟨env, ?_, hget, ?_⟩
  · rw [bind_of_allowed hinput houtput, henv, ok_bind]
  · funext x
    rw [contains_of_get? hget, isMissing]

theorem bind_of_missing {x : String} (hx : s.freeVariables.find? (isMissing output parameters) = some x) :
    s.bind input output parameters = .error (.unbound x) := by
  obtain ⟨env, hbind, -, hmissing⟩ := bind_of_distinct hinput houtput hstores
  rw [hbind]
  exact bindNames_eq_error (hmissing ▸ hx)

theorem exists_bind (hnone : s.freeVariables.find? (isMissing output parameters) = none) :
    ∃ env, s.bind input output parameters = .ok env ∧ ∀ x, env.get? x =
      if x = inputName then some (.store input)
      else if x = outputName then output.map .store
      else if x ∈ s.freeVariables then (parameters.get? x).map .value
      else none := by
  obtain ⟨env, hbind, hget, hmissing⟩ := bind_of_distinct hinput houtput hstores
  obtain ⟨env', henv', hget'⟩ := bindNames_eq_ok (hmissing ▸ hnone)
  refine ⟨env', hbind.trans henv', fun x => ?_⟩
  have hnoParameter := Dict.contains_eq_false.1 houtput
  rw [hget', hget]
  by_cases hx : x = inputName
  · simp [hx]
  · by_cases hx' : x = outputName
    · cases output <;> simp [hx', hnoParameter]
    · simp [hx, hx']

end Allowed

theorem category_of_bind {e : BindError} (h : s.bind input output parameters = .error e) :
    (Error.binding e).category =
      if parameters.contains inputName || parameters.contains outputName || output.any (·.id == input.id)
      then .configuration else .unboundVariable := by
  cases hinput : parameters.contains inputName with
  | true =>
    rw [bind_of_inputGiven hinput] at h
    cases h
    rfl
  | false =>
    cases houtput : parameters.contains outputName with
    | true =>
      rw [bind_of_outputGiven hinput houtput] at h
      cases h
      rfl
    | false =>
      by_cases hstores : ∀ o, output = some o → o.id ≠ input.id
      · have hdistinct : output.any (·.id == input.id) = false := by
          cases output with
          | none => rfl
          | some o => exact beq_false_of_ne (hstores o rfl)
        rw [hdistinct]
        cases hmissing : s.freeVariables.find? (isMissing output parameters) with
        | none =>
          obtain ⟨env, hbind, -⟩ := exists_bind hinput houtput hstores hmissing
          cases hbind.symm.trans h
        | some x =>
          rw [bind_of_missing hinput houtput hstores hmissing] at h
          cases h
          rfl
      · push Not at hstores
        obtain ⟨o, ho, hid⟩ := hstores
        rw [bind_of_sameStore hinput houtput ho hid] at h
        cases h
        simp [ho, hid, Error.category]

/-- Binding fails for a parameter with the name of a store, then for an output that is the input, then for the first
free variable for which nothing is given; otherwise the environment binds the stores and the other free variables and
nothing else. The order in which parameters are inserted does not matter. -/
theorem bind_outcome (s : Script) (input : Handle) (output : Option Handle) (parameters : Parameters) :
    BindOutcome s input output parameters ∧
      ∀ entries entries' : List (String × Value), (entries.map Prod.fst).Nodup → entries.Perm entries' →
        s.bind input output (.ofList entries) = s.bind input output (.ofList entries') := by
  refine ⟨⟨?_, ?_, ?_, ?_, ?_, ?_⟩, fun entries entries' hnodup hperm => ?_⟩
  · exact bind_of_inputGiven
  · exact bind_of_outputGiven
  · exact fun hinput houtput o ho hid => bind_of_sameStore hinput houtput ho hid
  · exact fun hinput houtput hstores x hx => bind_of_missing hinput houtput hstores hx
  · exact exists_bind
  · exact fun e he => category_of_bind he
  · rw [Dict.ofList_eq_of_perm hperm hnodup]

def sum : Script :=
  ⟨[.statement (.binary .add (.var "x") (.var "y"))]⟩

theorem bind_outcome_sum : ∃ env,
    sum.bind ⟨⟨0⟩, "a"⟩ none (.ofList [("x", .integer 1), ("y", .integer 2)]) = .ok env ∧
    sum.bind ⟨⟨0⟩, "a"⟩ none (.ofList [("y", .integer 2), ("x", .integer 1)]) = .ok env := by
  obtain ⟨houtcome, horder⟩ :=
    bind_outcome sum ⟨⟨0⟩, "a"⟩ none (.ofList [("x", .integer 1), ("y", .integer 2)])
  obtain ⟨env, henv, -⟩ := houtcome.bound rfl rfl (fun _ h => by cases h) rfl
  exact ⟨env, henv, (horder _ _ (by decide) (.swap ..)).symm.trans henv⟩

end Script

end GraphQuery
