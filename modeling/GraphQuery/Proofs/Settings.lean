import GraphQuery.Settings
import GraphQuery.Proofs.Json.Indentation
import GraphQuery.Proofs.Json.Records

namespace GraphQuery

namespace Dict

variable {α : Type}

theorem insertEntry_of_greatest {key : String} (value : α) {entries : List (String × α)}
    (h : ∀ e ∈ entries, e.1 < key) : insertEntry key value entries = entries ++ [(key, value)] := by
  induction entries with
  | nil => rfl
  | cons e entries ih =>
    rw [List.forall_mem_cons] at h
    have hlt : ¬ key < e.1 := String.lt_asymm h.1
    have hne : key ≠ e.1 := fun heq => String.lt_irrefl key (heq ▸ h.1)
    rw [insertEntry, if_neg hlt, if_neg hne, ih h.2, List.cons_append]

theorem entries_foldl_insert (es : List (String × α)) (d : Dict α)
    (h : (d.entries ++ es).Pairwise (fun a b => a.1 < b.1)) :
    (es.foldl (fun d e => d.insert e.1 e.2) d).entries = d.entries ++ es := by
  induction es generalizing d with
  | nil => rw [List.foldl_nil, List.append_nil]
  | cons e es ih =>
    have hgreatest : ∀ e' ∈ d.entries, e'.1 < e.1 := fun e' he' =>
      (List.pairwise_append.1 h).2.2 e' he' e List.mem_cons_self
    have hentries : (d.insert e.1 e.2).entries = d.entries ++ [e] := insertEntry_of_greatest e.2 hgreatest
    rw [List.append_cons, ← hentries] at h
    rw [List.foldl_cons, ih _ h, hentries, List.append_assoc, List.singleton_append]

theorem ofList_entries (d : Dict α) : ofList d.entries = d :=
  Dict.ext (entries_foldl_insert d.entries empty d.sorted)

end Dict

theorem PrintOptions.legible_toJson (p : PrintOptions) : p.toJson.Legible :=
  ⟨Json.isBody_of_plain rfl, Json.legible_ofText _, Json.isBody_of_plain rfl, Json.legible_ofText _,
    Json.isBody_of_plain rfl, trivial, trivial⟩

theorem PrintOptions.ofJson?_toJson (p : PrintOptions) : ofJson? p.toJson = some p := by
  have hfields : p.toJson.fields? true ["separator", "line_break", "trailing_separator"] =
      some [some (Json.ofText p.separator), some (Json.ofText p.lineBreak), some (.boolean p.trailing)] :=
    Json.fields?_object true _
      (show ∀ n ∈ ["separator", "line_break", "trailing_separator"], Json.keyOf n = n by decide)
      (show ["separator", "line_break", "trailing_separator"].Nodup by decide)
  rw [ofJson?, hfields]
  simp only [Json.withDefault?, Json.text?_ofText, Option.bind_eq_bind, Option.bind_some]
  rfl

theorem Feature.legible_toJson (f : Feature) : f.toJson.Legible :=
  ⟨Json.isBody_of_plain rfl, Json.legible_ofText _, Json.isBody_of_plain rfl, Json.legible_ofText _,
    Json.isBody_of_plain rfl, Json.legible_getD fun target _ => Json.legible_ofText target, trivial⟩

theorem FeatureKind.ofName?_name (k : FeatureKind) :
    ((Json.ofText k.name).name? Json.maxNesting).bind FeatureKind.ofName? = some k := by
  have hname : (Json.ofText k.name).name? Json.maxNesting = some k.name := Json.decodeText?_keyOf k.name
  rw [hname, Option.bind_some]
  cases k <;> rfl

theorem Feature.ofJson?_toJson (f : Feature) : ofJson? f.toJson = some f := by
  have hfields : f.toJson.fields? false ["name", "kind", "target"] =
      some [some (Json.ofText f.name), some (Json.ofText f.kind.name),
        some ((f.target.map Json.ofText).getD .null)] :=
    Json.fields?_object false _ (show ∀ n ∈ ["name", "kind", "target"], Json.keyOf n = n by decide)
      (show ["name", "kind", "target"].Nodup by decide)
  rw [ofJson?, hfields]
  simp only [Json.text?_ofText, FeatureKind.ofName?_name,
    Json.optional?_getD rfl fun target _ => Json.text?_ofText target, Option.bind_eq_bind, Option.bind_some]

theorem MetaClass.legible_toJson (c : MetaClass) : c.toJson.Legible :=
  ⟨Json.isBody_of_plain rfl, Json.legible_ofText _, Json.isBody_of_plain rfl,
    Json.legibleItems_map c.features Feature.legible_toJson, trivial⟩

theorem MetaClass.ofJson?_toJson (c : MetaClass) : ofJson? c.toJson = some c := by
  have hfields : c.toJson.fields? false ["name", "features"] =
      some [some (Json.ofText c.name), some (.array (c.features.map Feature.toJson))] :=
    Json.fields?_object false _ (show ∀ n ∈ ["name", "features"], Json.keyOf n = n by decide)
      (show ["name", "features"].Nodup by decide)
  rw [ofJson?, hfields]
  simp only [Json.text?_ofText, Json.mapM_map_eq_some c.features Feature.ofJson?_toJson, Option.bind_eq_bind,
    Option.bind_some]

theorem Metamodel.legible_toJson (m : Metamodel) : m.toJson.Legible :=
  ⟨Json.isBody_of_plain rfl, Json.legibleMembers_map m.classes.entries MetaClass.legible_toJson, trivial⟩

theorem Metamodel.ofJson?_toJson (m : Metamodel) : ofJson? m.toJson = some m := by
  have hfields : m.toJson.fields? false ["classes"] =
      some [some (.object (m.classes.entries.map (fun e => (Json.keyOf e.1, e.2.toJson))))] :=
    Json.fields?_object false _ (show ∀ n ∈ ["classes"], Json.keyOf n = n by decide)
      (show ["classes"].Nodup by decide)
  have hentries : (m.classes.entries.map (fun e => (e.1, e.2.toJson))).mapM
      (fun e => (MetaClass.ofJson? e.2).map (fun c => (e.1, c))) = some m.classes.entries := by
    rw [List.mapM_map, Json.mapM_eq_some (g := id), List.map_id]
    intro e _
    rw [Function.comp_apply, MetaClass.ofJson?_toJson, Option.map_some]
    rfl
  rw [ofJson?, hfields]
  simp only [Json.textMembers?_keyOf MetaClass.toJson, hentries, Option.bind_eq_bind, Option.bind_some,
    Dict.ofList_entries]

namespace Settings

theorem legible_toJson (s : Settings) : s.toJson.Legible :=
  ⟨Json.isBody_of_plain rfl, s.print.legible_toJson, Json.isBody_of_plain rfl, s.metamodel.legible_toJson,
    Json.isBody_of_plain rfl, Json.legible_getD fun n _ => Json.legible_ofNatural n, Json.isBody_of_plain rfl, trivial,
    trivial⟩

theorem readJson?_toJson (s : Settings) (h : ∀ n ∈ s.resultLimit, n < Nat.pow 2 64) : readJson? s.toJson = some s := by
  have hfields : s.toJson.fields? true ["print", "metamodel", "result_limit", "check_invariants"] =
      some [some s.print.toJson, some s.metamodel.toJson, some ((s.resultLimit.map Json.ofNatural).getD .null),
        some (.boolean s.checkInvariants)] :=
    Json.fields?_object true _
      (show ∀ n ∈ ["print", "metamodel", "result_limit", "check_invariants"], Json.keyOf n = n by decide)
      (show ["print", "metamodel", "result_limit", "check_invariants"].Nodup by decide)
  rw [readJson?, hfields]
  simp only [Json.withDefault?, s.print.ofJson?_toJson, s.metamodel.ofJson?_toJson,
    Json.optional?_getD rfl fun n hn => Json.natural?_ofNatural (h n hn), Option.bind_eq_bind, Option.bind_some]
  rfl

theorem ofJsonText?_toJsonText (s : Settings) (h : ∀ n ∈ s.resultLimit, n < Nat.pow 2 64) :
    ofJsonText? s.toJsonText = some s := by
  rw [ofJsonText?, toJsonText, Json.parse?_indented s.legible_toJson, Option.bind_some, readJson?_toJson s h]

theorem ofJsonText?_toJsonText_escaped :
    let features := [⟨"of \"", .reference, some "ω"⟩, ⟨"", .value, none⟩]
    let classes := [("π", MetaClass.mk "Part\t" features), ("ω", ⟨"π", []⟩)]
    let s : Settings := ⟨⟨"\\\x01", "\r\n", false⟩, ⟨Dict.ofList classes⟩, some 18446744073709551615, false⟩
    (∀ n ∈ s.resultLimit, n < Nat.pow 2 64) ∧ ofJsonText? s.toJsonText = some s := by
  intro features classes s
  have hlimit : ∀ n ∈ s.resultLimit, n < Nat.pow 2 64 := by
    intro n hn
    rw [← Option.some.inj hn]
    decide
  exact ⟨hlimit, ofJsonText?_toJsonText s hlimit⟩

end Settings

end GraphQuery
