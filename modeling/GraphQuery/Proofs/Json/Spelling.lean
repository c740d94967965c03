import GraphQuery.Proofs.Json.Numbers
import GraphQuery.Proofs.Json.Strings

/-!
The texts of a document, with blanks between its parts. Each of them is read as the document, in particular the text
without blanks.
-/

namespace GraphQuery.Json

open GraphQuery.Token (dropWhile_append_of_head ne_of_class)

def IsBlanks (bs : List Char) : Prop :=
  ∀ c ∈ bs, Parser.isBlank c = true

mutual
/-- The text starts with the document, before the rest. -/
inductive Spells : List Char → Json → List Char → Prop
  | null {rest : List Char} : Spells ('n' :: 'u' :: 'l' :: 'l' :: rest) .null rest
  | yes {rest : List Char} : Spells ('t' :: 'r' :: 'u' :: 'e' :: rest) (.boolean true) rest
  | no {rest : List Char} : Spells ('f' :: 'a' :: 'l' :: 's' :: 'e' :: rest) (.boolean false) rest
  | number {lexeme : String} {rest : List Char} (h : IsNumber lexeme.toList) (hrest : Ends rest) :
      Spells (lexeme.toList ++ rest) (.number lexeme) rest
  | string {lexeme : String} {rest : List Char} (h : IsBody lexeme.toList) :
      Spells ('"' :: (lexeme.toList ++ '"' :: rest)) (.string lexeme) rest
  | emptyArray {bs rest : List Char} (hbs : IsBlanks bs) : Spells ('[' :: (bs ++ ']' :: rest)) (.array []) rest
  | array {bs cs rest : List Char} {js : List Json} (hbs : IsBlanks bs) (h : SpellsItems cs js rest) :
      Spells ('[' :: (bs ++ cs)) (.array js) rest
  | emptyObject {bs rest : List Char} (hbs : IsBlanks bs) :
      Spells ('\x7b' :: (bs ++ '\x7d' :: rest)) (.object []) rest
  | object {bs cs rest : List Char} {ms : List (String × Json)} (hbs : IsBlanks bs)
      (h : SpellsMembers cs ms rest) : Spells ('\x7b' :: (bs ++ cs)) (.object ms) rest

inductive SpellsItems : List Char → List Json → List Char → Prop
  | last {cs bs rest : List Char} {j : Json} (h : Spells cs j (bs ++ ']' :: rest)) (hbs : IsBlanks bs) :
      SpellsItems cs [j] rest
  | more {cs bs bs' ds rest : List Char} {j : Json} {js : List Json} (h : Spells cs j (bs ++ ',' :: (bs' ++ ds)))
      (hbs : IsBlanks bs) (hbs' : IsBlanks bs') (hs : SpellsItems ds js rest) : SpellsItems cs (j :: js) rest

inductive SpellsMembers : List Char → List (String × Json) → List Char → Prop
  | last {cs as as' bs rest : List Char} {key : String} {j : Json} (hkey : IsBody key.toList) (has : IsBlanks as)
      (has' : IsBlanks as') (h : Spells cs j (bs ++ '\x7d' :: rest)) (hbs : IsBlanks bs) :
      SpellsMembers ('"' :: (key.toList ++ '"' :: (as ++ ':' :: (as' ++ cs)))) [(key, j)] rest
  | more {cs as as' bs bs' ds rest : List Char} {key : String} {j : Json} {ms : List (String × Json)}
      (hkey : IsBody key.toList) (has : IsBlanks as) (has' : IsBlanks as')
      (h : Spells cs j (bs ++ ',' :: (bs' ++ ds))) (hbs : IsBlanks bs) (hbs' : IsBlanks bs')
      (hs : SpellsMembers ds ms rest) :
      SpellsMembers ('"' :: (key.toList ++ '"' :: (as ++ ':' :: (as' ++ cs)))) ((key, j) :: ms) rest
end

section Reading

variable {bs cs rest : List Char}

theorem skipBlanks_append (hbs : IsBlanks bs) (c : Char) (rest : List Char) (hc : Parser.isBlank c = false) :
    ∃ hr, Parser.skipBlanks (bs ++ c :: rest) = ⟨c :: rest, hr⟩ := by
  have hdrop : (bs ++ c :: rest).dropWhile Parser.isBlank = c :: rest := by
    apply dropWhile_append_of_head hbs
    intro d r hcons
    rwa [← (List.cons.inj hcons).1]
  refine ⟨by simp only [List.length_append, List.length_cons]; omega, ?_⟩
  rw [Parser.skipBlanks, Subtype.mk.injEq, hdrop]

theorem Spells.eq_cons {j : Json} (h : Spells cs j rest) :
    ∃ c r, cs = c :: r ∧ Parser.isBlank c = false ∧ c ≠ ']' := by
  cases h with
  | number h =>
    obtain ⟨c, ds, hcons, hc⟩ := h.eq_cons
    rw [hcons]
    refine ⟨c, _, rfl, ?_⟩
    obtain hc | rfl := hc
    · refine ⟨?_, ne_of_class hc rfl⟩
      simp [Parser.isBlank, ne_of_class hc (d := ' ') rfl, ne_of_class hc (d := '\t') rfl,
        ne_of_class hc (d := '\r') rfl, ne_of_class hc (d := '\n') rfl]
    · decide
  | _ => exact ⟨_, _, rfl, by decide, by decide⟩

theorem SpellsItems.eq_cons {js : List Json} (h : SpellsItems cs js rest) :
    ∃ c r, cs = c :: r ∧ Parser.isBlank c = false ∧ c ≠ ']' := by
  cases h with
  | last h => exact h.eq_cons
  | more h => exact h.eq_cons

theorem SpellsMembers.eq_cons {ms : List (String × Json)} (h : SpellsMembers cs ms rest) : ∃ r, cs = '"' :: r := by
  cases h with
  | last => exact ⟨_, rfl⟩
  | more => exact ⟨_, rfl⟩

theorem value_number {lexeme : String} (h : IsNumber lexeme.toList) (hrest : Ends rest) :
    ∃ hr, Parser.value (lexeme.toList ++ rest) = some (.number lexeme, ⟨rest, hr⟩) := by
  have hhead : ∀ d r, lexeme.toList ++ rest = d :: r → (d.isDigit || d == '-') = true := by
    intro d r hcons
    obtain ⟨c, ds, heq, hc⟩ := h.eq_cons
    rw [heq] at hcons
    obtain rfl := (List.cons.inj hcons).1
    simpa using hc
  obtain ⟨hr, heq⟩ := number_append h hrest
  rw [Parser.value]
  · rw [heq]
    refine ⟨hr, ?_⟩
    simp
  all_goals
    intro _ hcons
    exact absurd (hhead _ _ hcons) (by decide)

mutual
theorem value_of_spells {j : Json} {cs rest : List Char} :
    Spells cs j rest → ∃ hr, Parser.value cs = some (j, ⟨rest, hr⟩)
  | .null => ⟨_, by rw [Parser.value]⟩
  | .yes => ⟨_, by rw [Parser.value]⟩
  | .no => ⟨_, by rw [Parser.value]⟩
  | .number h hrest => value_number h hrest
  | .string h => by
    obtain ⟨hr, heq⟩ := stringBody_append h rest
    rw [Parser.value, heq]
    refine ⟨by simp only [List.length_cons]; omega, ?_⟩
    simp
  | .emptyArray hbs => by
    obtain ⟨hr, heq⟩ := skipBlanks_append hbs ']' rest rfl
    rw [Parser.value, heq]
    exact ⟨_, rfl⟩
  | .array hbs h => by
    obtain ⟨c, r, rfl, hblank, hclose⟩ := h.eq_cons
    obtain ⟨hr, hskip⟩ := skipBlanks_append hbs c r hblank
    obtain ⟨hr', heq⟩ := items_of_spells h
    rw [Parser.value, hskip]
    dsimp only
    rw [Parser.after?, if_neg hclose]
    dsimp only
    rw [heq]
    exact ⟨_, rfl⟩
  | .emptyObject hbs => by
    obtain ⟨hr, heq⟩ := skipBlanks_append hbs '\x7d' rest rfl
    rw [Parser.value, heq]
    exact ⟨_, rfl⟩
  | .object hbs h => by
    obtain ⟨r, rfl⟩ := h.eq_cons
    obtain ⟨hr, hskip⟩ := skipBlanks_append hbs '"' r rfl
    obtain ⟨hr', heq⟩ := members_of_spells h
    rw [Parser.value, hskip]
    dsimp only
    rw [Parser.after?, if_neg (by decide)]
    dsimp only
    rw [heq]
    exact ⟨_, rfl⟩

theorem items_of_spells {js : List Json} {cs rest : List Char} :
    SpellsItems cs js rest → ∃ hr, Parser.items cs = some (js, ⟨rest, hr⟩)
  | .last h hbs => by
    obtain ⟨h₁, heq⟩ := value_of_spells h
    obtain ⟨h₂, hclose⟩ := skipBlanks_append hbs ']' rest rfl
    rw [Parser.items, heq]
    simp only [Option.bind_eq_bind, Option.bind_some]
    rw [hclose]
    exact ⟨by rw [List.length_cons] at h₂; omega, rfl⟩
  | @SpellsItems.more _ _ bs' _ _ _ _ h hbs hbs' hs => by
    obtain ⟨c, r, rfl, hblank, -⟩ := hs.eq_cons
    obtain ⟨h₁, heq⟩ := value_of_spells h
    obtain ⟨h₂, hcomma⟩ := skipBlanks_append hbs ',' (bs' ++ c :: r) rfl
    obtain ⟨h₃, hskip⟩ := skipBlanks_append hbs' c r hblank
    obtain ⟨h₄, hitems⟩ := items_of_spells hs
    rw [Parser.items, heq]
    simp only [Option.bind_eq_bind, Option.bind_some]
    rw [hcomma]
    dsimp only
    rw [Parser.after?, if_pos rfl]
    dsimp only
    rw [hskip, hitems]
    exact ⟨by rw [List.length_cons] at h₂; omega, rfl⟩

theorem members_of_spells {ms : List (String × Json)} {cs rest : List Char} :
    SpellsMembers cs ms rest → ∃ hr, Parser.members cs = some (ms, ⟨rest, hr⟩)
  | @SpellsMembers.last _ as as' _ _ _ _ hkey has has' h hbs => by
    obtain ⟨c, r, rfl, hblank, -⟩ := h.eq_cons
    obtain ⟨h₁, hbody⟩ := stringBody_append hkey (as ++ ':' :: (as' ++ c :: r))
    obtain ⟨h₂, hcolon⟩ := skipBlanks_append has ':' (as' ++ c :: r) rfl
    obtain ⟨h₃, hskip⟩ := skipBlanks_append has' c r hblank
    obtain ⟨h₄, heq⟩ := value_of_spells h
    obtain ⟨h₅, hclose⟩ := skipBlanks_append hbs '\x7d' rest rfl
    rw [Parser.members, Parser.after?, if_pos rfl]
    simp only [Option.bind_eq_bind, Option.bind_some, hbody]
    rw [hcolon]
    dsimp only
    rw [Parser.after?, if_pos rfl]
    simp only [Option.bind_some]
    rw [hskip, heq]
    simp only [Option.bind_some]
    rw [hclose, String.ofList_toList]
    refine ⟨?_, rfl⟩
    simp only [List.length_cons] at h₁ h₂ h₅ ⊢
    omega
  | @SpellsMembers.more _ as as' _ bs' _ _ _ _ _ hkey has has' h hbs hbs' hs => by
    obtain ⟨c, r, rfl, hblank, -⟩ := h.eq_cons
    obtain ⟨r', rfl⟩ := hs.eq_cons
    obtain ⟨h₁, hbody⟩ := stringBody_append hkey (as ++ ':' :: (as' ++ c :: r))
    obtain ⟨h₂, hcolon⟩ := skipBlanks_append has ':' (as' ++ c :: r) rfl
    obtain ⟨h₃, hskip⟩ := skipBlanks_append has' c r hblank
    obtain ⟨h₄, heq⟩ := value_of_spells h
    obtain ⟨h₅, hcomma⟩ := skipBlanks_append hbs ',' (bs' ++ '"' :: r') rfl
    obtain ⟨h₆, hskip'⟩ := skipBlanks_append hbs' '"' r' rfl
    obtain ⟨h₇, hmembers⟩ := members_of_spells hs
    rw [Parser.members, Parser.after?, if_pos rfl]
    simp only [Option.bind_eq_bind, Option.bind_some, hbody]
    rw [hcolon]
    dsimp only
    rw [Parser.after?, if_pos rfl]
    simp only [Option.bind_some]
    rw [hskip, heq]
    simp only [Option.bind_some]
    rw [hcomma, String.ofList_toList]
    dsimp only
    rw [Parser.after?, if_pos rfl]
    dsimp only
    rw [hskip', hmembers]
    refine ⟨?_, rfl⟩
    simp only [List.length_cons] at h₁ h₂ h₅ ⊢
    omega
end

theorem parse?_of_spells {text : String} {j : Json} (h : Spells text.toList j []) : parse? text = some j := by
  obtain ⟨hr, heq⟩ := value_of_spells h
  obtain ⟨c, r, hcons, hblank, -⟩ := h.eq_cons
  have hskip : (Parser.skipBlanks text.toList).val = text.toList := by
    rw [hcons]
    exact List.dropWhile_cons_of_neg (by simp [hblank])
  have hread : ∀ cs, cs = text.toList → (Parser.value cs).bind
      (fun p => if (Parser.skipBlanks p.2.val).val.isEmpty then some p.1 else none) = some j := by
    rintro _ rfl
    rw [heq]
    rfl
  exact hread _ hskip

end Reading

section Compact

mutual
def Legible : Json → Prop
  | null | boolean _ => True
  | number lexeme => IsNumber lexeme.toList
  | string lexeme => IsBody lexeme.toList
  | array items => LegibleItems items
  | object members => LegibleMembers members

def LegibleItems : List Json → Prop
  | [] => True
  | j :: js => j.Legible ∧ LegibleItems js

def LegibleMembers : List (String × Json) → Prop
  | [] => True
  | (key, j) :: ms => IsBody key.toList ∧ j.Legible ∧ LegibleMembers ms
end

theorem isBody_keyOf (s : String) : IsBody (keyOf s).toList := by
  rw [keyOf, String.toList_ofList]
  exact isBody_flatMap _

theorem isBody_of_plain {key : String} (h : keyOf key = key) : IsBody key.toList := by
  rw [← h]
  exact isBody_keyOf key

theorem legible_ofText (s : String) : (ofText s).Legible :=
  isBody_keyOf s

theorem legible_getD {α : Type} {write : α → Json} {o : Option α} (h : ∀ a ∈ o, (write a).Legible) :
    ((o.map write).getD .null).Legible := by
  cases o with
  | none => trivial
  | some a => exact h a rfl

theorem legible_ofNatural (n : Nat) : (ofNatural n).Legible := by
  change IsNumber (toString n).toList
  rw [toList_toString_nat]
  exact isNumber_toDigits n

theorem legibleItems_map {α : Type} {write : α → Json} (as : List α) (h : ∀ a, (write a).Legible) :
    LegibleItems (as.map write) := by
  induction as with
  | nil => trivial
  | cons a as ih => exact ⟨h a, ih⟩

theorem legibleMembers_map {α : Type} {write : α → Json} (entries : List (String × α)) (h : ∀ a, (write a).Legible) :
    LegibleMembers (entries.map (fun e => (keyOf e.1, write e.2))) := by
  induction entries with
  | nil => trivial
  | cons e entries ih => exact ⟨isBody_keyOf e.1, h e.2, ih⟩

theorem isBlanks_nil : IsBlanks [] :=
  List.forall_mem_nil _

theorem ends_cons (c : Char) (r : List Char) (hc : continuesNumber c = false) : Ends (c :: r) := by
  intro d r' hcons
  rwa [← (List.cons.inj hcons).1]

mutual
theorem spells_compact {rest : List Char} (hrest : Ends rest) : (j : Json) → j.Legible →
    Spells (j.compact.toList ++ rest) j rest
  | null, _ => .null
  | boolean true, _ => .yes
  | boolean false, _ => .no
  | number lexeme, h => .number h hrest
  | string lexeme, h => by
    have heq : (string lexeme).compact.toList ++ rest = '"' :: (lexeme.toList ++ '"' :: rest) := by
      simp [compact]
    rw [heq]
    exact .string h
  | array [], _ => .emptyArray isBlanks_nil
  | array (j :: js), h => by
    have heq : (array (j :: js)).compact.toList ++ rest =
        '[' :: ([] ++ ((compactItems (j :: js)).toList ++ ']' :: rest)) := by
      simp [compact]
    rw [heq]
    exact .array isBlanks_nil (spells_compactItems rest (j :: js) (List.cons_ne_nil j js) h)
  | object [], _ => .emptyObject isBlanks_nil
  | object (m :: ms), h => by
    have heq : (object (m :: ms)).compact.toList ++ rest =
        '\x7b' :: ([] ++ ((compactMembers (m :: ms)).toList ++ '\x7d' :: rest)) := by
      simp [compact]
    rw [heq]
    exact .object isBlanks_nil (spells_compactMembers rest (m :: ms) (List.cons_ne_nil m ms) h)

theorem spells_compactItems (rest : List Char) : (js : List Json) → js ≠ [] → LegibleItems js →
    SpellsItems ((compactItems js).toList ++ ']' :: rest) js rest
  | [], hne, _ => absurd rfl hne
  | [j], _, h => by
    have hj : Spells _ j ([] ++ ']' :: rest) := spells_compact (ends_cons ']' rest rfl) j h.1
    exact .last hj isBlanks_nil
  | j :: j' :: js, _, h => by
    have hjs := spells_compactItems rest (j' :: js) (List.cons_ne_nil j' js) h.2
    have hj := spells_compact (ends_cons ',' ((compactItems (j' :: js)).toList ++ ']' :: rest) rfl) j h.1
    have heq : (compactItems (j :: j' :: js)).toList ++ ']' :: rest =
        j.compact.toList ++ ',' :: ((compactItems (j' :: js)).toList ++ ']' :: rest) := by
      simp [compactItems]
    rw [heq]
    change Spells _ j ([] ++ ',' :: ([] ++ _)) at hj
    exact .more hj isBlanks_nil isBlanks_nil hjs

theorem spells_compactMembers (rest : List Char) : (ms : List (String × Json)) → ms ≠ [] → LegibleMembers ms →
    SpellsMembers ((compactMembers ms).toList ++ '\x7d' :: rest) ms rest
  | [], hne, _ => absurd rfl hne
  | [(key, j)], _, h => by
    have hj : Spells _ j ([] ++ '\x7d' :: rest) := spells_compact (ends_cons '\x7d' rest rfl) j h.2.1
    have heq : (compactMembers [(key, j)]).toList ++ '\x7d' :: rest =
        '"' :: (key.toList ++ '"' :: ([] ++ ':' :: ([] ++ (j.compact.toList ++ '\x7d' :: rest)))) := by
      simp [compactMembers]
    rw [heq]
    exact .last h.1 isBlanks_nil isBlanks_nil hj isBlanks_nil
  | (key, j) :: m :: ms, _, h => by
    have hms := spells_compactMembers rest (m :: ms) (List.cons_ne_nil m ms) h.2.2
    have hj := spells_compact (ends_cons ',' ((compactMembers (m :: ms)).toList ++ '\x7d' :: rest) rfl) j h.2.1
    have heq : (compactMembers ((key, j) :: m :: ms)).toList ++ '\x7d' :: rest =
        '"' :: (key.toList ++ '"' :: ([] ++ ':' :: ([] ++
          (j.compact.toList ++ ',' :: ((compactMembers (m :: ms)).toList ++ '\x7d' :: rest))))) := by
      simp [compactMembers]
    rw [heq]
    change Spells _ j ([] ++ ',' :: ([] ++ _)) at hj
    exact .more h.1 isBlanks_nil isBlanks_nil hj isBlanks_nil isBlanks_nil hms
end

theorem parse?_compact {j : Json} (h : j.Legible) : parse? j.compact = some j := by
  have hends : Ends [] := by
    intro c r hcons
    cases hcons
  have hspells := spells_compact hends j h
  rw [List.append_nil] at hspells
  exact parse?_of_spells hspells

end Compact

end GraphQuery.Json
