import GraphQuery.Proofs.Json.Spelling

namespace GraphQuery.Json

theorem isBlanks_newLine (depth : Nat) : IsBlanks (newLine depth).toList := by
  intro c hc
  rw [newLine, String.toList_ofList, List.mem_cons, List.mem_replicate] at hc
  obtain rfl | ⟨-, rfl⟩ := hc <;> rfl

theorem ends_newLine (depth : Nat) (rest : List Char) : Ends ((newLine depth).toList ++ rest) := by
  rw [newLine, String.toList_ofList, List.cons_append]
  exact ends_cons '\n' _ rfl

theorem isBlanks_space : IsBlanks [' '] :=
  List.forall_mem_singleton.2 rfl

mutual
theorem spells_indented {rest : List Char} (hrest : Ends rest) (depth : Nat) : (j : Json) → j.Legible →
    Spells ((j.indented depth).toList ++ rest) j rest
  | null, _ => by
    rw [indented]
    exact .null
  | boolean true, _ => by
    rw [indented]
    exact .yes
  | boolean false, _ => by
    rw [indented]
    exact .no
  | number lexeme, h => by
    rw [indented]
    exact .number h hrest
  | string lexeme, h => by
    have heq : ((string lexeme).indented depth).toList ++ rest = '"' :: (lexeme.toList ++ '"' :: rest) := by
      simp [indented]
    rw [heq]
    exact .string h
  | array [], _ => by
    rw [indented]
    exact .emptyArray isBlanks_nil
  | array (j :: js), h => by
    obtain ⟨cs, hcs, hspells⟩ := spells_indentedItems rest depth (depth + 1) (j :: js) (List.cons_ne_nil j js) h
    have heq : ((array (j :: js)).indented depth).toList ++ rest = '[' :: ((newLine (depth + 1)).toList ++ cs) := by
      rw [← hcs]
      simp [indented]
    rw [heq]
    exact .array (isBlanks_newLine _) hspells
  | object [], _ => by
    rw [indented]
    exact .emptyObject isBlanks_nil
  | object (m :: ms), h => by
    obtain ⟨cs, hcs, hspells⟩ := spells_indentedMembers rest depth (depth + 1) (m :: ms) (List.cons_ne_nil m ms) h
    have heq : ((object (m :: ms)).indented depth).toList ++ rest = '\x7b' :: ((newLine (depth + 1)).toList ++ cs) := by
      rw [← hcs]
      simp [indented]
    rw [heq]
    exact .object (isBlanks_newLine _) hspells

theorem spells_indentedItems (rest : List Char) (outer depth : Nat) : (js : List Json) → js ≠ [] → LegibleItems js →
    ∃ cs, (indentedItems depth js).toList ++ ((newLine outer).toList ++ ']' :: rest) = (newLine depth).toList ++ cs ∧
      SpellsItems cs js rest
  | [], hne, _ => absurd rfl hne
  | [j], _, h => by
    have hj := spells_indented (ends_newLine outer (']' :: rest)) depth j h.1
    refine ⟨_, ?_, .last hj (isBlanks_newLine outer)⟩
    simp [indentedItems]
  | j :: j' :: js, _, h => by
    obtain ⟨cs, hcs, hjs⟩ := spells_indentedItems rest outer depth (j' :: js) (List.cons_ne_nil j' js) h.2
    have hj := spells_indented (ends_cons ',' ((newLine depth).toList ++ cs) rfl) depth j h.1
    change Spells _ j ([] ++ ',' :: ((newLine depth).toList ++ cs)) at hj
    refine ⟨_, ?_, .more hj isBlanks_nil (isBlanks_newLine depth) hjs⟩
    rw [← hcs]
    simp [indentedItems]

theorem spells_indentedMembers (rest : List Char) (outer depth : Nat) : (ms : List (String × Json)) → ms ≠ [] →
    LegibleMembers ms →
    ∃ cs, (indentedMembers depth ms).toList ++ ((newLine outer).toList ++ '\x7d' :: rest) =
      (newLine depth).toList ++ cs ∧ SpellsMembers cs ms rest
  | [], hne, _ => absurd rfl hne
  | [(key, j)], _, h => by
    have hj := spells_indented (ends_newLine outer ('\x7d' :: rest)) depth j h.2.1
    refine ⟨_, ?_, .last h.1 isBlanks_nil isBlanks_space hj (isBlanks_newLine outer)⟩
    simp [indentedMembers]
  | (key, j) :: m :: ms, _, h => by
    obtain ⟨cs, hcs, hms⟩ := spells_indentedMembers rest outer depth (m :: ms) (List.cons_ne_nil m ms) h.2.2
    have hj := spells_indented (ends_cons ',' ((newLine depth).toList ++ cs) rfl) depth j h.2.1
    change Spells _ j ([] ++ ',' :: ((newLine depth).toList ++ cs)) at hj
    refine ⟨_, ?_, .more h.1 isBlanks_nil isBlanks_space hj isBlanks_nil (isBlanks_newLine depth) hms⟩
    rw [← hcs]
    simp [indentedMembers]
end

theorem parse?_indented {j : Json} (h : j.Legible) (depth : Nat) : parse? (j.indented depth) = some j := by
  have hends : Ends [] := by
    intro c r hcons
    cases hcons
  have hspells := spells_indented hends depth j h
  rw [List.append_nil] at hspells
  exact parse?_of_spells hspells

end GraphQuery.Json
