import GraphQuery.Expr.Display
import GraphQuery.Proofs.Token.Scanning
import GraphQuery.Proofs.Token.Slices

namespace GraphQuery.Expr

open Token

def replaced (c : Char) (new cs : List Char) : List Char :=
  cs.flatMap fun d => if d = c then new else [d]

theorem replaced_replaced (cs : List Char) :
    replaced '\'' ['\\', '\''] (replaced '\\' ['\\', '\\'] cs) = cs.flatMap escapeChar := by
  rw [replaced, replaced, List.flatMap_assoc]
  congr 1
  funext c
  by_cases hslash : c = '\\'
  · subst hslash
    rfl
  · by_cases hquote : c = '\''
    · subst hquote
      rfl
    · simp [escapeChar, hslash, hquote]

-- in the other order, the backslash before a quote is doubled
example : replaced '\\' ['\\', '\\'] (replaced '\'' ['\\', '\''] ['\'']) = ['\\', '\\', '\''] := rfl

theorem escapes_escapeChar : Escapes '\'' escapeChar := by
  intro c
  unfold escapeChar
  split
  · rename_i h
    rw [Bool.or_eq_true, beq_iff_eq, beq_iff_eq] at h
    left
    rcases h with rfl | rfl
    · exact ⟨'\\', rfl, by decide, fun _ => rfl⟩
    · exact ⟨'\'', rfl, by decide, fun _ => rfl⟩
  · rename_i h
    right
    simpa using h

theorem piece_string (s : String) (rest : List Char) :
    piece '\'' (s.toList.flatMap escapeChar ++ ['\''] ++ rest) =
      ⟨.token (.string s), (s.toList.flatMap escapeChar ++ ['\'']).length⟩ := by
  rw [List.append_assoc]
  exact escapes_escapeChar.quotedString (by decide) s rest

theorem lexes_string (s : String) :
    Lexes (fun _ => True) ('\'' :: (s.toList.flatMap escapeChar ++ ['\''])) [.string s] :=
  lexes_of_piece fun rest _ => piece_string s rest

theorem toList_literalText_string (s : String) :
    (literalText (.string s)).toList = '\'' :: (s.toList.flatMap escapeChar ++ ['\'']) := by
  rw [literalText, String.toList_ofList]
  rfl

/-- The text of any string is the string in quotes after the two passes, and it is read as one token that holds the
string and covers the text. -/
theorem tokenize_literalText_string (s : String) :
    (literalText (.string s)).toList =
        '\'' :: (replaced '\'' ['\\', '\''] (replaced '\\' ['\\', '\\'] s.toList) ++ ['\'']) ∧
      tokenize (literalText (.string s)) = .ok [⟨.string s, ⟨0, (literalText (.string s)).utf8ByteSize⟩⟩] := by
  have hpiece := piece_string s []
  rw [List.append_nil] at hpiece
  constructor
  · rw [replaced_replaced, toList_literalText_string]
  · rw [tokenize, utf8ByteSize_eq, toList_literalText_string, scan_of_piece hpiece]

end GraphQuery.Expr
