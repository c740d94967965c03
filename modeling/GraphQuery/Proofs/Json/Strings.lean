import GraphQuery.Json.Text

namespace GraphQuery.Json

inductive IsBody : List Char → Prop
  | nil : IsBody []
  | plain {c : Char} {body : List Char} (hquote : c ≠ '"') (hescape : c ≠ '\\') (hcontrol : 32 ≤ c.toNat)
      (h : IsBody body) : IsBody (c :: body)
  | escape {c : Char} {body : List Char} (hc : c ∈ ['"', '\\', '/', 'b', 'f', 'n', 'r', 't']) (h : IsBody body) :
      IsBody ('\\' :: c :: body)
  | unit {a b c d : Char} {body : List Char}
      (hhex : (Parser.isHex a && Parser.isHex b && Parser.isHex c && Parser.isHex d) = true) (h : IsBody body) :
      IsBody ('\\' :: 'u' :: a :: b :: c :: d :: body)

theorem stringBody_append {body : List Char} (h : IsBody body) (rest : List Char) :
    ∃ hrest, Parser.stringBody (body ++ '"' :: rest) = some (body, ⟨rest, hrest⟩) := by
  induction h with
  | nil => exact ⟨_, rfl⟩
  | @plain c body hquote hescape hcontrol _ ih =>
    obtain ⟨hrest, ih⟩ := ih
    rw [List.cons_append, Parser.stringBody]
    · rw [ih, if_neg (by simp [hescape, hcontrol])]
      exact ⟨_, rfl⟩
    all_goals simp_all
  | @escape c body hc _ ih =>
    obtain ⟨hrest, ih⟩ := ih
    rw [List.cons_append, List.cons_append, Parser.stringBody]
    · rw [ih, if_pos (by simpa using hc)]
      exact ⟨_, rfl⟩
    · rintro _ _ _ _ _ rfl
      simp at hc
  | @unit a b c d body hhex _ ih =>
    obtain ⟨hrest, ih⟩ := ih
    simp only [List.cons_append]
    rw [Parser.stringBody, if_pos hhex, ih]
    exact ⟨by simp only [List.length_cons]; omega, rfl⟩

section Escapes

theorem hexValue?_digitChar {n : Nat} (h : n < 16) : Parser.hexValue? (Nat.digitChar n) = some n := by
  decide +revert

theorem isHex_digitChar {n : Nat} (h : n < 16) : Parser.isHex (Nat.digitChar n) = true := by
  rw [Parser.isHex, hexValue?_digitChar h]
  rfl

theorem unit?_of_lt {n : Nat} (h : n < 256) :
    unit? '0' '0' (Nat.digitChar (n / 16)) (Nat.digitChar (n % 16)) = some n := by
  have hhigh := hexValue?_digitChar (show n / 16 < 16 by omega)
  have hlow := hexValue?_digitChar (show n % 16 < 16 by omega)
  have hzero : Parser.hexValue? '0' = some 0 := rfl
  have hsum : ((0 * 16 + 0) * 16 + n / 16) * 16 + n % 16 = n := by omega
  simp only [unit?, hhigh, hlow, hzero, Option.bind_eq_bind, Option.bind_some, hsum]

theorem unescape?_unit {a b c d : Char} {n : Nat} (cs : List Char) (hunit : unit? a b c d = some n)
    (hhigh : isHighUnit n = false) (hlow : isLowUnit n = false) :
    unescape? ('\\' :: 'u' :: a :: b :: c :: d :: cs) = (unescape? cs).map (Char.ofNat n :: ·) := by
  rw [unescape?.eq_def]
  split
  · rename_i heq
    cases heq
  -- The unit is no half of a pair, so that it makes no difference whether another unit follows.
  · rename_i heq
    simp only [List.cons.injEq, true_and] at heq
    obtain ⟨rfl, rfl, rfl, rfl, rfl⟩ := heq
    simp [hunit, hhigh, hlow]
  · rename_i heq
    simp only [List.cons.injEq, true_and] at heq
    obtain ⟨rfl, rfl, rfl, rfl, rfl⟩ := heq
    simp [hunit, hhigh, hlow]
  -- The remaining patterns are those of shorter escapes.
  · rename_i hne heq
    simp only [List.cons.injEq, true_and] at heq
    obtain ⟨rfl, rfl⟩ := heq
    exact absurd rfl (hne a b c d cs rfl)
  · rename_i hne _ heq
    simp only [List.cons.injEq] at heq
    obtain ⟨rfl, rfl⟩ := heq
    exact absurd rfl (hne a b c d cs rfl)

theorem isBody_escapeChar (c : Char) {body : List Char} (h : IsBody body) : IsBody (escapeChar c ++ body) := by
  unfold escapeChar
  split
  case h_8 hquote hescape _ _ _ _ _ =>
    split
    · rename_i hcontrol
      have hhigh := isHex_digitChar (show c.toNat / 16 < 16 by omega)
      have hlow := isHex_digitChar (show c.toNat % 16 < 16 by omega)
      refine .unit ?_ h
      rw [hhigh, hlow]
      rfl
    · exact .plain hquote hescape (by omega) h
  all_goals exact .escape (by decide) h

theorem unescape?_escapeChar (c : Char) (cs : List Char) :
    unescape? (escapeChar c ++ cs) = (unescape? cs).map (c :: ·) := by
  unfold escapeChar
  split
  case h_8 hquote hescape _ _ _ _ _ =>
    split
    · rename_i hcontrol
      have hhigh : isHighUnit c.toNat = false := by
        rw [isHighUnit, Bool.and_eq_false_iff, decide_eq_false_iff_not, decide_eq_false_iff_not]
        omega
      have hlow : isLowUnit c.toNat = false := by
        rw [isLowUnit, Bool.and_eq_false_iff, decide_eq_false_iff_not, decide_eq_false_iff_not]
        omega
      have h := unescape?_unit cs (unit?_of_lt (show c.toNat < 256 by omega)) hhigh hlow
      rw [Char.ofNat_toNat] at h
      exact h
    · rw [List.singleton_append, unescape?]
      all_goals simp_all
  all_goals simp [unescape?]

theorem isBody_flatMap (cs : List Char) : IsBody (cs.flatMap escapeChar) := by
  induction cs with
  | nil => exact .nil
  | cons c cs ih => exact isBody_escapeChar c ih

theorem unescape?_flatMap (cs : List Char) : unescape? (cs.flatMap escapeChar) = some cs := by
  induction cs with
  | nil => rw [List.flatMap_nil, unescape?]
  | cons c cs ih => rw [List.flatMap_cons, unescape?_escapeChar, ih, Option.map_some]

end Escapes

theorem decodeText?_keyOf (s : String) : decodeText? (keyOf s) = some s := by
  rw [decodeText?, keyOf, String.toList_ofList, unescape?_flatMap, Option.map_some, String.ofList_toList]

theorem text?_ofText (s : String) : (ofText s).text? = some s :=
  decodeText?_keyOf s

end GraphQuery.Json
