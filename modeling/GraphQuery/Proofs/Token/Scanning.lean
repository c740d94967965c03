import GraphQuery.Token.Lexer

namespace GraphQuery.Token

inductive Reads : List Char → List Token → Prop
  | nil : Reads [] []
  | skip {c : Char} {cs : List Char} {n : Nat} {ts : List Token} (h : piece c cs = ⟨.skipped, n⟩)
      (hrest : Reads (cs.drop n) ts) : Reads (c :: cs) ts
  | token {c : Char} {cs : List Char} {n : Nat} {t : Token} {ts : List Token} (h : piece c cs = ⟨.token t, n⟩)
      (hrest : Reads (cs.drop n) ts) : Reads (c :: cs) (t :: ts)

section Reads

variable {c : Char} {cs : List Char} {n : Nat} {t : Token} {ts : List Token}

theorem Reads.scan (h : Reads cs ts) (offset : Nat) :
    ∃ ls, scan offset cs = .ok ls ∧ ls.map (·.token) = ts := by
  induction h generalizing offset with
  | nil => exact ⟨[], by rw [Token.scan], rfl⟩
  | @skip c cs n ts h _ ih =>
    obtain ⟨ls, hscan, hls⟩ := ih (offset + byteLength (c :: cs.take n))
    refine ⟨ls, ?_, hls⟩
    rw [Token.scan, h]
    exact hscan
  | @token c cs n t ts h _ ih =>
    obtain ⟨ls, hscan, hls⟩ := ih (offset + byteLength (c :: cs.take n))
    refine ⟨⟨t, ⟨offset, offset + byteLength (c :: cs.take n)⟩⟩ :: ls, ?_, by rw [List.map_cons, hls]⟩
    rw [Token.scan, h]
    dsimp only
    rw [hscan]

theorem reads_of_scan {offset : Nat} {ls : List Located} (h : scan offset cs = .ok ls) :
    Reads cs (ls.map (·.token)) := by
  fun_induction Token.scan offset cs generalizing ls with
  | case1 =>
    cases h
    exact .nil
  | case2 offset c cs p taken stop hp =>
    rename_i ih
    exact .skip (show piece c cs = ⟨.skipped, p.more⟩ by rw [← hp]) (ih h)
  | case3 offset c cs p taken stop t hp =>
    rename_i hscan ih
    cases h
    exact .token (show piece c cs = ⟨.token t, p.more⟩ by rw [← hp]) (ih hscan)
  | case4 => cases h
  | case5 => cases h

theorem reads_nil : Reads [] ts ↔ ts = [] := by
  constructor
  · intro h
    cases h
    rfl
  · rintro rfl
    exact .nil

theorem reads_skip (h : piece c cs = ⟨.skipped, n⟩) : Reads (c :: cs) ts ↔ Reads (cs.drop n) ts := by
  refine ⟨fun hreads => ?_, .skip h⟩
  cases hreads with
  | skip h' hrest =>
    rw [h] at h'
    cases h'
    exact hrest
  | token h' =>
    rw [h] at h'
    cases h'

theorem reads_token (h : piece c cs = ⟨.token t, n⟩) :
    Reads (c :: cs) ts ↔ ∃ us, Reads (cs.drop n) us ∧ ts = t :: us := by
  constructor
  · intro hreads
    cases hreads with
    | skip h' =>
      rw [h] at h'
      cases h'
    | token h' hrest =>
      rw [h] at h'
      cases h'
      exact ⟨_, hrest, rfl⟩
  · rintro ⟨us, hus, rfl⟩
    exact .token h hus

end Reads

/-- The characters are read as the tokens before every text that meets the condition, and what follows is read as
if it stood alone. -/
def Lexes (follow : List Char → Prop) (cs : List Char) (ts : List Token) : Prop :=
  ∀ rest us, follow rest → (Reads (cs ++ rest) us ↔ ∃ vs, Reads rest vs ∧ us = ts ++ vs)

section Lexes

variable {follow follow' : List Char → Prop} {cs cs' : List Char} {ts ts' : List Token}

theorem lexes_nil : Lexes follow [] [] := by
  intro rest us _
  simp

theorem Lexes.append (h : Lexes follow cs ts) (h' : Lexes follow' cs' ts')
    (hfollow : ∀ rest, follow' rest → follow (cs' ++ rest)) : Lexes follow' (cs ++ cs') (ts ++ ts') := by
  intro rest us hrest
  rw [List.append_assoc, h _ _ (hfollow rest hrest)]
  constructor
  · rintro ⟨vs, hvs, rfl⟩
    obtain ⟨vs', hvs', rfl⟩ := (h' rest vs hrest).1 hvs
    exact ⟨vs', hvs', (List.append_assoc ..).symm⟩
  · rintro ⟨vs, hvs, rfl⟩
    exact ⟨ts' ++ vs, (h' rest _ hrest).2 ⟨vs, hvs, rfl⟩, List.append_assoc ..⟩

theorem Lexes.mono (h : Lexes follow cs ts) (hfollow : ∀ rest, follow' rest → follow rest) :
    Lexes follow' cs ts :=
  fun rest us hrest => h rest us (hfollow rest hrest)

theorem Lexes.any (h : Lexes (fun _ => True) cs ts) : Lexes follow cs ts :=
  h.mono fun _ _ => trivial

theorem Lexes.reads_iff {us : List Token} (h : Lexes follow cs ts) (hnil : follow []) : Reads cs us ↔ us = ts := by
  have hreads := h [] us hnil
  simp only [List.append_nil, reads_nil, exists_eq_left] at hreads
  exact hreads

theorem Lexes.reads (h : Lexes follow cs ts) (hnil : follow []) : Reads cs ts :=
  (h.reads_iff hnil).2 rfl

theorem lexes_of_piece {c : Char} {t : Token}
    (h : ∀ rest, follow rest → piece c (cs ++ rest) = ⟨.token t, cs.length⟩) : Lexes follow (c :: cs) [t] := by
  intro rest us hrest
  rw [List.cons_append, reads_token (h rest hrest), List.drop_left]
  rfl

end Lexes

def Separated : List Char → Prop
  | [] => True
  | '.' :: c :: _ => c.isDigit = false
  | c :: _ => isWordPart c = false

theorem Separated.head {c : Char} {cs : List Char} (h : Separated (c :: cs)) : isWordPart c = false := by
  unfold Separated at h
  split at h
  · cases ‹c :: cs = []›
  · rename_i heq
    cases heq
    rfl
  · rename_i heq
    cases heq
    exact h

theorem separated_cons {c : Char} (h : isWordPart c = false) (hpoint : c ≠ '.') (cs : List Char) :
    Separated (c :: cs) := by
  unfold Separated
  split
  · trivial
  · rename_i heq
    exact absurd (List.cons.inj heq).1 hpoint
  · rename_i heq
    rw [← (List.cons.inj heq).1]
    exact h

theorem isWordPart_of_isDigit {c : Char} (h : c.isDigit = true) : isWordPart c = true := by
  simp [isWordPart, Char.isAlphanum, h]

theorem isWordPart_of_isWordStart {c : Char} (h : isWordStart c = true) : isWordPart c = true := by
  rw [isWordStart, Bool.or_eq_true] at h
  rcases h with h | h <;> simp [isWordPart, Char.isAlphanum, h]

theorem isDigit_eq_false_of_isWordStart {c : Char} (h : isWordStart c = true) : c.isDigit = false := by
  rw [isWordStart, Bool.or_eq_true] at h
  rcases h with h | h
  · change (decide (c.val ≥ 65 ∧ c.val ≤ 90) || decide (c.val ≥ 97) && decide (c.val ≤ 122)) = true at h
    change (decide (c.val ≥ 48) && decide (c.val ≤ 57)) = false
    grind
  · obtain rfl := eq_of_beq h
    rfl

theorem takeWhile_append_of_head {p : Char → Bool} {cs rest : List Char} (hcs : ∀ c ∈ cs, p c = true)
    (hrest : ∀ c r, rest = c :: r → p c = false) : (cs ++ rest).takeWhile p = cs := by
  rw [List.takeWhile_append_of_pos hcs]
  cases rest with
  | nil => simp
  | cons c r => simp [hrest c r rfl]

theorem dropWhile_append_of_head {p : Char → Bool} {cs rest : List Char} (hcs : ∀ d ∈ cs, p d = true)
    (hrest : ∀ d r, rest = d :: r → p d = false) : (cs ++ rest).dropWhile p = rest := by
  rw [List.dropWhile_append_of_pos hcs]
  cases rest with
  | nil => rfl
  | cons d r => simp [hrest d r rfl]

theorem take_length_takeWhile (p : Char → Bool) (cs : List Char) :
    cs.take (cs.takeWhile p).length = cs.takeWhile p :=
  (List.prefix_iff_eq_take.1 (List.takeWhile_prefix p)).symm

theorem drop_length_takeWhile (p : Char → Bool) (cs : List Char) :
    cs.drop (cs.takeWhile p).length = cs.dropWhile p := by
  calc cs.drop (cs.takeWhile p).length
      = (cs.takeWhile p ++ cs.dropWhile p).drop (cs.takeWhile p).length := by rw [List.takeWhile_append_dropWhile]
    _ = cs.dropWhile p := List.drop_left

theorem ne_of_class {p : Char → Bool} {c d : Char} (hc : p c = true) (hd : p d = false) : c ≠ d := by
  rintro rfl
  rw [hc] at hd
  cases hd

theorem isBlank_eq_false {p : Char → Bool} {c : Char} (h : p c = true)
    (hp : (p ' ' || p '\t' || p '\r' || p '\n' || p '\x0c') = false) : isBlank c = false := by
  simp only [Bool.or_eq_false_iff] at hp
  simp [isBlank, ne_of_class h hp.1.1.1.1, ne_of_class h hp.1.1.1.2, ne_of_class h hp.1.1.2, ne_of_class h hp.1.2,
    ne_of_class h hp.2]

theorem piece_word {c : Char} {cs rest : List Char} (hc : isWordStart c = true)
    (hcs : ∀ d ∈ cs, isWordPart d = true) (hrest : Separated rest) :
    piece c (cs ++ rest) = ⟨.token (ofWord (String.ofList (c :: cs))), cs.length⟩ := by
  have hword : (cs ++ rest).takeWhile isWordPart = cs := by
    apply takeWhile_append_of_head hcs
    rintro d r rfl
    exact hrest.head
  simp [piece, isBlank_eq_false hc rfl, ne_of_class hc (d := '-') rfl, isDigit_eq_false_of_isWordStart hc,
    ne_of_class hc (d := '"') rfl, ne_of_class hc (d := '\'') rfl, hc, hword]

theorem exists_of_isIdentifier {name : String} (h : isIdentifier name = true) :
    ∃ c cs, name.toList = c :: cs ∧ isWordStart c = true ∧ ∀ d ∈ cs, isWordPart d = true := by
  unfold isIdentifier at h
  split at h
  · cases h
  · rename_i c cs heq
    rw [Bool.and_eq_true, List.all_eq_true] at h
    exact ⟨c, cs, heq, h⟩

theorem lexes_word {word : String} (h : isIdentifier word = true) : Lexes Separated word.toList [ofWord word] := by
  obtain ⟨c, cs, heq, hc, hcs⟩ := exists_of_isIdentifier h
  have hword : word = String.ofList (c :: cs) := by rw [← heq, String.ofList_toList]
  rw [heq, hword]
  exact lexes_of_piece fun rest hrest => piece_word hc hcs hrest

theorem lexes_mark {c : Char} {m : Mark} (h : ∀ cs, piece c cs = ⟨.token (.mark m), 0⟩) :
    Lexes (fun _ => True) [c] [.mark m] :=
  lexes_of_piece fun rest _ => h rest

theorem lexes_blank : Lexes (fun _ => True) [' '] [] := by
  intro rest us _
  rw [List.singleton_append, reads_skip (show piece ' ' rest = ⟨.skipped, 0⟩ from rfl)]
  simp

theorem lexes_spaced (c : Char) (cs : List Char) {t : Token}
    (h : ∀ rest, piece c (cs ++ ' ' :: rest) = ⟨.token t, cs.length⟩) :
    Lexes (fun _ => True) (c :: cs ++ [' ']) [t] := by
  have htoken : Lexes (fun rest => ∃ r, rest = ' ' :: r) (c :: cs) [t] := by
    apply lexes_of_piece
    rintro rest ⟨r, rfl⟩
    exact h r
  exact htoken.append lexes_blank fun rest _ => ⟨rest, rfl⟩

theorem lexes_separator (c : Char) (cs : List Char) {t : Token}
    (h : ∀ rest, piece c (cs ++ ' ' :: rest) = ⟨.token t, cs.length⟩) :
    Lexes (fun _ => True) (' ' :: (c :: cs ++ [' '])) [t] :=
  lexes_blank.append (lexes_spaced c cs h) fun _ _ => trivial

theorem lexes_arrow : Lexes (fun _ => True) ['-', '>'] [.mark .arrow] :=
  lexes_of_piece fun _ _ => rfl

theorem lexes_minus : Lexes (fun rest => rest.head? ≠ some '-' ∧ rest.head? ≠ some '>') ['-'] [.mark .minus] := by
  apply lexes_of_piece
  intro rest hrest
  match rest, hrest with
  | [], _ => rfl
  | c :: cs, ⟨hminus, htip⟩ =>
    simp only [List.head?_cons, ne_eq, Option.some.injEq] at hminus htip
    have hsymbol : symbol? '-' (c :: cs) = some (.minus, 0) := by
      unfold symbol?
      split <;> simp_all
    rw [List.nil_append, piece, if_neg (by decide), if_neg (by simp [hminus]), if_neg (by decide),
      if_neg (by decide), if_neg (by decide), hsymbol]
    rfl

def Legible : Token → Prop
  | .identifier name => isIdentifier name = true ∧ ofWord name = .identifier name
  | .integer n => 0 ≤ n.toInt
  | .real x => x.toBits.toNat ≤ Decimal.infinityBits
  | .mark _ | .string _ => True

theorem lexes_identifier {name : String} (h : (Token.identifier name).Legible) :
    Lexes Separated name.toList [.identifier name] := by
  have hword := lexes_word h.1
  rw [h.2] at hword
  exact hword

section Strings

variable {quote : Char} {escape : Char → List Char}

theorem quotedLength_cons {c : Char} (hslash : c ≠ '\\') (hquote : c ≠ quote) (cs : List Char) :
    quotedLength quote (c :: cs) = ((quotedLength quote cs).1 + 1, (quotedLength quote cs).2) := by
  rw [quotedLength.eq_def]
  split <;> simp_all

theorem quotedLength_quote (hquote : quote ≠ '\\') (cs : List Char) : quotedLength quote (quote :: cs) = (0, true) := by
  rw [quotedLength.eq_def]
  split <;> simp_all

theorem unescape_cons {c : Char} (hslash : c ≠ '\\') (cs : List Char) : unescape (c :: cs) = c :: unescape cs := by
  rw [unescape.eq_def]
  split <;> simp_all

def Escapes (quote : Char) (escape : Char → List Char) : Prop :=
  ∀ c, (∃ d, escape c = ['\\', d] ∧ d ≠ '\n' ∧ ∀ cs, unescape ('\\' :: d :: cs) = c :: unescape cs) ∨
    (escape c = [c] ∧ c ≠ '\\' ∧ c ≠ quote)

theorem Escapes.quotedLength (h : Escapes quote escape) (hquote : quote ≠ '\\') (cs rest : List Char) :
    quotedLength quote (cs.flatMap escape ++ quote :: rest) = ((cs.flatMap escape).length, true) := by
  induction cs with
  | nil => exact quotedLength_quote hquote rest
  | cons c cs ih =>
    rw [List.flatMap_cons, List.append_assoc]
    rcases h c with ⟨d, heq, hline, -⟩ | ⟨heq, hslash, hc⟩
    · rw [heq, List.cons_append, List.cons_append, List.nil_append, Token.quotedLength,
        if_neg (by simpa using hline), ih]
      rfl
    · rw [heq, List.singleton_append, quotedLength_cons hslash hc, ih]
      rfl

theorem Escapes.unescape (h : Escapes quote escape) (cs : List Char) : unescape (cs.flatMap escape) = cs := by
  induction cs with
  | nil => rfl
  | cons c cs ih =>
    rw [List.flatMap_cons]
    rcases h c with ⟨d, heq, -, hd⟩ | ⟨heq, hslash, -⟩
    · rw [heq, List.cons_append, List.cons_append, List.nil_append, hd, ih]
    · rw [heq, List.singleton_append, unescape_cons hslash, ih]

theorem Escapes.quotedString (h : Escapes quote escape) (hquote : quote ≠ '\\') (s : String) (rest : List Char) :
    quotedString quote (s.toList.flatMap escape ++ quote :: rest) =
      ⟨.token (.string s), (s.toList.flatMap escape ++ [quote]).length⟩ := by
  rw [Token.quotedString, h.quotedLength hquote]
  dsimp only
  rw [if_pos rfl, List.take_left, h.unescape, String.ofList_toList, List.length_append]
  rfl

end Strings

end GraphQuery.Token
