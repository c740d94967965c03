import GraphQuery.Proofs.Token.Patterns
import GraphQuery.Proofs.Token.Slices
import Mathlib

namespace GraphQuery.Token

open Computability

theorem length_le_takeWhile {p : Char → Bool} {v cs : List Char} (hv : ∀ d ∈ v, p d = true) (h : v <+: cs) :
    v.length ≤ (cs.takeWhile p).length := by
  obtain ⟨r, rfl⟩ := h
  rw [List.takeWhile_append_of_pos hv, List.length_append]
  exact Nat.le_add_right _ _

section Numbers

variable {c : Char} {cs v : List Char} {t : Token} {n : Nat}

theorem exponentSign_digits {ds : List Char} (h : ds ∈ digits) (rest : List Char) :
    exponentSign (ds ++ rest) = (false, 0, ds ++ rest) := by
  rw [mem_digits] at h
  obtain ⟨d, ds, rfl⟩ := List.exists_cons_of_ne_nil h.1
  have hd := h.2 d List.mem_cons_self
  have hplus := ne_of_class hd (d := '+') rfl
  have hminus := ne_of_class hd (d := '-') rfl
  unfold exponentSign
  split <;> simp_all

theorem exponentSign_cases (cs : List Char) : ∃ negative sign rest, exponentSign cs = (negative, sign.length, rest) ∧
    cs = sign ++ rest ∧ (sign = [] ∨ sign = ['+'] ∨ sign = ['-']) := by
  unfold exponentSign
  split
  · exact ⟨false, ['+'], _, rfl, rfl, by simp⟩
  · exact ⟨true, ['-'], _, rfl, rfl, by simp⟩
  · exact ⟨false, [], cs, rfl, rfl, by simp⟩

theorem length_le_exponentPart {es : List Char} (h : es ∈ exponents) (rest : List Char) :
    es.length ≤ (exponentPart (es ++ rest)).2 := by
  obtain ⟨e, sign, ds, rfl, he, hsign, hds⟩ := mem_exponents.1 h
  obtain ⟨negative, hpart⟩ : ∃ negative, exponentSign (sign ++ (ds ++ rest)) = (negative, sign.length, ds ++ rest) := by
    obtain rfl | rfl | rfl := hsign
    · exact ⟨_, exponentSign_digits hds rest⟩
    · exact ⟨_, rfl⟩
    · exact ⟨_, rfl⟩
  rw [mem_digits] at hds
  have hlength := length_le_takeWhile hds.2 (List.prefix_append ds rest)
  have hpos := List.length_pos_iff.2 hds.1
  rw [List.cons_append, List.append_assoc, exponentPart_mark he hpart, if_neg (by grind)]
  simp only [List.length_cons, List.length_append]
  omega

theorem exponentPart_mem (cs : List Char) : ∃ es rest, cs = es ++ rest ∧ (exponentPart cs).2 = es.length ∧
    (es = [] ∨ es ∈ exponents) := by
  cases cs with
  | nil => exact ⟨[], [], rfl, rfl, .inl rfl⟩
  | cons e cs =>
    by_cases he : (e == 'e' || e == 'E') = true
    · obtain ⟨negative, sign, rest, hpart, rfl, hsign⟩ := exponentSign_cases cs
      rw [exponentPart_mark he hpart]
      split
      next => exact ⟨[], _, rfl, rfl, .inl rfl⟩
      next hempty =>
        refine ⟨e :: (sign ++ rest.takeWhile Char.isDigit), rest.dropWhile Char.isDigit, ?_, ?_, .inr ?_⟩
        · rw [List.cons_append, List.append_assoc, List.takeWhile_append_dropWhile]
        · simp only [List.length_cons, List.length_append]
          omega
        · refine mem_exponents.2 ⟨e, sign, _, rfl, he, hsign, mem_digits.2 ⟨?_, ?_⟩⟩
          · simpa using hempty
          · exact fun d hd => List.mem_takeWhile_imp hd
    · rw [exponentPart, if_neg he]
      exact ⟨[], _, rfl, rfl, .inl rfl⟩

theorem length_takeWhile_le_number (c : Char) (cs : List Char) :
    (cs.takeWhile Char.isDigit).length ≤ (number c cs).more := by
  unfold number
  dsimp only
  split
  · split
    · exact Nat.le_refl _
    · dsimp only
      omega
  · exact Nat.le_refl _

theorem length_le_number_of_decimal (hv : v ∈ decimals) (h : v <+: c :: cs) : v.length ≤ (number c cs).more + 1 := by
  obtain ⟨ds, fs, es, rfl, hds, hfs, hes⟩ := mem_decimals.1 hv
  rw [mem_digits] at hds hfs
  obtain ⟨d, ds, rfl⟩ := List.exists_cons_of_ne_nil hds.1
  have hwhole : ∀ x ∈ ds, x.isDigit = true := fun x hx => hds.2 x (List.mem_cons_of_mem d hx)
  obtain ⟨rest, hcs⟩ : ∃ rest, ds ++ '.' :: (fs ++ (es ++ rest)) = cs := by
    obtain ⟨rest, hrest⟩ := (List.cons_prefix_cons.1 h).2
    exact ⟨rest, by rw [← hrest]; simp⟩
  have hpoint : ∀ x r, '.' :: (fs ++ (es ++ rest)) = x :: r → x.isDigit = false := by
    rintro x r ⟨⟩
    rfl
  have hafter : cs.dropWhile Char.isDigit = '.' :: (fs ++ (es ++ rest)) := by
    rw [← hcs, dropWhile_append_of_head hwhole hpoint]
  have hbefore : cs.takeWhile Char.isDigit = ds := by
    rw [← hcs, takeWhile_append_of_head hwhole hpoint]
  have hfraction : fs.length ≤ ((fs ++ (es ++ rest)).takeWhile Char.isDigit).length :=
    length_le_takeWhile hfs.2 (List.prefix_append _ _)
  have hpos := List.length_pos_iff.2 hfs.1
  rw [number_of_fraction hafter (by grind), hbefore]
  simp only [List.length_append, List.length_cons]
  obtain rfl | hes := hes
  · rw [List.length_nil]
    omega
  · -- the fraction ends before the exponent
    have hmark : ∀ x r, es ++ rest = x :: r → x.isDigit = false := by
      obtain ⟨e, sign, es, rfl, he, -⟩ := mem_exponents.1 hes
      rintro x r ⟨⟩
      obtain rfl | rfl : e = 'e' ∨ e = 'E' := by simpa using he
      · rfl
      · rfl
    have hexponent := length_le_exponentPart hes rest
    rw [dropWhile_append_of_head hfs.2 hmark]
    omega

theorem length_le_number (hv : v ∈ digits + decimals) (h : v <+: c :: cs) : v.length ≤ (number c cs).more + 1 := by
  rcases (Language.mem_add _ _ _).1 hv with hv | hv
  · rw [mem_digits] at hv
    obtain ⟨d, v, rfl⟩ := List.exists_cons_of_ne_nil hv.1
    have hle := length_le_takeWhile (fun x hx => hv.2 x (List.mem_cons_of_mem d hx)) (List.cons_prefix_cons.1 h).2
    exact Nat.succ_le_succ (hle.trans (length_takeWhile_le_number c cs))
  · exact length_le_number_of_decimal hv h

theorem takeWhile_mem_digits (hc : c.isDigit = true) (cs : List Char) :
    c :: cs.takeWhile Char.isDigit ∈ digits :=
  mem_digits.2 ⟨List.cons_ne_nil _ _, List.forall_mem_cons.2 ⟨hc, fun _ hd => List.mem_takeWhile_imp hd⟩⟩

theorem integerPiece_mem (hc : c.isDigit = true)
    (h : number.integerPiece c (cs.takeWhile Char.isDigit) = ⟨.token t, n⟩) :
    ∃ w rest, cs = w ++ rest ∧ n = w.length ∧ c :: w ∈ t.pattern := by
  refine ⟨cs.takeWhile Char.isDigit, cs.dropWhile Char.isDigit, List.takeWhile_append_dropWhile.symm, ?_⟩
  unfold number.integerPiece at h
  dsimp only at h
  split at h
  · cases h
    exact ⟨rfl, takeWhile_mem_digits hc cs⟩
  · cases h

theorem number_mem (hc : c.isDigit = true) (h : number c cs = ⟨.token t, n⟩) :
    ∃ w rest, cs = w ++ rest ∧ n = w.length ∧ c :: w ∈ t.pattern := by
  by_cases hfraction : ∃ rest, cs.dropWhile Char.isDigit = '.' :: rest ∧ (rest.takeWhile Char.isDigit).isEmpty = false
  · obtain ⟨rest, hrest, hempty⟩ := hfraction
    obtain ⟨es, after, hafter, hlength, hes⟩ := exponentPart_mem (rest.dropWhile Char.isDigit)
    rw [number_of_fraction hrest hempty, hlength] at h
    cases h
    refine ⟨cs.takeWhile Char.isDigit ++ '.' :: (rest.takeWhile Char.isDigit ++ es), after, ?_, ?_, ?_⟩
    · calc cs = cs.takeWhile Char.isDigit ++ '.' :: (rest.takeWhile Char.isDigit ++ rest.dropWhile Char.isDigit) := by
            rw [List.takeWhile_append_dropWhile, ← hrest, List.takeWhile_append_dropWhile]
        _ = _ := by
            rw [hafter]
            simp
    · simp only [List.length_append, List.length_cons]
      omega
    · apply mem_decimals.2
      refine ⟨c :: cs.takeWhile Char.isDigit, rest.takeWhile Char.isDigit, es, rfl, takeWhile_mem_digits hc cs, ?_, hes⟩
      exact mem_digits.2 ⟨by simpa using hempty, fun _ hd => List.mem_takeWhile_imp hd⟩
  · apply integerPiece_mem hc
    rw [← h]
    symm
    apply number_of_no_fraction
    intro rest hrest
    by_contra hempty
    exact hfraction ⟨rest, hrest, by simpa using hempty⟩

end Numbers

section Quotations

variable {quote c : Char} {cs v : List Char} {t : Token} {n : Nat}

theorem quotedLength_of_mem (hquote : quote ≠ '\\') {inside : List Char} (h : inside ∈ (quotable quote)∗)
    (rest : List Char) : quotedLength quote (inside ++ quote :: rest) = (inside.length, true) := by
  obtain ⟨vs, rfl, hvs⟩ := Language.mem_kstar.1 h
  induction vs with
  | nil => exact quotedLength_quote hquote rest
  | cons v vs ih =>
    rw [List.forall_mem_cons] at hvs
    have htail := ih hvs.2 (Language.join_mem_kstar hvs.2)
    rw [List.flatten_cons, List.append_assoc, List.length_append]
    rcases mem_quotable.1 hvs.1 with ⟨c, rfl, hc, hslash⟩ | ⟨c, rfl, hc⟩
    · rw [List.singleton_append, quotedLength_cons hslash hc, htail, List.length_singleton, Nat.add_comm]
    · rw [List.cons_append, List.singleton_append, quotedLength_escape (by simpa using hc) htail, Nat.add_comm]
      rfl

theorem exists_mem_of_quotedLength (h : quotedLength quote cs = (n, true)) :
    ∃ inside rest, cs = inside ++ quote :: rest ∧ inside.length = n ∧ inside ∈ (quotable quote)∗ := by
  fun_induction quotedLength quote cs generalizing n with
  | case1 => cases h
  | case2 => cases h
  | case3 => cases h
  | case4 c cs hc length closed heq ih =>
    cases h
    obtain ⟨inside, rest, rfl, rfl, hinside⟩ := ih heq
    refine ⟨'\\' :: c :: inside, rest, rfl, rfl, ?_⟩
    exact cons_mem_kstar (mem_quotable.2 (.inr ⟨c, rfl, by simpa using hc⟩)) hinside
  | case5 c cs _ _ hc =>
    cases h
    exact ⟨[], cs, by rw [eq_of_beq hc]; rfl, rfl, Language.nil_mem_kstar _⟩
  | case6 c cs hslash hslash' hc length closed heq ih =>
    cases h
    obtain ⟨inside, rest, rfl, rfl, hinside⟩ := ih heq
    refine ⟨c :: inside, rest, rfl, rfl, ?_⟩
    have hplain : c ≠ '\\' := by
      rintro rfl
      cases inside <;> exact hslash' _ _ rfl rfl
    exact cons_mem_kstar (mem_quotable.2 (.inl ⟨c, rfl, by simpa using hc, hplain⟩)) hinside

theorem quotedString_mem (h : quotedString quote cs = ⟨.token t, n⟩) :
    ∃ inside rest s, cs = inside ++ quote :: rest ∧ n = inside.length + 1 ∧ t = .string s ∧
      inside ∈ (quotable quote)∗ := by
  unfold quotedString at h
  split at h
  rename_i length closed hlength
  split at h
  next hclosed =>
    cases h
    subst hclosed
    obtain ⟨inside, rest, hcs, rfl, hinside⟩ := exists_mem_of_quotedLength hlength
    exact ⟨inside, rest, _, hcs, rfl, rfl, hinside⟩
  next => cases h

theorem length_of_quotation {quote' : Char} (hquote : quote ≠ '\\') (hv : v ∈ quotations quote')
    {inside rest : List Char} (hinside : inside ∈ (quotable quote)∗) (h : v <+: quote :: (inside ++ quote :: rest)) :
    v.length = inside.length + 2 := by
  obtain ⟨inside', hinside', rfl⟩ := mem_quotations.1 hv
  obtain ⟨rfl, rest', hrest⟩ := List.cons_prefix_cons.1 h
  have hsame : inside' ++ quote' :: rest' = inside ++ quote' :: rest := by simpa using hrest
  have hlength : (inside'.length, true) = (inside.length, true) := by
    rw [← quotedLength_of_mem hquote hinside' rest', hsame, quotedLength_of_mem hquote hinside]
  simp [(Prod.mk.inj hlength).1]

end Quotations

section Marks

variable {c : Char} {cs w v : List Char} {t : Token} {m m' : Mark} {n : Nat}

theorem symbol_mem (h : symbol? c cs = some (m, n)) :
    ∃ w rest, cs = w ++ rest ∧ n = w.length ∧ (c :: w, m) ∈ Mark.symbols := by
  unfold symbol? at h
  split at h <;> cases h
  case h_1 rest => exact ⟨['>'], rest, rfl, rfl, by decide⟩
  case h_2 rest => exact ⟨['>'], rest, rfl, rfl, by decide⟩
  case h_3 rest => exact ⟨['='], rest, rfl, rfl, by decide⟩
  case h_4 rest => exact ⟨['='], rest, rfl, rfl, by decide⟩
  all_goals exact ⟨[], _, rfl, rfl, by decide⟩

theorem length_le_symbol (h : symbol? c cs = some (m, n)) (hv : v ∈ symbols) (hinitial : v <+: c :: cs) :
    v.length ≤ n + 1 := by
  obtain ⟨m', hv⟩ := hv
  have hlong : ∀ x ∈ Mark.symbols, x.1.length ≤ 1 ∨ x.1 ∈ [['-', '>'], ['<', '>'], ['<', '='], ['>', '=']] := by decide
  rcases hlong _ hv with hshort | hlong
  · exact Nat.le_add_left_of_le hshort
  · obtain ⟨rest, hrest⟩ := hinitial
    simp only [List.mem_cons, List.not_mem_nil, or_false] at hlong
    rcases hlong with rfl | rfl | rfl | rfl
    all_goals
      cases hrest
      cases h
      exact Nat.le_refl _

theorem lookup_word {word : String} (h : (word, m) ∈ Mark.words) : Mark.words.lookup word = some m := by
  have hall : ∀ x ∈ Mark.words, Mark.words.lookup x.1 = some x.2 := by decide
  exact hall _ h

theorem lookup_symbol (h : (w, m) ∈ Mark.symbols) : Mark.symbols.lookup w = some m := by
  have hall : ∀ x ∈ Mark.symbols, Mark.symbols.lookup x.1 = some x.2 := by decide
  exact hall _ h

theorem kind_of_mem_spellings (h : c :: w ∈ m.spellings) :
    kind c = .letter ∧ Mark.words.lookup (String.ofList (c :: w)) = some m ∨
      kind c = .sign ∧ Mark.symbols.lookup (c :: w) = some m := by
  obtain hword | hsymbol := h
  · exact .inl ⟨kind_of_mem_names (mem_names_of_word hword), lookup_word hword⟩
  · exact .inr ⟨kind_of_symbol hsymbol, lookup_symbol hsymbol⟩

theorem ofWord_mem (h : w ∈ names) : w ∈ (ofWord (String.ofList w)).pattern := by
  unfold ofWord
  split
  next m hm =>
    obtain ⟨before, after, hwords, -⟩ := List.lookup_eq_some_iff.1 hm
    apply Or.inl
    rw [hwords]
    exact List.mem_append_right _ List.mem_cons_self
  next => exact h

end Marks

/-- The text matches the pattern of the token, no pattern matches more of what stands there, and the token is the mark
that is spelled so, if there is one. -/
structure IsLongest (t : Token) (w rest : List Char) : Prop where
  mem : w ∈ t.pattern
  longest : ∀ v ∈ lexemes, v <+: w ++ rest → v.length ≤ w.length
  fixed : ∀ m : Mark, w ∈ m.spellings → t = .mark m

section Longest

variable {c : Char} {cs w rest : List Char} {t : Token} {n : Nat}

theorem length_le_of_kind {k : Kind} (hkind : kind c = k)
    (h : ∀ v ∈ k.lexemes, v <+: c :: (w ++ rest) → v.length ≤ w.length + 1) :
    ∀ v ∈ lexemes, v <+: c :: w ++ rest → v.length ≤ (c :: w).length := by
  intro v hv hinitial
  cases v with
  | nil => exact Nat.zero_le _
  | cons d v =>
    obtain ⟨rfl, -⟩ := List.cons_prefix_cons.1 hinitial
    apply h (d :: v) ?_ hinitial
    rw [← hkind]
    exact mem_lexemes_kind hv

theorem number_isLongest (hc : c.isDigit = true) (h : number c cs = ⟨.token t, n⟩) :
    ∃ w rest, cs = w ++ rest ∧ n = w.length ∧ IsLongest t (c :: w) rest := by
  obtain ⟨w, rest, rfl, rfl, hmem⟩ := number_mem hc h
  refine ⟨w, rest, rfl, rfl, hmem, length_le_of_kind (kind_of_isDigit hc) ?_, ?_⟩
  · intro v hv hinitial
    have hle := length_le_number hv hinitial
    rwa [h] at hle
  · intro m hm
    simpa [kind_of_isDigit hc] using kind_of_mem_spellings hm

theorem quotedString_isLongest (hc : (c == '"' || c == '\'') = true) (h : quotedString c cs = ⟨.token t, n⟩) :
    ∃ w rest, cs = w ++ rest ∧ n = w.length ∧ IsLongest t (c :: w) rest := by
  obtain ⟨inside, rest, s, rfl, rfl, rfl, hinside⟩ := quotedString_mem h
  have hc : c = '"' ∨ c = '\'' := by simpa using hc
  have hmem : c :: (inside ++ [c]) ∈ (Token.string s).pattern := by
    have hquotation : c :: (inside ++ [c]) ∈ quotations c := mem_quotations.2 ⟨inside, hinside, rfl⟩
    obtain rfl | rfl := hc
    · exact .inl hquotation
    · exact .inr hquotation
  have hkind : kind c = .quote := kind_of_mem_quotations hmem
  refine ⟨inside ++ [c], rest, by simp, by simp, hmem, length_le_of_kind hkind ?_, ?_⟩
  · intro v hv hinitial
    have hslash : c ≠ '\\' := by
      obtain rfl | rfl := hc <;> decide
    obtain ⟨quote, hv⟩ : ∃ quote, v ∈ quotations quote := by
      rcases (Language.mem_add _ _ _).1 hv with hv | hv
      · exact ⟨_, hv⟩
      · exact ⟨_, hv⟩
    rw [List.append_assoc, List.singleton_append] at hinitial
    rw [length_of_quotation hslash hv hinside hinitial, List.length_append, List.length_singleton]
  · intro m hm
    simpa [hkind] using kind_of_mem_spellings hm

theorem word_isLongest (hc : isWordStart c = true) (cs : List Char) :
    IsLongest (ofWord (String.ofList (c :: cs.takeWhile isWordPart))) (c :: cs.takeWhile isWordPart)
      (cs.dropWhile isWordPart) := by
  have hname : c :: cs.takeWhile isWordPart ∈ names :=
    mem_run.2 ⟨c, _, rfl, hc, fun _ hd => List.mem_takeWhile_imp hd⟩
  refine ⟨ofWord_mem hname, length_le_of_kind (kind_of_isWordStart hc) ?_, ?_⟩
  · intro v hv hinitial
    obtain ⟨d, v, rfl, -, hparts⟩ := mem_run.1 hv
    rw [List.takeWhile_append_dropWhile] at hinitial
    exact Nat.succ_le_succ (length_le_takeWhile hparts (List.cons_prefix_cons.1 hinitial).2)
  · intro m hm
    rcases kind_of_mem_spellings hm with ⟨-, hlookup⟩ | ⟨hsign, -⟩
    · rw [ofWord, hlookup]
    · rw [kind_of_isWordStart hc] at hsign
      cases hsign

theorem symbol_isLongest {m : Mark} (hcomment : ¬(c == '-' && cs.head? == some '-') = true)
    (h : symbol? c cs = some (m, n)) :
    ∃ w rest, cs = w ++ rest ∧ n = w.length ∧ IsLongest (.mark m) (c :: w) rest := by
  obtain ⟨w, rest, rfl, rfl, hmem⟩ := symbol_mem h
  refine ⟨w, rest, rfl, rfl, .inr hmem, length_le_of_kind (kind_of_symbol hmem) ?_, ?_⟩
  · intro v hv hinitial
    rcases (Language.mem_add _ _ _).1 hv with hv | hv
    · exact length_le_symbol h hv hinitial
    · obtain ⟨line, rfl, -⟩ := mem_comments.1 hv
      obtain ⟨after, hafter⟩ := hinitial
      obtain ⟨rfl, hrest⟩ := List.cons.inj hafter
      rw [← hrest] at hcomment
      exact absurd rfl hcomment
  · intro m' hm'
    rcases kind_of_mem_spellings hm' with ⟨hletter, -⟩ | ⟨-, hlookup⟩
    · rw [kind_of_symbol hmem] at hletter
      cases hletter
    · rw [lookup_symbol hmem] at hlookup
      cases hlookup
      rfl

theorem piece_isLongest (h : piece c cs = ⟨.token t, n⟩) :
    ∃ w rest, cs = w ++ rest ∧ n = w.length ∧ IsLongest t (c :: w) rest := by
  unfold piece at h
  split at h
  · cases h
  split at h
  · cases h
  rename_i hcomment
  split at h
  · exact number_isLongest ‹_› h
  split at h
  · exact quotedString_isLongest ‹_› h
  split at h
  · cases h
    exact ⟨_, _, List.takeWhile_append_dropWhile.symm, rfl, word_isLongest ‹_› cs⟩
  split at h
  · cases h
    exact symbol_isLongest hcomment ‹_›
  · cases h

end Longest

end GraphQuery.Token
