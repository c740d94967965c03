import GraphQuery.Proofs.Token.LongestMatch

namespace GraphQuery.Token

def weigh (f : Token → Nat) : List Token → Nat
  | [] => 0
  | t :: ts => f t + weigh f ts

@[simp] theorem weigh_nil (f : Token → Nat) : weigh f [] = 0 :=
  rfl

@[simp] theorem weigh_cons (f : Token → Nat) (t : Token) (ts : List Token) : weigh f (t :: ts) = f t + weigh f ts :=
  rfl

@[simp] theorem weigh_append (f : Token → Nat) (ts us : List Token) :
    weigh f (ts ++ us) = weigh f ts + weigh f us := by
  induction ts with
  | nil => simp
  | cons t ts ih => simp only [List.cons_append, weigh_cons, ih, Nat.add_assoc]

def minusSigns : Token → Nat
  | .mark .minus => 1
  | _ => 0

def isDelimiter (c : Char) : Bool :=
  c == '.' || c == '"' || c == '\''

def delimiters : Token → Nat
  | .mark .dot | .real _ => 1
  | .string s => s.toList.countP isDelimiter + 2
  | .identifier name => name.toList.countP isDelimiter
  | .mark _ | .integer _ => 0

section Delimiters

variable {c : Char} {cs : List Char} {t : Token} {ts : List Token} {n : Nat}

theorem delimiters_ofWord (word : String) : (ofWord word).delimiters ≤ word.toList.countP isDelimiter := by
  unfold ofWord
  split
  · rename_i m hm
    obtain ⟨ws, ws', hwords, -⟩ := List.lookup_eq_some_iff.1 hm
    have hmem : m ∈ Mark.words.map (·.2) := by
      rw [hwords]
      simp
    have hdot : ∀ m ∈ Mark.words.map (·.2), (Token.mark m).delimiters = 0 := by decide
    rw [hdot m hmem]
    exact Nat.zero_le _
  · exact Nat.le_refl _

theorem delimiters_of_symbol {m : Mark} (h : symbol? c cs = some (m, n)) :
    (Token.mark m).delimiters ≤ (c :: cs.take n).countP isDelimiter := by
  unfold symbol? at h
  split at h <;> cases h <;> simp [delimiters, isDelimiter]

theorem countP_unescape_le (cs : List Char) : (unescape cs).countP isDelimiter ≤ cs.countP isDelimiter := by
  fun_induction unescape cs with
  | case1 => exact Nat.le_refl _
  | case2 => exact Nat.le_refl _
  | case3 c cs plain ih =>
    have hplain : isDelimiter plain = true → isDelimiter c = true := by
      unfold plain
      split
      · intro h
        cases h
      · intro h
        cases h
      · intro h
        cases h
      · exact id
    simp only [List.countP_cons]
    grind
  | case4 c cs _ _ ih =>
    simp only [List.countP_cons]
    omega

theorem delimiters_of_quotedString (hc : isDelimiter c = true)
    (h : quotedString c cs = ⟨.token t, n⟩) : t.delimiters ≤ (c :: cs.take n).countP isDelimiter := by
  unfold quotedString at h
  split at h
  rename_i length closed hlength
  split at h
  · rename_i hclosed
    cases h
    subst hclosed
    obtain ⟨inside, rest, rfl, rfl, -⟩ := exists_mem_of_quotedLength hlength
    have hinside := countP_unescape_le inside
    have htake : (inside ++ c :: rest).take (inside.length + 1) = inside ++ [c] := by
      rw [List.append_cons]
      exact List.take_left' (by simp)
    rw [htake, List.take_left, delimiters, String.toList_ofList]
    simp only [List.countP_cons, List.countP_append, List.countP_nil, hc, ↓reduceIte]
    omega
  · cases h

theorem delimiters_of_number (h : number c cs = ⟨.token t, n⟩) :
    t.delimiters ≤ (c :: cs.take n).countP isDelimiter := by
  have hinteger : ∀ whole, number.integerPiece c whole = ⟨.token t, n⟩ → t.delimiters = 0 := by
    intro whole h
    unfold number.integerPiece at h
    dsimp only at h
    split at h
    · cases h
      rfl
    · cases h
  unfold number at h
  dsimp only at h
  split at h
  · rename_i rest hrest
    split at h
    · rw [hinteger _ h]
      exact Nat.zero_le _
    · cases h
      rw [delimiters, List.one_le_countP_iff]
      refine ⟨'.', List.mem_cons_of_mem _ ?_, rfl⟩
      have hcs : cs.takeWhile Char.isDigit ++ ['.'] ++ rest = cs := by
        rw [← List.append_cons, ← hrest, List.takeWhile_append_dropWhile]
      have hmem : ∀ n, (cs.takeWhile Char.isDigit).length < n → '.' ∈ cs.take n := by
        intro n hn
        have hprefix : cs.takeWhile Char.isDigit ++ ['.'] <+: cs.take n :=
          List.prefix_take_iff.2 ⟨⟨rest, hcs⟩, by rwa [List.length_append]⟩
        exact hprefix.subset (List.mem_append_right _ List.mem_cons_self)
      exact hmem _ (by omega)
  · rw [hinteger _ h]
    exact Nat.zero_le _

theorem delimiters_of_piece (h : piece c cs = ⟨.token t, n⟩) :
    t.delimiters ≤ (c :: cs.take n).countP isDelimiter := by
  unfold piece at h
  split at h
  · cases h
  split at h
  · cases h
  split at h
  · exact delimiters_of_number h
  split at h
  · rename_i hquote
    apply delimiters_of_quotedString ?_ h
    rw [isDelimiter, Bool.or_assoc, hquote, Bool.or_true]
  split at h
  · cases h
    have hword := delimiters_ofWord (String.ofList (c :: cs.takeWhile isWordPart))
    rw [String.toList_ofList] at hword
    rw [take_length_takeWhile]
    exact hword
  split at h
  · rename_i hsymbol
    cases h
    exact delimiters_of_symbol hsymbol
  · cases h

theorem Reads.delimiters_le (h : Reads cs ts) :
    weigh delimiters ts ≤ cs.countP isDelimiter := by
  induction h with
  | nil => exact Nat.le_refl _
  | @skip c cs n ts _ _ ih =>
    have hdrop := (List.drop_sublist n cs).countP_le (p := isDelimiter)
    rw [List.countP_cons]
    omega
  | @token c cs n t ts h _ ih =>
    have hpiece := delimiters_of_piece h
    have hsplit : cs.countP isDelimiter = (cs.take n).countP isDelimiter + (cs.drop n).countP isDelimiter := by
      rw [← List.countP_append, List.take_append_drop]
    rw [List.countP_cons] at hpiece ⊢
    rw [weigh_cons]
    omega

end Delimiters

def Quoted (cs : List Char) : Prop :=
  ∀ pre post, cs = pre ++ '\n' :: post → '\'' ∈ pre

section Quoted

variable {cs cs' : List Char}

theorem quoted_of_not_mem (h : '\n' ∉ cs) : Quoted cs := by
  rintro pre post rfl
  exact absurd (List.mem_append_right _ List.mem_cons_self) h

theorem quoted_name {name : String} (h : (Token.identifier name).Legible) : Quoted name.toList := by
  apply quoted_of_not_mem
  obtain ⟨c, cs, heq, hc, hcs⟩ := exists_of_isIdentifier h.1
  rw [heq]
  intro hmem
  rcases List.mem_cons.1 hmem with rfl | hmem
  · cases hc
  · cases hcs _ hmem

theorem quoted_quote (cs : List Char) : Quoted ('\'' :: cs) := by
  intro pre post heq
  cases pre with
  | nil => cases heq
  | cons c pre =>
    cases heq
    exact List.mem_cons_self

theorem Quoted.append (h : Quoted cs) (h' : Quoted cs') : Quoted (cs ++ cs') := by
  intro pre post heq
  rcases List.append_eq_append_iff.1 heq with ⟨as, rfl, has⟩ | ⟨bs, rfl, hbs⟩
  · exact List.mem_append_right _ (h' as post has)
  · cases bs with
    | nil => exact absurd (h' [] post hbs.symm) List.not_mem_nil
    | cons b bs =>
      cases hbs
      exact h pre bs rfl

theorem Quoted.cons {c : Char} (h : Quoted cs) (hc : c ≠ '\n') : Quoted (c :: cs) := by
  have hsingle : Quoted [c] := quoted_of_not_mem (by simpa using hc.symm)
  exact hsingle.append h

theorem Quoted.of_cons {c : Char} (h : Quoted (c :: cs)) (hc : c ≠ '\'') : Quoted cs := by
  rintro pre post rfl
  rcases List.mem_cons.1 (h (c :: pre) post rfl) with heq | hmem
  · exact absurd heq.symm hc
  · exact hmem

end Quoted

def Commented (cs : List Char) (ts : List Token) : Prop :=
  ∃ pre post ps us, cs = pre ++ '-' :: '-' :: post ∧ ts = ps ++ .mark .minus :: us ∧ Lexes Separated pre ps ∧
    Quoted post

theorem separated_minus (cs : List Char) : Separated ('-' :: cs) :=
  separated_cons rfl (by decide) cs

theorem Lexes.delimiters_le {cs : List Char} {ts : List Token} (h : Lexes Separated cs ts) :
    weigh delimiters ts ≤ cs.countP isDelimiter :=
  (h.reads trivial).delimiters_le

theorem Commented.reads {cs : List Char} {ts us : List Token} (h : Commented cs ts) (hus : Reads cs us) :
    weigh minusSigns us < weigh minusSigns ts ∨ weigh delimiters us < cs.countP isDelimiter := by
  obtain ⟨pre, post, ps, qs, rfl, rfl, hpre, hpost⟩ := h
  obtain ⟨vs, hvs, rfl⟩ := (hpre _ _ (separated_minus _)).1 hus
  have hcomment : piece '-' ('-' :: post) = ⟨.skipped, ((('-' :: post).takeWhile (· != '\n'))).length⟩ := rfl
  rw [reads_skip hcomment] at hvs
  -- a comment that ends before the text does has lost a quote, any other one the minus signs
  by_cases hmem : '\n' ∈ post
  · obtain ⟨line, bs, rfl, hline⟩ := List.eq_append_cons_of_mem hmem
    have htake : ('-' :: line ++ '\n' :: bs).takeWhile (· != '\n') = '-' :: line :=
      takeWhile_append_of_head (by grind) (by grind)
    rw [List.cons_append] at htake
    rw [htake] at hvs
    have hdrop : ('-' :: (line ++ '\n' :: bs)).drop ('-' :: line).length = '\n' :: bs := List.drop_left
    rw [hdrop] at hvs
    have hquote : 1 ≤ line.countP isDelimiter := List.one_le_countP_iff.2 ⟨'\'', hpost line bs rfl, rfl⟩
    have hps := hpre.delimiters_le
    have hrest := hvs.delimiters_le
    right
    simp only [weigh_append, List.countP_append, List.countP_cons] at hrest ⊢
    omega
  · have htake : ('-' :: post ++ []).takeWhile (· != '\n') = '-' :: post :=
      takeWhile_append_of_head (by grind) (by simp)
    rw [List.append_nil] at htake
    rw [htake, List.drop_length, reads_nil] at hvs
    left
    rw [hvs]
    simp only [weigh_append, weigh_cons, weigh_nil, minusSigns]
    omega

structure Scans (clear : Bool) (follow : List Char → Prop) (cs : List Char) (ts : List Token) : Prop where
  quoted : Quoted cs
  lexes : clear = true → Lexes follow cs ts
  commented : clear = false → Commented cs ts

section Scans

variable {clear clear' : Bool} {follow follow' : List Char → Prop} {cs cs' : List Char} {ts ts' : List Token}

theorem Lexes.scans (h : Lexes follow cs ts) (hquoted : Quoted cs) : Scans true follow cs ts where
  quoted := hquoted
  lexes _ := h
  commented hfalse := by cases hfalse

theorem Scans.any (h : Scans clear (fun _ => True) cs ts) : Scans clear follow cs ts where
  quoted := h.quoted
  lexes hclear := (h.lexes hclear).any
  commented := h.commented

theorem Commented.append (h : Commented cs ts) (hquoted : Quoted cs') (ts' : List Token) :
    Commented (cs ++ cs') (ts ++ ts') := by
  obtain ⟨pre, post, ps, us, rfl, rfl, hpre, hpost⟩ := h
  refine ⟨pre, post ++ cs', ps, us ++ ts', ?_, ?_, hpre, hpost.append hquoted⟩
  · simp only [List.append_assoc, List.cons_append]
  · simp only [List.append_assoc, List.cons_append]

theorem Commented.prepend (h : Commented cs' ts') (hlexes : Lexes (fun _ => True) cs ts) :
    Commented (cs ++ cs') (ts ++ ts') := by
  obtain ⟨pre, post, ps, us, rfl, rfl, hpre, hpost⟩ := h
  refine ⟨cs ++ pre, post, ts ++ ps, us, ?_, ?_, hlexes.append hpre fun _ _ => trivial, hpost⟩
  · rw [List.append_assoc]
  · rw [List.append_assoc]

theorem Scans.followed (h : Scans clear follow cs ts) (h' : Lexes follow' cs' ts') (hquoted : Quoted cs')
    (hfollow : ∀ rest, follow' rest → follow (cs' ++ rest)) : Scans clear follow' (cs ++ cs') (ts ++ ts') where
  quoted := h.quoted.append hquoted
  lexes hclear := (h.lexes hclear).append h' hfollow
  commented hclear := (h.commented hclear).append hquoted ts'

theorem Scans.append (h : Scans clear (fun _ => True) cs ts) (h' : Scans clear' follow' cs' ts') :
    Scans (clear && clear') follow' (cs ++ cs') (ts ++ ts') where
  quoted := h.quoted.append h'.quoted
  lexes hclear := by
    rw [Bool.and_eq_true] at hclear
    exact (h.lexes hclear.1).append (h'.lexes hclear.2) fun _ _ => trivial
  commented hclear := by
    cases hleft : clear with
    | false => exact (h.commented hleft).append h'.quoted ts'
    | true =>
      rw [hleft, Bool.true_and] at hclear
      exact (h'.commented hclear).prepend (h.lexes hleft)

def Starts (cs : List Char) : Prop :=
  ∃ c r, cs = c :: r ∧ c ≠ '-' ∧ c ≠ '>'

theorem Starts.append (h : Starts cs) (cs' : List Char) : Starts (cs ++ cs') := by
  obtain ⟨c, r, rfl, hc⟩ := h
  exact ⟨c, r ++ cs', rfl, hc⟩

theorem Starts.lexes_minus (h : Starts cs) (hlexes : Lexes follow cs ts) :
    Lexes follow ('-' :: cs) (.mark .minus :: ts) := by
  refine Token.lexes_minus.append hlexes fun rest _ => ?_
  obtain ⟨c, r, rfl, hminus, htip⟩ := h
  simp [hminus, htip]

theorem Scans.minus (h : Scans clear follow cs ts) (hstarts : Starts cs) :
    Scans clear follow ('-' :: cs) (.mark .minus :: ts) where
  quoted := h.quoted.cons (by decide)
  lexes hclear := hstarts.lexes_minus (h.lexes hclear)
  commented hclear := by
    obtain ⟨pre, post, ps, us, rfl, rfl, hpre, hpost⟩ := h.commented hclear
    refine ⟨'-' :: pre, post, .mark .minus :: ps, us, rfl, rfl, ?_, hpost⟩
    -- the text before the comment is not empty, as the whole text does not begin with a minus sign
    obtain ⟨c, r, heq, hminus, htip⟩ := hstarts
    cases pre with
    | nil =>
      cases heq
      exact absurd rfl hminus
    | cons c' pre =>
      cases heq
      exact Starts.lexes_minus ⟨c, pre, rfl, hminus, htip⟩ hpre

theorem scans_comment {r : List Char} (h : Quoted ('-' :: r)) (ts : List Token) :
    Scans false follow ('-' :: '-' :: r) (.mark .minus :: ts) where
  quoted := h.cons (by decide)
  lexes hfalse := by cases hfalse
  commented _ := ⟨[], r, [], ts, rfl, rfl, lexes_nil, h.of_cons (by decide)⟩

theorem Scans.between {sep : List Char} {us : List Token} (h : Scans clear Separated cs ts)
    (hsep : Lexes (fun _ => True) (' ' :: sep) us) (hquoted : Quoted (' ' :: sep))
    (h' : Scans clear' follow' cs' ts') :
    Scans (clear && clear') follow' (cs ++ ' ' :: sep ++ cs') (ts ++ us ++ ts') :=
  (h.followed hsep hquoted fun _ _ => separated_cons rfl (by decide) _).append h'

theorem Scans.closed {c : Char} {m : Mark} (h : Scans clear Separated cs ts)
    (hc : ∀ cs, piece c cs = ⟨.token (.mark m), 0⟩) (hline : c ≠ '\n') (hseparated : ∀ rest, Separated (c :: rest)) :
    Scans clear (fun _ => True) (cs ++ [c]) (ts ++ [Token.mark m]) :=
  h.followed (lexes_mark hc) (quoted_of_not_mem (by simpa using hline.symm)) fun rest _ => hseparated rest

theorem Scans.opened {opening : List Char} {os : List Token} (h : Scans clear follow cs ts)
    (hopening : Lexes (fun _ => True) opening os) (hquoted : Quoted opening) :
    Scans clear follow (opening ++ cs) (os ++ ts) := by
  have hscans := (hopening.scans hquoted).append h
  rwa [Bool.true_and] at hscans

theorem separated_paren (rest : List Char) : Separated (')' :: rest) :=
  separated_cons rfl (by decide) rest

theorem Scans.parentheses (h : Scans clear Separated cs ts) :
    Scans clear (fun _ => True) ('(' :: (cs ++ [')'])) (Token.mark .leftParen :: (ts ++ [Token.mark .rightParen])) :=
  (h.closed (fun _ => rfl) (by decide) separated_paren).opened (lexes_mark fun _ => rfl)
    (quoted_of_not_mem (by decide))

structure Opening (cs : List Char) (ts : List Token) : Prop where
  lexes : Lexes (fun _ => True) cs ts
  quoted : Quoted cs
  separated : ∀ rest, Separated (cs ++ rest)

theorem Scans.call {opening arguments : List Char} {os us : List Token} (h : Scans clear Separated cs ts)
    (hopening : Opening opening os) (harguments : Scans clear' Separated arguments us) :
    Scans (clear && clear') (fun _ => True) (cs ++ (opening ++ (arguments ++ [')'])))
      (ts ++ (os ++ (us ++ [Token.mark .rightParen]))) := by
  have hopened := h.followed hopening.lexes hopening.quoted fun rest _ => hopening.separated rest
  have hscans := hopened.append (harguments.closed (fun _ => rfl) (by decide) separated_paren)
  rwa [List.append_assoc, List.append_assoc] at hscans

variable {name : String}

theorem lexes_paren : Lexes (fun _ => True) ['('] [.mark .leftParen] :=
  lexes_mark fun _ => rfl

theorem lexes_opening (h : (Token.identifier name).Legible) :
    Lexes (fun _ => True) (name.toList ++ ['(']) [.identifier name, .mark .leftParen] :=
  (lexes_identifier h).append lexes_paren fun _ _ => separated_cons rfl (by decide) _

theorem quoted_opening (h : (Token.identifier name).Legible) : Quoted (name.toList ++ ['(']) :=
  (quoted_name h).append (quoted_of_not_mem (by decide))

theorem separated_dot (h : (Token.identifier name).Legible) (rest : List Char) :
    Separated ('.' :: (name.toList ++ rest)) := by
  obtain ⟨c, cs, heq, hc, -⟩ := exists_of_isIdentifier h.1
  rw [heq]
  exact isDigit_eq_false_of_isWordStart hc

theorem lexes_dot : Lexes (fun _ => True) ['.'] [.mark .dot] :=
  lexes_mark fun _ => rfl

theorem opening_dot (h : (Token.identifier name).Legible) :
    Opening ('.' :: (name.toList ++ ['('])) [.mark .dot, .identifier name, .mark .leftParen] where
  lexes := lexes_dot.append (lexes_opening h) fun _ _ => trivial
  quoted := (quoted_opening h).cons (by decide)
  separated rest := by
    rw [List.cons_append, List.append_assoc]
    exact separated_dot h _

theorem opening_arrow (h : (Token.identifier name).Legible) :
    Opening ('-' :: '>' :: (name.toList ++ ['('])) [.mark .arrow, .identifier name, .mark .leftParen] where
  lexes := lexes_arrow.append (lexes_opening h) fun _ _ => trivial
  quoted := ((quoted_opening h).cons (by decide)).cons (by decide)
  separated rest := separated_minus _

theorem Scans.navigation (h : Scans clear Separated cs ts) (hname : (Token.identifier name).Legible) :
    Scans clear Separated (cs ++ '.' :: name.toList) (ts ++ [Token.mark .dot, Token.identifier name]) :=
  h.followed (lexes_dot.append (lexes_identifier hname) fun _ _ => trivial) ((quoted_name hname).cons (by decide))
    fun rest _ => separated_dot hname rest

end Scans

end GraphQuery.Token
