import GraphQuery.Proofs.Token.Places
import GraphQuery.Token.Lexer

namespace GraphQuery.Token

section Cuts

variable {c : Char} {as bs : List Char} {n : Nat}

theorem takeWhile_cut {p : Char → Bool} (h : ((as ++ bs).takeWhile p).length ≤ as.length) :
    (as ++ bs).takeWhile p = as.takeWhile p := by
  rw [List.takeWhile_append] at h ⊢
  split at h
  next hall =>
    have has : as.takeWhile p = as := (List.takeWhile_prefix p).eq_of_length hall
    have hbs : bs.takeWhile p = [] := by
      apply List.length_eq_zero_iff.1
      rw [List.length_append] at h
      omega
    rw [if_pos hall, hbs, List.append_nil, has]
  next hall => rw [if_neg hall]

theorem dropWhile_cut {p : Char → Bool} (h : ((as ++ bs).takeWhile p).length ≤ as.length) :
    (as ++ bs).dropWhile p = as.dropWhile p ++ bs := by
  have hwhole : (as ++ bs).takeWhile p ++ (as ++ bs).dropWhile p = as.takeWhile p ++ (as.dropWhile p ++ bs) := by
    rw [List.takeWhile_append_dropWhile, ← List.append_assoc, List.takeWhile_append_dropWhile]
  rw [takeWhile_cut h] at hwhole
  exact List.append_cancel_left hwhole

theorem length_dropWhile (p : Char → Bool) (cs : List Char) :
    (cs.takeWhile p).length + (cs.dropWhile p).length = cs.length := by
  rw [← List.length_append, List.takeWhile_append_dropWhile]

theorem exponentSign_append (d : Char) (as bs : List Char) : ∃ negative k rest,
    exponentSign (d :: as) = (negative, k, rest) ∧ exponentSign (d :: as ++ bs) = (negative, k, rest ++ bs) ∧
      k + rest.length = as.length + 1 := by
  by_cases hplus : d = '+'
  · subst hplus
    exact ⟨_, _, _, rfl, rfl, Nat.add_comm ..⟩
  by_cases hminus : d = '-'
  · subst hminus
    exact ⟨_, _, _, rfl, rfl, Nat.add_comm ..⟩
  have hsign : ∀ cs : List Char, exponentSign (d :: cs) = (false, 0, d :: cs) := by
    intro cs
    unfold exponentSign
    split <;> simp_all
  exact ⟨_, _, _, hsign as, hsign (as ++ bs), Nat.zero_add _⟩

theorem exponentPart_mark {cs rest : List Char} {negative : Bool} {k : Nat} (hc : (c == 'e' || c == 'E') = true)
    (hsign : exponentSign cs = (negative, k, rest)) :
    exponentPart (c :: cs) = if (rest.takeWhile Char.isDigit).isEmpty then (0, 0) else
      (if negative then -(digitsValue (rest.takeWhile Char.isDigit) : Int) else digitsValue (rest.takeWhile Char.isDigit),
        1 + k + (rest.takeWhile Char.isDigit).length) := by
  rw [exponentPart, if_pos hc, hsign]

theorem exponentPart_of_snd_le_one {cs : List Char} (h : (exponentPart cs).2 ≤ 1) : exponentPart cs = (0, 0) := by
  cases cs with
  | nil => rfl
  | cons c cs =>
    by_cases hc : (c == 'e' || c == 'E') = true
    · obtain ⟨⟨negative, k, rest⟩, hsign⟩ : ∃ sign, exponentSign cs = sign := ⟨_, rfl⟩
      rw [exponentPart_mark hc hsign] at h ⊢
      by_cases hdigits : (rest.takeWhile Char.isDigit).isEmpty
      · rw [if_pos hdigits]
      · rw [if_neg hdigits] at h
        have hlength : (rest.takeWhile Char.isDigit).length ≠ 0 := by simpa using hdigits
        simp only at h
        omega
    · rw [exponentPart, if_neg hc]

theorem exponentPart_cut (h : (exponentPart (as ++ bs)).2 ≤ as.length) : exponentPart (as ++ bs) = exponentPart as := by
  cases as with
  | nil => exact exponentPart_of_snd_le_one (Nat.le_succ_of_le h)
  | cons c as =>
    by_cases hc : (c == 'e' || c == 'E') = true
    · cases as with
      | nil =>
        rw [exponentPart_of_snd_le_one h, exponentPart_mark hc rfl]
        rfl
      | cons d as =>
        obtain ⟨negative, k, rest, hsign, hsign', hlength⟩ := exponentSign_append d as bs
        rw [List.cons_append, exponentPart_mark hc hsign'] at h ⊢
        have hdigits : ((rest ++ bs).takeWhile Char.isDigit).length ≤ rest.length := by
          split at h
          next hempty => simp [List.isEmpty_iff.1 hempty]
          next =>
            simp only [List.length_cons] at h
            omega
        rw [exponentPart_mark hc hsign, takeWhile_cut hdigits]
    · rw [List.cons_append, exponentPart, if_neg hc, exponentPart, if_neg hc]

theorem quotedLength_escape {quote : Char} {cs : List Char} {k : Nat} {closed : Bool} (hc : ¬(c == '\n') = true)
    (h : quotedLength quote cs = (k, closed)) : quotedLength quote ('\\' :: c :: cs) = (k + 2, closed) := by
  rw [quotedLength, if_neg hc, h]

theorem quotedLength_plain {quote : Char} {cs : List Char} {k : Nat} {closed : Bool} (hc : c ≠ '\\')
    (h : quotedLength quote cs = (k, closed)) :
    quotedLength quote (c :: cs) = if c == quote then (0, true) else (k + 1, closed) := by
  rw [quotedLength, h]
  · exact fun h => absurd h hc
  · exact fun _ _ h => absurd h hc

theorem quotedLength_cut {quote : Char} (h : quotedLength quote (as ++ bs) = (n, true)) (hn : n < as.length) :
    quotedLength quote as = (n, true) := by
  fun_induction quotedLength quote as generalizing n with
  | case1 => cases hn
  | case2 =>
    obtain rfl : n = 0 := by simpa using hn
    cases bs with
    | nil => exact h
    | cons b bs =>
      rw [List.singleton_append, quotedLength] at h
      split at h <;> simp at h
  | case3 c cs hc =>
    rw [List.cons_append, List.cons_append, quotedLength, if_pos hc] at h
    cases h
  | case4 c cs hc length closed hlength ih =>
    obtain ⟨⟨k, closed'⟩, hk⟩ : ∃ q, quotedLength quote (cs ++ bs) = q := ⟨_, rfl⟩
    rw [List.cons_append, List.cons_append, quotedLength_escape hc hk] at h
    cases h
    simp only [List.length_cons] at hn
    have hcut := ih hk (by omega)
    rw [hlength] at hcut
    cases hcut
    rfl
  | case5 c cs hc hc' hquote =>
    have hc : c ≠ '\\' := by
      cases cs with
      | nil => exact fun h => hc h rfl
      | cons d cs => exact fun h => hc' d cs h rfl
    rw [List.cons_append, quotedLength_plain hc rfl, if_pos hquote] at h
    exact h
  | case6 c cs hc hc' hquote length closed hlength ih =>
    have hc : c ≠ '\\' := by
      cases cs with
      | nil => exact fun h => hc h rfl
      | cons d cs => exact fun h => hc' d cs h rfl
    obtain ⟨⟨k, closed'⟩, hk⟩ : ∃ q, quotedLength quote (cs ++ bs) = q := ⟨_, rfl⟩
    rw [List.cons_append, quotedLength_plain hc hk, if_neg hquote] at h
    cases h
    simp only [List.length_cons] at hn
    have hcut := ih hk (by omega)
    rw [hlength] at hcut
    cases hcut
    rfl

theorem symbol?_cut {m : Mark} (h : symbol? c (as ++ bs) = some (m, n)) (hn : n ≤ as.length) :
    symbol? c as = some (m, n) := by
  cases as with
  | nil =>
    unfold symbol? at h
    split at h <;> simp_all [symbol?]
  | cons a as =>
    rw [← h]
    unfold symbol?
    split <;> simp_all

theorem number_of_fraction {cs rest : List Char} (h : cs.dropWhile Char.isDigit = '.' :: rest)
    (hfraction : (rest.takeWhile Char.isDigit).isEmpty = false) :
    number c cs = ⟨.token (.real (Decimal.ofDigits
        (digitsValue (c :: cs.takeWhile Char.isDigit ++ rest.takeWhile Char.isDigit))
        ((exponentPart (rest.dropWhile Char.isDigit)).1 - (rest.takeWhile Char.isDigit).length))),
      (cs.takeWhile Char.isDigit).length + 1 + (rest.takeWhile Char.isDigit).length +
        (exponentPart (rest.dropWhile Char.isDigit)).2⟩ := by
  simp only [number, h, hfraction, Bool.false_eq_true, if_false]

theorem number_of_no_fraction {cs : List Char}
    (h : ∀ rest, cs.dropWhile Char.isDigit = '.' :: rest → (rest.takeWhile Char.isDigit).isEmpty = true) :
    number c cs = number.integerPiece c (cs.takeWhile Char.isDigit) := by
  unfold number
  split
  next rest heq => simp only [h rest heq, if_true]
  next => rfl

theorem number_cut (h : (number c (as ++ bs)).more ≤ as.length) : number c (as ++ bs) = number c as := by
  have hlength := length_dropWhile Char.isDigit as
  by_cases hfraction : ∃ rest, (as ++ bs).dropWhile Char.isDigit = '.' :: rest ∧
      (rest.takeWhile Char.isDigit).isEmpty = false
  · obtain ⟨rest, hrest, hempty⟩ := hfraction
    rw [number_of_fraction hrest hempty] at h ⊢
    simp only at h
    have hwhole : ((as ++ bs).takeWhile Char.isDigit).length ≤ as.length := by omega
    rw [takeWhile_cut hwhole] at h ⊢
    rw [dropWhile_cut hwhole] at hrest
    -- the point is not behind the cut
    obtain ⟨ds, hds⟩ : ∃ ds, as.dropWhile Char.isDigit = '.' :: ds := by
      cases hds : as.dropWhile Char.isDigit with
      | nil =>
        rw [hds, List.length_nil] at hlength
        omega
      | cons d ds =>
        rw [hds, List.cons_append, List.cons.injEq] at hrest
        exact ⟨ds, by rw [hrest.1]⟩
    rw [hds, List.cons_append, List.cons.injEq] at hrest
    obtain ⟨-, rfl⟩ := hrest
    rw [hds, List.length_cons] at hlength
    have hcut : ((ds ++ bs).takeWhile Char.isDigit).length ≤ ds.length := by omega
    have hlength' := length_dropWhile Char.isDigit ds
    rw [takeWhile_cut hcut, dropWhile_cut hcut] at h ⊢
    rw [takeWhile_cut hcut] at hempty
    rw [exponentPart_cut (by omega), number_of_fraction hds hempty]
  · have hnone : ∀ rest, (as ++ bs).dropWhile Char.isDigit = '.' :: rest →
        (rest.takeWhile Char.isDigit).isEmpty = true := by
      intro rest hrest
      cases hempty : (rest.takeWhile Char.isDigit).isEmpty with
      | true => rfl
      | false => exact absurd ⟨rest, hrest, hempty⟩ hfraction
    rw [number_of_no_fraction hnone] at h ⊢
    have hwhole : ((as ++ bs).takeWhile Char.isDigit).length ≤ as.length := h
    rw [takeWhile_cut hwhole, number_of_no_fraction]
    intro ds hds
    rw [dropWhile_cut hwhole, hds] at hnone
    have hempty := hnone (ds ++ bs) rfl
    rw [List.isEmpty_iff] at hempty
    have hcut : (ds ++ bs).takeWhile Char.isDigit = ds.takeWhile Char.isDigit := takeWhile_cut (by simp [hempty])
    rw [← hcut, hempty]
    rfl

theorem quotedString_cut {quote : Char} {l : Lexeme} (h : quotedString quote (as ++ bs) = ⟨l, n⟩)
    (hl : l ≠ .invalid) (hn : n ≤ as.length) : quotedString quote as = ⟨l, n⟩ := by
  obtain ⟨⟨k, closed⟩, hk⟩ : ∃ q, quotedLength quote (as ++ bs) = q := ⟨_, rfl⟩
  cases closed with
  | false =>
    simp only [quotedString, hk, Bool.false_eq_true, if_false, Piece.mk.injEq] at h
    exact absurd h.1.symm hl
  | true =>
    simp only [quotedString, hk, if_true, Piece.mk.injEq] at h
    obtain ⟨rfl, rfl⟩ := h
    simp only [quotedString, quotedLength_cut hk hn, if_true, List.take_append_of_le_length (Nat.le_of_succ_le hn)]

theorem piece_cut {l : Lexeme} (h : piece c (as ++ bs) = ⟨l, n⟩) (hl : l ≠ .invalid) (hn : n ≤ as.length) :
    piece c as = ⟨l, n⟩ := by
  unfold piece at h ⊢
  by_cases hblank : isBlank c = true
  · rw [if_pos hblank] at h ⊢
    exact h
  rw [if_neg hblank] at h ⊢
  by_cases hcomment : (c == '-' && (as ++ bs).head? == some '-') = true
  · rw [if_pos hcomment, Piece.mk.injEq] at h
    obtain ⟨rfl, rfl⟩ := h
    -- the second sign belongs to the comment, so it is not behind the cut
    obtain ⟨a, as, rfl⟩ : ∃ a as', as = a :: as' := by
      apply List.exists_cons_of_ne_nil
      rintro rfl
      obtain ⟨bs, rfl⟩ : ∃ bs', bs = '-' :: bs' := by
        cases bs <;> simp_all
      simp at hn
    rw [if_pos (show (c == '-' && (a :: as).head? == some '-') = true from hcomment), takeWhile_cut hn]
  have hcomment' : ¬(c == '-' && as.head? == some '-') = true := by
    cases as with
    | nil => simp
    | cons a as => exact hcomment
  rw [if_neg hcomment] at h
  rw [if_neg hcomment']
  by_cases hdigit : c.isDigit = true
  · rw [if_pos hdigit] at h ⊢
    rw [← number_cut (by rw [h]; exact hn), h]
  rw [if_neg hdigit] at h ⊢
  by_cases hquote : (c == '"' || c == '\'') = true
  · rw [if_pos hquote] at h ⊢
    exact quotedString_cut h hl hn
  rw [if_neg hquote] at h ⊢
  by_cases hword : isWordStart c = true
  · rw [if_pos hword, Piece.mk.injEq] at h
    obtain ⟨rfl, rfl⟩ := h
    rw [if_pos hword, takeWhile_cut hn]
  rw [if_neg hword] at h ⊢
  cases hsymbol : symbol? c (as ++ bs) with
  | none =>
    rw [hsymbol] at h
    cases h
    exact absurd rfl hl
  | some found =>
    rw [hsymbol] at h
    cases h
    rw [symbol?_cut hsymbol hn]

theorem piece_take {cs : List Char} {l : Lexeme} (h : piece c cs = ⟨l, n⟩) (hl : l ≠ .invalid)
    (hcs : cs.drop n = as ++ bs) : piece c (cs.take n ++ as) = ⟨l, n⟩ ∧
      (cs.take n ++ as).take n = cs.take n ∧ (cs.take n ++ as).drop n = as := by
  by_cases hn : n ≤ cs.length
  · have hlength : (cs.take n).length = n := List.length_take_of_le hn
    have hwhole : cs = cs.take n ++ as ++ bs := by rw [List.append_assoc, ← hcs, List.take_append_drop]
    refine ⟨?_, List.take_left' hlength, List.drop_left' hlength⟩
    rw [hwhole] at h
    refine piece_cut h hl ?_
    rw [List.length_append, hlength]
    exact Nat.le_add_right ..
  · have hle : cs.length ≤ n := Nat.le_of_not_le hn
    rw [List.drop_of_length_le hle] at hcs
    obtain ⟨rfl, rfl⟩ := List.append_eq_nil_iff.1 hcs.symm
    rw [List.append_nil, List.take_of_length_le hle]
    exact ⟨h, List.take_of_length_le hle, List.drop_of_length_le hle⟩

end Cuts

inductive Scanned : Nat → List Char → List Located → Prop
  | nil (offset : Nat) : Scanned offset [] []
  | skip {offset : Nat} {c : Char} {cs : List Char} {n : Nat} {us : List Located}
      (h : piece c cs = ⟨.skipped, n⟩)
      (hrest : Scanned (offset + byteLength (c :: cs.take n)) (cs.drop n) us) : Scanned offset (c :: cs) us
  | token {offset : Nat} {c : Char} {cs : List Char} {n : Nat} {t : Token} {us : List Located}
      (h : piece c cs = ⟨.token t, n⟩)
      (hrest : Scanned (offset + byteLength (c :: cs.take n)) (cs.drop n) us) :
      Scanned offset (c :: cs) (⟨t, ⟨offset, offset + byteLength (c :: cs.take n)⟩⟩ :: us)

section Scanned

open Located

variable {offset k : Nat} {cs : List Char} {us vs : List Located}

theorem scanned_of_scan (h : scan offset cs = .ok us) : Scanned offset cs us := by
  fun_induction Token.scan offset cs generalizing us with
  | case1 =>
    cases h
    exact .nil _
  | case2 offset c cs p taken stop hp =>
    rename_i ih
    exact .skip (show piece c cs = ⟨.skipped, p.more⟩ by rw [← hp]) (ih h)
  | case3 offset c cs p taken stop t hp =>
    rename_i hscan ih
    cases h
    exact .token (show piece c cs = ⟨.token t, p.more⟩ by rw [← hp]) (ih hscan)
  | case4 => cases h
  | case5 => cases h

theorem Scanned.scan (h : Scanned offset cs us) : scan offset cs = .ok us := by
  induction h with
  | nil => rw [Token.scan]
  | skip h _ ih =>
    rw [Token.scan, h]
    exact ih
  | token h _ ih =>
    rw [Token.scan, h]
    dsimp only
    rw [ih]

theorem scan_of_piece {c : Char} {w : List Char} {t : Token} (h : piece c w = ⟨.token t, w.length⟩) :
    scan 0 (c :: w) = .ok [⟨t, ⟨0, byteLength (c :: w)⟩⟩] := by
  have hscanned : Scanned 0 (c :: w) [⟨t, ⟨0, 0 + byteLength (c :: w.take w.length)⟩⟩] := by
    apply Scanned.token h
    rw [List.drop_length]
    exact .nil _
  rw [List.take_length, Nat.zero_add] at hscanned
  exact hscanned.scan

theorem Scanned.down (h : Scanned (offset + k) cs us) : Scanned offset cs (moved k us) := by
  generalize hplace : offset + k = place at h
  induction h generalizing offset with
  | nil => exact .nil _
  | skip h _ ih => exact .skip h (ih (by omega))
  | @token place c cs n t us h _ ih =>
    have hspan : Located.down k ⟨t, ⟨place, place + byteLength (c :: cs.take n)⟩⟩ =
        ⟨t, ⟨offset, offset + byteLength (c :: cs.take n)⟩⟩ := by
      simp only [Located.down, Span.down, Located.mk.injEq, Span.mk.injEq, true_and]
      omega
    rw [moved, List.map_cons, hspan]
    exact .token h (ih (by omega))

theorem Scanned.within (h : Scanned offset cs us) : ∀ t ∈ us, offset ≤ t.span.start := by
  induction h with
  | nil => simp
  | skip _ _ ih =>
    intro t ht
    have hle := ih t ht
    omega
  | token _ _ ih =>
    intro t ht
    obtain rfl | ht := List.mem_cons.1 ht
    · exact Nat.le_refl _
    · have hle := ih t ht
      omega

theorem byteLength_pos (c : Char) (cs : List Char) : 0 < byteLength (c :: cs) :=
  Nat.add_pos_left c.utf8Size_pos _

theorem Scanned.ordered (h : Scanned offset cs us) : Ordered us := by
  induction h with
  | nil => exact ⟨by simp, .nil⟩
  | skip _ _ ih => exact ih
  | @token offset c cs n t us _ hrest ih =>
    refine ⟨List.forall_mem_cons.2 ⟨?_, ih.nonempty⟩, .cons hrest.within ih.apart⟩
    exact Nat.lt_add_of_pos_right (byteLength_pos c _)

theorem scanned_from_later {c : Char} {n : Nat} (h : ∃ as bs, cs.drop n = as ++ bs ∧
      (extent vs).start = offset + byteLength (c :: cs.take n) + byteLength as ∧
      Scanned (offset + byteLength (c :: cs.take n) + byteLength as) bs vs) :
    ∃ as bs, c :: cs = as ++ bs ∧ (extent vs).start = offset + byteLength as ∧
      Scanned (offset + byteLength as) bs vs := by
  obtain ⟨as, bs, hcs, hstart, hbs⟩ := h
  rw [Nat.add_assoc, ← byteLength_append] at hstart hbs
  refine ⟨c :: cs.take n ++ as, bs, ?_, hstart, hbs⟩
  rw [List.append_assoc, ← hcs, List.cons_append, List.take_append_drop]

theorem Scanned.drop (h : Scanned offset cs (us ++ vs)) (hvs : vs ≠ []) : ∃ as bs, cs = as ++ bs ∧
    (extent vs).start = offset + byteLength as ∧ Scanned (offset + byteLength as) bs vs := by
  generalize hts : us ++ vs = ts at h
  induction h generalizing us with
  | nil =>
    obtain ⟨-, rfl⟩ := List.append_eq_nil_iff.1 hts
    exact absurd rfl hvs
  | skip _ _ ih => exact scanned_from_later (ih hts)
  | @token offset c cs n t ts h hrest ih =>
    cases us with
    | nil =>
      obtain rfl := hts
      exact ⟨[], c :: cs, rfl, rfl, .token h hrest⟩
    | cons u us => exact scanned_from_later (ih (List.cons.inj hts).2)

theorem Scanned.take (h : Scanned offset cs (us ++ vs)) : ∃ as bs, cs = as ++ bs ∧
    (us.getLast?.map (·.span.stop)).getD offset = offset + byteLength as ∧ Scanned offset as us := by
  generalize hts : us ++ vs = ts at h
  induction h generalizing us with
  | nil =>
    obtain ⟨rfl, -⟩ := List.append_eq_nil_iff.1 hts
    exact ⟨[], [], rfl, rfl, .nil _⟩
  | @skip offset c cs n ts h _ ih =>
    cases us with
    | nil => exact ⟨[], c :: cs, rfl, rfl, .nil offset⟩
    | cons u us =>
      obtain ⟨as, bs, hcs, hstop, has⟩ := ih hts
      obtain ⟨hpiece, htake, hdrop⟩ := piece_take h (by simp) hcs
      refine ⟨c :: (cs.take n ++ as), bs, ?_, ?_, .skip hpiece (by rwa [htake, hdrop])⟩
      · rw [List.cons_append, List.append_assoc, ← hcs, List.take_append_drop]
      · rw [List.getLast?_cons] at hstop ⊢
        rw [← List.cons_append, byteLength_append, ← Nat.add_assoc, ← hstop]
        rfl
  | @token offset c cs n t ts h _ ih =>
    cases us with
    | nil => exact ⟨[], c :: cs, rfl, rfl, .nil offset⟩
    | cons u us =>
      obtain ⟨rfl, hus⟩ := List.cons.inj hts
      obtain ⟨as, bs, hcs, hstop, has⟩ := ih hus
      obtain ⟨hpiece, htake, hdrop⟩ := piece_take h (by simp) hcs
      refine ⟨c :: (cs.take n ++ as), bs, ?_, ?_, ?_⟩
      · rw [List.cons_append, List.append_assoc, ← hcs, List.take_append_drop]
      · rw [← List.cons_append, byteLength_append, ← Nat.add_assoc, ← hstop, List.getLast?_cons]
        cases us.getLast? <;> rfl
      · have htoken : Scanned offset (c :: (cs.take n ++ as))
            (⟨t, ⟨offset, offset + byteLength (c :: (cs.take n ++ as).take n)⟩⟩ :: us) :=
          .token hpiece (by rwa [htake, hdrop])
        rwa [htake] at htoken

theorem Scanned.slice {ts : List Located} (h : Scanned 0 cs (us ++ ts ++ vs)) (hts : ts ≠ []) :
    ∃ as ds bs, cs = as ++ ds ++ bs ∧ extent ts = ⟨byteLength as, byteLength (as ++ ds)⟩ ∧
      Scanned 0 ds (moved (byteLength as) ts) := by
  rw [List.append_assoc] at h
  obtain ⟨as, cs, rfl, hstart, hrest⟩ := h.drop (List.append_ne_nil_of_left_ne_nil hts vs)
  obtain ⟨ds, bs, rfl, hstop, hslice⟩ := hrest.take
  refine ⟨as, ds, bs, (List.append_assoc ..).symm, ?_, hslice.down⟩
  obtain ⟨t, ts, rfl⟩ := List.exists_cons_of_ne_nil hts
  rw [Nat.zero_add] at hstart hstop
  rw [byteLength_append, ← hstop, ← hstart, extent, List.getLast?_cons]
  rfl

end Scanned

end GraphQuery.Token
