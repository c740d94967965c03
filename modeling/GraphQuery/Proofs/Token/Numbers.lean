import GraphQuery.Proofs.Decimal.Shortest
import GraphQuery.Proofs.Token.Comments

namespace GraphQuery.Token

section

variable {c : Char} {ds fs rest : List Char}

theorem piece_digit (h : c.isDigit = true) (cs : List Char) : piece c cs = number c cs := by
  simp [piece, isBlank_eq_false h rfl, ne_of_class h (d := '-') rfl, h]

theorem Separated.isDigit_head (h : Separated rest) (d : Char) (r : List Char) (heq : rest = d :: r) :
    d.isDigit = false := by
  subst heq
  by_contra hd
  rw [Bool.not_eq_false] at hd
  have hpart := h.head
  rw [isWordPart_of_isDigit hd] at hpart
  cases hpart

theorem number_integer (hds : ∀ d ∈ ds, d.isDigit = true) (hrest : Separated rest) :
    number c (ds ++ rest) = number.integerPiece c ds := by
  unfold number
  dsimp only
  rw [takeWhile_append_of_head hds hrest.isDigit_head, dropWhile_append_of_head hds hrest.isDigit_head]
  split
  · rename_i r
    rw [if_pos]
    cases r with
    | nil => rfl
    | cons d r =>
      have hd : d.isDigit = false := hrest
      simp [hd]
  · rfl

theorem number_real (hds : ∀ d ∈ ds, d.isDigit = true) (hfs : ∀ d ∈ fs, d.isDigit = true) (hne : fs ≠ [])
    (hrest : ∀ d r, rest = d :: r → d.isDigit = false) :
    number c (ds ++ '.' :: (fs ++ rest)) =
      ⟨.token (.real (Decimal.ofDigits (digitsValue (c :: ds ++ fs)) ((exponentPart rest).1 - fs.length))),
        ds.length + 1 + fs.length + (exponentPart rest).2⟩ := by
  have hpoint : ∀ d r, '.' :: (fs ++ rest) = d :: r → d.isDigit = false := by
    rintro d r ⟨⟩
    rfl
  unfold number
  dsimp only
  rw [takeWhile_append_of_head hds hpoint, dropWhile_append_of_head hds hpoint]
  split
  · rename_i r heq
    obtain rfl := (List.cons.inj heq).2
    rw [takeWhile_append_of_head hfs hrest, dropWhile_append_of_head hfs hrest, if_neg (by simpa using hne)]
  · rename_i hother
    exact absurd rfl (hother _)

theorem digitsValue_eq (ds : List Char) : digitsValue ds = Nat.ofDigitChars 10 ds 0 := by
  rw [Nat.ofDigitChars_eq_foldl]
  rfl

theorem digitsValue_append (ds fs : List Char) :
    digitsValue (ds ++ fs) = 10 ^ fs.length * digitsValue ds + digitsValue fs := by
  rw [digitsValue_eq, digitsValue_eq, digitsValue_eq, Nat.ofDigitChars_append, Nat.ofDigitChars_eq_ofDigitChars_zero]

theorem digitsValue_toDigits (n : Nat) : digitsValue (Nat.toDigits 10 n) = n := by
  rw [digitsValue_eq, Nat.ofDigitChars_ten_toDigits]

theorem digitsValue_zeros (n : Nat) : digitsValue (List.replicate n '0') = 0 := by
  rw [digitsValue_eq, Nat.ofDigitChars_replicate_zero, Nat.mul_zero]

theorem isDigit_toDigits (n : Nat) : ∀ d ∈ Nat.toDigits 10 n, d.isDigit = true :=
  fun _ hd => Nat.isDigit_of_mem_toDigits (by decide) (by decide) hd

theorem exists_toDigits_eq_cons (n : Nat) : ∃ c ds, Nat.toDigits 10 n = c :: ds ∧ c.isDigit = true ∧
    ∀ d ∈ ds, d.isDigit = true := by
  have hdigits := isDigit_toDigits n
  cases heq : Nat.toDigits 10 n with
  | nil => exact absurd heq Nat.toDigits_ne_nil
  | cons c ds =>
    rw [heq, List.forall_mem_cons] at hdigits
    exact ⟨c, ds, rfl, hdigits⟩

def SpellsNumber (cs : List Char) (t : Token) : Prop :=
  ∃ c r, cs = c :: r ∧ c.isDigit = true ∧ ∀ rest, Separated rest → number c (r ++ rest) = ⟨.token t, r.length⟩

theorem SpellsNumber.lexes {cs : List Char} {t : Token} (h : SpellsNumber cs t) : Lexes Separated cs [t] := by
  obtain ⟨c, r, rfl, hc, hr⟩ := h
  apply lexes_of_piece
  intro rest hrest
  rw [piece_digit hc, hr rest hrest]

theorem spellsNumber_integer {n : Nat} (h : n < 2 ^ 63) :
    SpellsNumber (Nat.toDigits 10 n) (.integer (Int64.ofNat n)) := by
  obtain ⟨c, ds, heq, hc, hds⟩ := exists_toDigits_eq_cons n
  have hvalue : digitsValue (c :: ds) = n := by rw [← heq, digitsValue_toDigits]
  refine ⟨c, ds, heq, hc, fun rest hrest => ?_⟩
  rw [number_integer hds hrest, number.integerPiece, hvalue, if_pos (show n < Nat.pow 2 63 from h)]

theorem spellsNumber_integerText {n : Int64} (h : 0 ≤ n.toInt) : SpellsNumber (integerText n).toList (.integer n) := by
  obtain ⟨m, hm⟩ := Int.eq_ofNat_of_zero_le h
  have hlt : m < 2 ^ 63 := by
    have := n.toInt_lt
    omega
  have hn : Int64.ofNat m = n := by
    change Int64.ofInt m = n
    rw [← hm, Int64.ofInt_toInt]
  have htext : (integerText n).toList = Nat.toDigits 10 m := by
    rw [integerText, hm]
    change (toString m).toList = _
    rw [Nat.toString_eq_ofList_toDigits, String.toList_ofList]
  rw [htext, ← hn]
  exact spellsNumber_integer hlt

theorem spellsNumber_real (cs : List Char) {exponent : Int} (hc : c.isDigit = true)
    (hds : ∀ d ∈ ds, d.isDigit = true) (hfs : ∀ d ∈ fs, d.isDigit = true) (hne : fs ≠ [])
    (hcs : ∀ rest, Separated rest → exponentPart (cs ++ rest) = (exponent, cs.length) ∧
      ∀ d r, cs ++ rest = d :: r → d.isDigit = false) :
    SpellsNumber (c :: (ds ++ '.' :: (fs ++ cs)))
      (.real (Decimal.ofDigits (digitsValue (c :: ds ++ fs)) (exponent - fs.length))) := by
  refine ⟨c, _, rfl, hc, fun rest hrest => ?_⟩
  obtain ⟨hexponent, hhead⟩ := hcs rest hrest
  have hassoc : ds ++ '.' :: (fs ++ cs) ++ rest = ds ++ '.' :: (fs ++ (cs ++ rest)) := by simp
  have hlength : (ds ++ '.' :: (fs ++ cs)).length = ds.length + 1 + fs.length + cs.length := by
    simp only [List.length_append, List.length_cons]
    omega
  rw [hassoc, hlength, number_real hds hfs hne hhead, hexponent]

theorem exponentPart_of_separated (h : Separated rest) : exponentPart rest = (0, 0) := by
  cases rest with
  | nil => rfl
  | cons c cs =>
    have hc := h.head
    have he : c ≠ 'e' := by
      rintro rfl
      cases hc
    have hE : c ≠ 'E' := by
      rintro rfl
      cases hc
    simp [exponentPart, he, hE]

def exponentText (exponent : Int) : List Char :=
  (if exponent < 0 then ['e', '-'] else ['e']) ++ Nat.toDigits 10 exponent.natAbs

theorem exponentPart_exponentText (exponent : Int) (h : Separated rest) :
    exponentPart (exponentText exponent ++ rest) = (exponent, (exponentText exponent).length) := by
  have htake : (Nat.toDigits 10 exponent.natAbs ++ rest).takeWhile Char.isDigit =
      Nat.toDigits 10 exponent.natAbs :=
    takeWhile_append_of_head (isDigit_toDigits _) h.isDigit_head
  have hvalue := digitsValue_toDigits exponent.natAbs
  obtain ⟨c, ds, heq, hc, hds⟩ := exists_toDigits_eq_cons exponent.natAbs
  unfold exponentText
  rw [heq] at htake hvalue ⊢
  split
  · simp only [exponentPart, exponentSign, List.cons_append, List.nil_append] at htake ⊢
    rw [htake, hvalue]
    simp only [beq_self_eq_true, Bool.true_or, ↓reduceIte, List.isEmpty_cons, Bool.false_eq_true, List.length_cons,
      Prod.mk.injEq]
    omega
  · have hsign : exponentSign (c :: (ds ++ rest)) = (false, 0, c :: (ds ++ rest)) := by
      unfold exponentSign
      split
      · rename_i heq
        cases heq
        cases hc
      · rename_i heq
        cases heq
        cases hc
      · rfl
    simp only [exponentPart, List.cons_append, List.nil_append] at htake ⊢
    rw [hsign]
    dsimp only
    rw [htake, hvalue]
    simp only [beq_self_eq_true, Bool.true_or, ↓reduceIte, List.isEmpty_cons, Bool.false_eq_true, List.length_cons,
      Prod.mk.injEq]
    omega

theorem isDigit_head_exponentText (exponent : Int) (d : Char) (r : List Char)
    (h : exponentText exponent ++ rest = d :: r) : d.isDigit = false := by
  unfold exponentText at h
  split at h
  · cases h
    rfl
  · cases h
    rfl

theorem point_not_mem_toDigits (n : Nat) : '.' ∉ Nat.toDigits 10 n :=
  fun h => absurd (isDigit_toDigits n '.' h) (by decide)

theorem point_not_mem_exponentText (exponent : Int) : '.' ∉ exponentText exponent := by
  have hdigits := point_not_mem_toDigits exponent.natAbs
  unfold exponentText
  split <;> simp [hdigits]

end

section Reals

open Decimal Notation

variable {count : Nat} {power : Int}

def Represents (digits : Nat) (exponent : Int) (count : Nat) (power : Int) : Prop :=
  (exponent = power ∨ exponent = -1) ∧ ∀ m : Magnitude, m.Covers (gridPoint count power).1 (gridPoint count power).2 →
    m.Covers (gridPoint digits exponent).1 (gridPoint digits exponent).2

theorem represents_self : Represents count power count power :=
  ⟨.inl rfl, fun _ h => h⟩

theorem represents_whole (hpower : 0 ≤ power) : Represents (count * 10 ^ power.toNat * 10) (-1) count power := by
  refine ⟨.inr rfl, fun m h => ?_⟩
  have hnum : (gridPoint (count * 10 ^ power.toNat * 10) (-1)).1 = (gridPoint count power).1 * 10 := by
    change count * 10 ^ power.toNat * 10 * 1 = count * 10 ^ power.toNat * 10
    rw [Nat.mul_one]
  have hden : (gridPoint (count * 10 ^ power.toNat * 10) (-1)).2 = (gridPoint count power).2 * 10 := by
    have hzero : (-power).toNat = 0 := by omega
    change 10 = 10 ^ (-power).toNat * 10
    rw [hzero]
    rfl
  rw [hnum, hden]
  exact h.mul (by decide)

theorem spellsNumber_point {c : Char} (ds fs : List Char) (hc : c.isDigit = true) (hds : ∀ d ∈ ds, d.isDigit = true)
    (hfs : ∀ d ∈ fs, d.isDigit = true) (hne : fs ≠ []) :
    SpellsNumber (c :: (ds ++ '.' :: fs)) (.real (ofDigits (digitsValue (c :: ds ++ fs)) (-fs.length))) := by
  have h := spellsNumber_real [] hc hds hfs hne
    (fun rest hrest => ⟨exponentPart_of_separated hrest, hrest.isDigit_head⟩)
  rw [List.append_nil, Int.zero_sub] at h
  exact h

theorem isDigit_zeros (n : Nat) : ∀ d ∈ List.replicate n '0', d.isDigit = true := by
  intro d hd
  rw [List.eq_of_mem_replicate hd]
  rfl

theorem spellsNumber_before (n : Nat) : SpellsNumber ('0' :: '.' :: List.replicate n '0' ++ Nat.toDigits 10 count)
    (.real (ofDigits count (-(n + (Nat.toDigits 10 count).length : Nat)))) := by
  have h := spellsNumber_point (c := '0') [] (List.replicate n '0' ++ Nat.toDigits 10 count) rfl (by simp)
    (List.forall_mem_append.2 ⟨isDigit_zeros n, isDigit_toDigits count⟩) (by simp)
  have hvalue : digitsValue ('0' :: [] ++ (List.replicate n '0' ++ Nat.toDigits 10 count)) = count := by
    have hzero : '0' :: [] = List.replicate 1 '0' := rfl
    rw [hzero, digitsValue_append, digitsValue_append, digitsValue_zeros, digitsValue_zeros, digitsValue_toDigits]
    omega
  rw [hvalue, List.length_append, List.length_replicate] at h
  exact h

theorem spellsNumber_after (n : Nat) : SpellsNumber (Nat.toDigits 10 count ++ List.replicate n '0' ++ ['.', '0'])
    (.real (ofDigits (count * 10 ^ n * 10) (-1))) := by
  obtain ⟨c, ds, heq, hc, hds⟩ := exists_toDigits_eq_cons count
  have h := spellsNumber_point (ds ++ List.replicate n '0') ['0'] hc
    (List.forall_mem_append.2 ⟨hds, isDigit_zeros n⟩) (by simp) (by simp)
  have hvalue : digitsValue (c :: (ds ++ List.replicate n '0') ++ ['0']) = count * 10 ^ n * 10 := by
    have hzero : ['0'] = List.replicate 1 '0' := rfl
    rw [← List.cons_append, ← heq, hzero, digitsValue_append, digitsValue_append, digitsValue_zeros,
      digitsValue_zeros, digitsValue_toDigits, List.length_replicate, List.length_replicate]
    ring
  rw [hvalue] at h
  rw [heq]
  exact h

theorem spellsNumber_between {k : Nat} (hk : k + 1 < (Nat.toDigits 10 count).length) :
    SpellsNumber ((Nat.toDigits 10 count).take (k + 1) ++ '.' :: (Nat.toDigits 10 count).drop (k + 1))
      (.real (ofDigits count (-((Nat.toDigits 10 count).length - (k + 1) : Nat)))) := by
  have hvalue := digitsValue_toDigits count
  obtain ⟨c, ds, heq, hc, hds⟩ := exists_toDigits_eq_cons count
  rw [heq] at hk hvalue ⊢
  have hne : ds.drop k ≠ [] := by
    rw [Ne, List.drop_eq_nil_iff]
    rw [List.length_cons] at hk
    omega
  have h := spellsNumber_point (ds.take k) (ds.drop k) hc (fun d hd => hds d (List.mem_of_mem_take hd))
    (fun d hd => hds d (List.mem_of_mem_drop hd)) hne
  rw [List.cons_append, List.take_append_drop, hvalue, List.length_drop, ← Nat.add_sub_add_right _ 1] at h
  exact h

theorem spellsNumber_place {n : Notation} (hn : n.wholeFraction = true) {point : Int}
    (hpoint : point = power + (Nat.toDigits 10 count).length) :
    ∃ digits exponent, SpellsNumber (n.place (Nat.toDigits 10 count) point) (.real (ofDigits digits exponent)) ∧
      Represents digits exponent count power := by
  unfold place
  rw [if_pos hn]
  split
  · have hexponent : -(((-point).toNat + (Nat.toDigits 10 count).length : Nat) : Int) = power := by omega
    refine ⟨count, power, ?_, represents_self⟩
    rw [← hexponent]
    exact spellsNumber_before _
  · split
    · have hpower : point.toNat - (Nat.toDigits 10 count).length = power.toNat := by omega
      rw [hpower]
      exact ⟨_, _, spellsNumber_after _, represents_whole (by omega)⟩
    · obtain ⟨k, hk⟩ : ∃ k, point.toNat = k + 1 := ⟨point.toNat - 1, by omega⟩
      have hexponent : -(((Nat.toDigits 10 count).length - (k + 1) : Nat) : Int) = power := by omega
      refine ⟨count, power, ?_, represents_self⟩
      rw [hk, ← hexponent]
      exact spellsNumber_between (by omega)

theorem scientific_one (c : Char) (exponent : Int) :
    tagged.scientific [c] exponent = c :: exponentText exponent := by
  unfold scientific exponentText
  by_cases hneg : exponent < 0 <;> simp [hneg, tagged]

theorem scientific_cons (c d : Char) (ds : List Char) (exponent : Int) :
    tagged.scientific (c :: d :: ds) exponent = c :: '.' :: (d :: ds ++ exponentText exponent) := by
  unfold scientific exponentText
  by_cases hneg : exponent < 0 <;> simp [hneg, tagged]

theorem spellsNumber_scientific {exponent : Int} (hexponent : exponent + 1 = power + (Nat.toDigits 10 count).length)
    (hpoint : '.' ∈ tagged.scientific (Nat.toDigits 10 count) exponent) :
    SpellsNumber (tagged.scientific (Nat.toDigits 10 count) exponent) (.real (ofDigits count power)) := by
  have hvalue := digitsValue_toDigits count
  have hdigits := point_not_mem_toDigits count
  obtain ⟨c, ds, heq, hc, hds⟩ := exists_toDigits_eq_cons count
  rw [heq] at hpoint hvalue hexponent hdigits ⊢
  cases ds with
  | nil =>
    have hmem := point_not_mem_exponentText exponent
    rw [scientific_one] at hpoint
    simp_all
  | cons d ds =>
    rw [scientific_cons]
    have h := spellsNumber_real (exponentText exponent) hc (List.forall_mem_nil _) hds (List.cons_ne_nil d ds)
      (fun rest hrest => ⟨exponentPart_exponentText exponent hrest, isDigit_head_exponentText exponent⟩)
    have hpower : exponent - ((d :: ds).length : Int) = power := by
      rw [List.length_cons] at hexponent
      omega
    rw [hpower, List.singleton_append, hvalue] at h
    exact h

theorem spellsNumber_layout (hpoint : '.' ∈ tagged.layout count power) :
    ∃ digits exponent, SpellsNumber (tagged.layout count power) (.real (ofDigits digits exponent)) ∧
      Represents digits exponent count power := by
  unfold layout at hpoint ⊢
  dsimp only at hpoint ⊢
  split
  · exact spellsNumber_place rfl (by omega)
  · rename_i hscientific
    rw [if_neg hscientific] at hpoint
    exact ⟨_, _, spellsNumber_scientific (by omega) hpoint, represents_self⟩

theorem toList_write (n : Notation) {x : Float} (h : IsMagnitude x) : (n.write x).toList =
    if (magnitude x).significand = 0 then (if n.wholeFraction then ['0', '.', '0'] else ['0'])
    else n.layout (shortest n.tie (magnitude x)).1 (shortest n.tie (magnitude x)).2 := by
  unfold IsMagnitude at h
  have hnan : x.isNaN = false := by
    rw [← Bool.not_eq_true, isNaN_iff, IsNaN]
    omega
  have hinf : x.isInf = false := by
    rw [← Bool.not_eq_true, isInf_iff]
    omega
  have hsign : isNegative x = false := by
    apply decide_eq_false
    change ¬2 ^ 63 ≤ x.toBits.toNat
    omega
  simp only [write, hnan, hinf, hsign, Bool.false_eq_true, ↓reduceIte, String.empty_append]
  split
  · split <;> rfl
  · exact String.toList_ofList

theorem spellsNumber_write {n : Notation} {x : Float} (hn : n.wholeFraction = true) (h : IsMagnitude x)
    (hlayout : ∀ count power, (n.write x).toList = n.layout count power → ∃ digits exponent,
      SpellsNumber (n.layout count power) (.real (ofDigits digits exponent)) ∧ Represents digits exponent count power) :
    SpellsNumber (n.write x).toList (.real x) := by
  have htext := toList_write n h
  split at htext
  · rename_i hzero
    have hpoint := spellsNumber_point (c := '0') [] ['0'] rfl (List.forall_mem_nil _) (by simp) (by simp)
    rw [show digitsValue ('0' :: [] ++ ['0']) = 0 from rfl, ofDigits_zero h hzero] at hpoint
    rw [htext]
    exact hpoint
  · rename_i hnonzero
    have hpos := Nat.pos_of_ne_zero hnonzero
    obtain ⟨count, power, heq, hge, hle, hcovers⟩ := shortest_covers n.tie hpos
    rw [heq] at htext
    obtain ⟨digits, exponent, hspells, hexponent, hrepresents⟩ := hlayout count power htext
    rw [ofDigits_of_covers h hpos (by omega) (by omega) (hrepresents _ hcovers)] at hspells
    rw [htext]
    exact hspells

theorem isMagnitude_of_point {x : Float} (hx : x.toBits.toNat ≤ infinityBits)
    (hpoint : '.' ∈ (tagged.write x).toList) : IsMagnitude x := by
  change x.toBits.toNat ≤ 2047 * 2 ^ 52 at hx
  unfold IsMagnitude
  by_contra hlarge
  have hinf : x.isInf = true := by
    rw [isInf_iff]
    omega
  have hnan : x.isNaN = false := by
    rw [← Bool.not_eq_true, isNaN_iff, IsNaN]
    omega
  unfold write at hpoint
  simp only [hnan, hinf, Bool.false_eq_true, ↓reduceIte] at hpoint
  split at hpoint <;> exact absurd hpoint (by decide)

theorem spellsNumber_tagged {x : Float} (hx : x.toBits.toNat ≤ infinityBits)
    (hpoint : '.' ∈ (tagged.write x).toList) : SpellsNumber (tagged.write x).toList (.real x) := by
  apply spellsNumber_write rfl (isMagnitude_of_point hx hpoint)
  intro count power htext
  rw [htext] at hpoint
  exact spellsNumber_layout hpoint

end Reals

section Numerals

def isPlain (c : Char) : Bool :=
  !isDelimiter c && c != '\n'

def IsNumeral (cs : List Char) : Prop :=
  ∃ pre post, (∀ c ∈ pre ++ post, isPlain c = true) ∧ (cs = pre ++ post ∨ cs = pre ++ '.' :: post)

variable {cs : List Char}

theorem isPlain_of_isDigit {c : Char} (h : c.isDigit = true) : isPlain c = true := by
  simp [isPlain, isDelimiter, ne_of_class h (d := '.') rfl, ne_of_class h (d := '"') rfl,
    ne_of_class h (d := '\'') rfl, ne_of_class h (d := '\n') rfl]

theorem isPlain_exponentText (exponent : Int) : ∀ c ∈ exponentText exponent, isPlain c = true := by
  have hdigits : ∀ c ∈ Nat.toDigits 10 exponent.natAbs, isPlain c = true :=
    fun c hc => isPlain_of_isDigit (isDigit_toDigits _ c hc)
  unfold exponentText
  rw [List.forall_mem_append]
  refine ⟨?_, hdigits⟩
  split
  · exact List.all_eq_true.1 rfl
  · exact List.all_eq_true.1 rfl

theorem quoted_of_plain (h : ∀ c ∈ cs, isPlain c = true) : Quoted cs :=
  quoted_of_not_mem fun hmem => absurd (h _ hmem) (by decide)

theorem countP_of_plain (h : ∀ c ∈ cs, isPlain c = true) : cs.countP isDelimiter = 0 := by
  rw [List.countP_eq_zero]
  intro c hc hdelimiter
  have hplain := h c hc
  rw [isPlain, hdelimiter] at hplain
  cases hplain

theorem IsNumeral.quoted (h : IsNumeral cs) : Quoted cs := by
  obtain ⟨pre, post, hplain, heq⟩ := h
  rcases heq with rfl | rfl
  · exact quoted_of_plain hplain
  · rw [List.forall_mem_append] at hplain
    exact (quoted_of_plain hplain.1).append ((quoted_of_plain hplain.2).cons (by decide))

theorem IsNumeral.countP_le (h : IsNumeral cs) : cs.countP isDelimiter ≤ if '.' ∈ cs then 1 else 0 := by
  obtain ⟨pre, post, hplain, heq⟩ := h
  have hcount := countP_of_plain hplain
  rcases heq with rfl | rfl
  · rw [hcount]
    exact Nat.zero_le _
  · rw [if_pos (List.mem_append_right _ List.mem_cons_self)]
    rw [List.countP_append] at hcount
    rw [List.countP_append, List.countP_cons, if_pos (show isDelimiter '.' = true from rfl)]
    omega

theorem IsNumeral.minus (h : IsNumeral cs) : IsNumeral ('-' :: cs) := by
  obtain ⟨pre, post, hplain, heq⟩ := h
  refine ⟨'-' :: pre, post, List.forall_mem_cons.2 ⟨rfl, hplain⟩, ?_⟩
  rcases heq with rfl | rfl
  · exact .inl rfl
  · exact .inr rfl

theorem isNumeral_place (count : Nat) (point : Int) :
    IsNumeral (Decimal.Notation.tagged.place (Nat.toDigits 10 count) point) := by
  have hdigits : ∀ c ∈ Nat.toDigits 10 count, isPlain c = true :=
    fun c hc => isPlain_of_isDigit (isDigit_toDigits _ c hc)
  have hzeros : ∀ n, ∀ c ∈ List.replicate n '0', isPlain c = true :=
    fun n c hc => isPlain_of_isDigit (isDigit_zeros n c hc)
  unfold Decimal.Notation.place
  split
  · refine ⟨['0'], List.replicate (-point).toNat '0' ++ Nat.toDigits 10 count, ?_, .inr rfl⟩
    rw [List.forall_mem_append, List.forall_mem_append]
    exact ⟨List.all_eq_true.1 rfl, hzeros _, hdigits⟩
  · split
    · refine ⟨_, ['0'], ?_, .inr rfl⟩
      rw [List.forall_mem_append, List.forall_mem_append]
      exact ⟨⟨hdigits, hzeros _⟩, List.all_eq_true.1 rfl⟩
    · refine ⟨_, _, ?_, .inr rfl⟩
      rw [List.take_append_drop]
      exact hdigits

theorem isNumeral_scientific (count : Nat) (exponent : Int) :
    IsNumeral (Decimal.Notation.tagged.scientific (Nat.toDigits 10 count) exponent) := by
  have hexponent := isPlain_exponentText exponent
  obtain ⟨c, ds, heq, hc, hds⟩ := exists_toDigits_eq_cons count
  rw [heq]
  cases ds with
  | nil =>
    rw [scientific_one]
    exact ⟨[c], exponentText exponent, List.forall_mem_cons.2 ⟨isPlain_of_isDigit hc, hexponent⟩, .inl rfl⟩
  | cons d ds =>
    rw [scientific_cons]
    refine ⟨[c], d :: ds ++ exponentText exponent, ?_, .inr rfl⟩
    rw [List.singleton_append, List.forall_mem_cons, List.forall_mem_append]
    exact ⟨isPlain_of_isDigit hc, fun d hd => isPlain_of_isDigit (hds d hd), hexponent⟩

theorem isNumeral_write (x : Float) : IsNumeral (Decimal.Notation.tagged.write x).toList := by
  have hsign : ∀ text : String, IsNumeral text.toList →
      IsNumeral ((if Decimal.isNegative x then "-" else "") ++ text).toList := by
    intro text htext
    split
    · rw [String.toList_append]
      exact htext.minus
    · rwa [String.empty_append]
  unfold Decimal.Notation.write
  split
  · exact ⟨['N', 'a', 'N'], [], List.all_eq_true.1 rfl, .inl rfl⟩
  · dsimp only
    split
    · exact hsign _ ⟨['i', 'n', 'f'], [], List.all_eq_true.1 rfl, .inl rfl⟩
    · split
      · exact hsign _ ⟨['0'], ['0'], List.all_eq_true.1 rfl, .inr rfl⟩
      · apply hsign
        rw [String.toList_ofList, Decimal.Notation.layout]
        split
        · exact isNumeral_place _ _
        · exact isNumeral_scientific _ _

theorem isPlain_integerText (n : Int64) : ∀ c ∈ (integerText n).toList, isPlain c = true := by
  have hnat : ∀ m : Nat, ∀ c ∈ (toString m).toList, isPlain c = true := by
    intro m
    rw [Nat.toString_eq_ofList_toDigits, String.toList_ofList]
    exact fun c hc => isPlain_of_isDigit (isDigit_toDigits m c hc)
  unfold integerText
  cases n.toInt with
  | ofNat m => exact hnat m
  | negSucc m =>
    change ∀ c ∈ ("-" ++ toString (m + 1)).toList, _
    rw [String.toList_append]
    exact List.forall_mem_cons.2 ⟨rfl, hnat (m + 1)⟩

end Numerals

section Legible

variable {c : Char} {cs : List Char} {t : Token} {n : Nat}

theorem legible_ofWord {word : String} (h : isIdentifier word = true) : (ofWord word).Legible := by
  cases hword : Mark.words.lookup word with
  | some m => simp [ofWord, hword, Legible]
  | none => simp [ofWord, hword, Legible, h]

theorem legible_of_integerPiece (h : number.integerPiece c cs = ⟨.token t, n⟩) : t.Legible := by
  unfold number.integerPiece at h
  dsimp only at h
  split at h
  · rename_i hlt
    cases h
    change _ < 2 ^ 63 at hlt
    change 0 ≤ Int64.toInt _
    rw [Int64.toInt_ofNat_of_lt hlt]
    exact Int.natCast_nonneg _
  · cases h

theorem legible_of_number (h : number c cs = ⟨.token t, n⟩) : t.Legible := by
  unfold number at h
  dsimp only at h
  split at h
  · split at h
    · exact legible_of_integerPiece h
    · cases h
      exact Decimal.toBits_ofDigits_le _ _
  · exact legible_of_integerPiece h

theorem legible_of_piece (h : piece c cs = ⟨.token t, n⟩) : t.Legible := by
  unfold piece at h
  split at h
  · cases h
  split at h
  · cases h
  split at h
  · exact legible_of_number h
  split at h
  · unfold quotedString at h
    dsimp only at h
    split at h
    · cases h
      trivial
    · cases h
  split at h
  · rename_i hstart
    cases h
    apply legible_ofWord
    rw [isIdentifier, String.toList_ofList]
    dsimp only
    rw [hstart, Bool.true_and, List.all_eq_true]
    exact fun d hd => List.mem_takeWhile_imp hd
  split at h
  · cases h
    trivial
  · cases h

theorem Reads.legible {ts : List Token} (h : Reads cs ts) : ∀ t ∈ ts, t.Legible := by
  induction h with
  | nil => exact List.forall_mem_nil _
  | skip _ _ ih => exact ih
  | token h _ ih => exact List.forall_mem_cons.2 ⟨legible_of_piece h, ih⟩

end Legible

end GraphQuery.Token
