import GraphQuery.Json.Number
import GraphQuery.Json.Parser
import GraphQuery.Proofs.Token.Numbers

namespace GraphQuery.Json

open GraphQuery.Token (takeWhile_append_of_head dropWhile_append_of_head ne_of_class isDigit_toDigits isDigit_zeros)

def IsDigits (ds : List Char) : Prop :=
  ds ≠ [] ∧ ∀ d ∈ ds, d.isDigit = true

inductive IsWhole : List Char → Prop
  | zero : IsWhole ['0']
  | digits {c : Char} {ds : List Char} (hc : c ≠ '0') (h : IsDigits (c :: ds)) : IsWhole (c :: ds)

inductive IsFraction : List Char → Prop
  | none : IsFraction []
  | point {ds : List Char} (h : IsDigits ds) : IsFraction ('.' :: ds)

inductive IsExponent : List Char → Prop
  | none : IsExponent []
  | mark {e : Char} {sign ds : List Char} (he : e = 'e' ∨ e = 'E') (hsign : sign ∈ [[], ['+'], ['-']])
      (h : IsDigits ds) : IsExponent (e :: (sign ++ ds))

inductive IsNumber : List Char → Prop
  | unsigned {whole fraction exponent : List Char} (hwhole : IsWhole whole) (hfraction : IsFraction fraction)
      (hexponent : IsExponent exponent) : IsNumber (whole ++ (fraction ++ exponent))
  | minus {whole fraction exponent : List Char} (hwhole : IsWhole whole)
      (hfraction : IsFraction fraction) (hexponent : IsExponent exponent) :
      IsNumber ('-' :: (whole ++ (fraction ++ exponent)))

def continuesNumber (c : Char) : Bool :=
  c.isDigit || c == '.' || c == 'e' || c == 'E'

def Ends (rest : List Char) : Prop :=
  ∀ c r, rest = c :: r → continuesNumber c = false

section Reading

variable {ds whole fraction exponent rest : List Char}

theorem digits_append (h : IsDigits ds) (hrest : ∀ c r, rest = c :: r → c.isDigit = false) :
    ∃ hr, Parser.digits (ds ++ rest) = some (ds, ⟨rest, hr⟩) := by
  obtain ⟨hne, hds⟩ := h
  cases ds with
  | nil => exact absurd rfl hne
  | cons c ds =>
    rw [List.forall_mem_cons] at hds
    have htake := takeWhile_append_of_head hds.2 hrest
    have hdrop := dropWhile_append_of_head hds.2 hrest
    refine ⟨by simp only [List.length_append, List.length_cons]; omega, ?_⟩
    simp only [List.cons_append, Parser.digits, hds.1, htake, hdrop, if_true]

theorem wholePart_append (h : IsWhole whole) (hrest : ∀ c r, rest = c :: r → c.isDigit = false) :
    ∃ hr, Parser.wholePart (whole ++ rest) = some (whole, ⟨rest, hr⟩) := by
  cases h with
  | zero =>
    have hhead : rest.head?.any Char.isDigit = false := by
      cases rest with
      | nil => rfl
      | cons c r => exact hrest c r rfl
    refine ⟨Nat.lt_succ_self _, ?_⟩
    change (if rest.head?.any Char.isDigit = true then none else _) = _
    rw [if_neg (by simp [hhead])]
    rfl
  | @digits c ds hc h =>
    rw [Parser.wholePart]
    · exact digits_append h hrest
    · intro _ hcons
      exact hc (List.cons.inj hcons).1

theorem fractionPart_append (h : IsFraction fraction)
    (hrest : ∀ c r, rest = c :: r → c.isDigit = false ∧ c ≠ '.') :
    ∃ hr, Parser.fractionPart (fraction ++ rest) = some (fraction, ⟨rest, hr⟩) := by
  cases h with
  | none =>
    rw [List.nil_append, Parser.fractionPart]
    · exact ⟨_, rfl⟩
    · intro _ hcons
      exact (hrest _ _ hcons).2 rfl
  | @point ds h =>
    obtain ⟨hr, heq⟩ := digits_append h (fun c r hcons => (hrest c r hcons).1)
    rw [List.cons_append, Parser.fractionPart, heq]
    exact ⟨_, rfl⟩

theorem signPart_append {sign : List Char} (hsign : sign ∈ [[], ['+'], ['-']])
    (hrest : ∀ c r, rest = c :: r → c ≠ '+' ∧ c ≠ '-') :
    ∃ hr, Parser.signPart (sign ++ rest) = (sign, ⟨rest, hr⟩) := by
  simp only [List.mem_cons, List.not_mem_nil, or_false] at hsign
  obtain rfl | rfl | rfl := hsign
  · rw [List.nil_append, Parser.signPart]
    · exact ⟨_, rfl⟩
    · intro _ hcons
      exact (hrest _ _ hcons).1 rfl
    · intro _ hcons
      exact (hrest _ _ hcons).2 rfl
  · exact ⟨_, rfl⟩
  · exact ⟨_, rfl⟩

theorem exponentPart_append (h : IsExponent exponent) (hrest : Ends rest) :
    ∃ hr, Parser.exponentPart (exponent ++ rest) = some (exponent, ⟨rest, hr⟩) := by
  cases h with
  | none =>
    cases rest with
    | nil => exact ⟨_, rfl⟩
    | cons c r =>
      have hc := hrest c r rfl
      simp only [continuesNumber, Bool.or_eq_false_iff] at hc
      rw [List.nil_append, Parser.exponentPart, hc.1.2, hc.2]
      exact ⟨_, rfl⟩
  | @mark e sign ds he hsign h =>
    have hmark : (e == 'e' || e == 'E') = true := by
      obtain rfl | rfl := he <;> rfl
    have hdigit : ∀ c r, ds ++ rest = c :: r → c ≠ '+' ∧ c ≠ '-' := by
      intro c r hcons
      obtain ⟨hne, hds⟩ := h
      obtain ⟨d, ds, rfl⟩ := List.exists_cons_of_ne_nil hne
      obtain rfl := (List.cons.inj hcons).1
      have hd := hds d List.mem_cons_self
      exact ⟨ne_of_class hd rfl, ne_of_class hd rfl⟩
    obtain ⟨hr, hsigned⟩ := signPart_append hsign hdigit
    obtain ⟨hr', heq⟩ := digits_append h (fun c r hcons => by
      have hc := hrest c r hcons
      simp only [continuesNumber, Bool.or_eq_false_iff] at hc
      exact hc.1.1.1)
    rw [List.cons_append, List.append_assoc, Parser.exponentPart, if_pos hmark, hsigned]
    dsimp only
    rw [heq]
    exact ⟨_, rfl⟩

theorem head_exponent (h : IsExponent exponent) (hrest : Ends rest) (c : Char) (r : List Char)
    (hcons : exponent ++ rest = c :: r) : c.isDigit = false ∧ c ≠ '.' := by
  cases h with
  | none =>
    have hc := hrest c r hcons
    simp only [continuesNumber, Bool.or_eq_false_iff] at hc
    exact ⟨hc.1.1.1, by simpa using hc.1.1.2⟩
  | @mark e sign ds he =>
    obtain rfl := (List.cons.inj hcons).1
    obtain rfl | rfl := he <;> decide

theorem unsigned_append (hwhole : IsWhole whole) (hfraction : IsFraction fraction) (hexponent : IsExponent exponent)
    (hrest : Ends rest) :
    ∃ hr, Parser.unsigned (whole ++ (fraction ++ exponent) ++ rest) =
      some (whole ++ (fraction ++ exponent), ⟨rest, hr⟩) := by
  have hhead := head_exponent hexponent hrest
  have hafter : ∀ c r, fraction ++ (exponent ++ rest) = c :: r → c.isDigit = false := by
    intro c r hcons
    cases hfraction with
    | none => exact (hhead c r hcons).1
    | point => exact (List.cons.inj hcons).1 ▸ rfl
  obtain ⟨h₁, hw⟩ := wholePart_append hwhole hafter
  obtain ⟨h₂, hf⟩ := fractionPart_append hfraction hhead
  obtain ⟨h₃, he⟩ := exponentPart_append hexponent hrest
  have hassoc : whole ++ (fraction ++ exponent) ++ rest = whole ++ (fraction ++ (exponent ++ rest)) := by
    simp only [List.append_assoc]
  rw [hassoc, Parser.unsigned, hw]
  refine ⟨by omega, ?_⟩
  simp only [Option.bind_eq_bind, Option.bind_some, hf, he, List.append_assoc]

theorem IsWhole.eq_cons (h : IsWhole whole) : ∃ c ds, whole = c :: ds ∧ c.isDigit = true := by
  cases h with
  | zero => exact ⟨'0', [], rfl, rfl⟩
  | @digits c ds _ h => exact ⟨c, ds, rfl, h.2 c List.mem_cons_self⟩

theorem IsNumber.eq_cons {cs : List Char} (h : IsNumber cs) :
    ∃ c ds, cs = c :: ds ∧ (c.isDigit = true ∨ c = '-') := by
  cases h with
  | unsigned hwhole =>
    obtain ⟨c, ds, rfl, hc⟩ := hwhole.eq_cons
    exact ⟨c, _, rfl, .inl hc⟩
  | minus => exact ⟨'-', _, rfl, .inr rfl⟩

theorem number_append {cs : List Char} (h : IsNumber cs) (hrest : Ends rest) :
    ∃ hr, Parser.number (cs ++ rest) = some (cs, ⟨rest, hr⟩) := by
  cases h with
  | unsigned hwhole hfraction hexponent =>
    obtain ⟨c, ds, rfl, hc⟩ := hwhole.eq_cons
    rw [Parser.number]
    · exact unsigned_append hwhole hfraction hexponent hrest
    · intro _ hcons
      exact ne_of_class hc rfl (List.cons.inj hcons).1
  | minus hwhole hfraction hexponent =>
    obtain ⟨hr, heq⟩ := unsigned_append hwhole hfraction hexponent hrest
    rw [List.cons_append, Parser.number, heq]
    exact ⟨_, rfl⟩

end Reading

section Writing

theorem isDigits_toDigits (n : Nat) : IsDigits (Nat.toDigits 10 n) :=
  ⟨Nat.toDigits_ne_nil, isDigit_toDigits n⟩

theorem digitChar_ne_zero {n : Nat} (hlt : n < 10) (hpos : 0 < n) : n.digitChar ≠ '0' := by
  decide +revert

theorem toDigits_eq_cons {n : Nat} (hpos : 0 < n) : ∃ c ds, Nat.toDigits 10 n = c :: ds ∧ c ≠ '0' := by
  induction n using Nat.strongRecOn with
  | ind n ih =>
    by_cases hlt : n < 10
    · exact ⟨n.digitChar, [], Nat.toDigits_of_lt_base hlt, digitChar_ne_zero hlt hpos⟩
    · obtain ⟨c, ds, heq, hc⟩ := ih (n / 10) (by omega) (by omega)
      refine ⟨c, ds ++ [(n % 10).digitChar], ?_, hc⟩
      rw [Nat.toDigits_of_base_le (by decide) (by omega), heq, List.cons_append]

theorem isWhole_toDigits (n : Nat) : IsWhole (Nat.toDigits 10 n) := by
  have hdigits := isDigits_toDigits n
  cases n with
  | zero => exact .zero
  | succ n =>
    obtain ⟨c, ds, heq, hc⟩ := toDigits_eq_cons (Nat.succ_pos n)
    rw [heq] at hdigits ⊢
    exact .digits hc hdigits

theorem isNumber_toDigits (n : Nat) : IsNumber (Nat.toDigits 10 n) := by
  have h := IsNumber.unsigned (isWhole_toDigits n) .none .none
  rwa [List.append_nil, List.append_nil] at h

theorem isNumber_minus_toDigits (n : Nat) : IsNumber ('-' :: Nat.toDigits 10 n) := by
  have h := IsNumber.minus (isWhole_toDigits n) .none .none
  rwa [List.append_nil, List.append_nil] at h

theorem toList_toString_nat (n : Nat) : (toString n).toList = Nat.toDigits 10 n := by
  rw [Nat.toString_eq_ofList_toDigits, String.toList_ofList]

theorem toList_toString_neg (n : Nat) : (toString (Int.negSucc n)).toList = '-' :: Nat.toDigits 10 (n + 1) := by
  change ("-" ++ toString (n + 1)).toList = _
  rw [String.toList_append, toList_toString_nat]
  rfl

theorem isNumber_integer (n : Int) : IsNumber (toString n).toList := by
  cases n with
  | ofNat n =>
    change IsNumber (toString n).toList
    rw [toList_toString_nat]
    exact isNumber_toDigits n
  | negSucc n =>
    rw [toList_toString_neg]
    exact isNumber_minus_toDigits (n + 1)

variable {count : Nat}

theorem place_eq (hpos : 0 < count) (point : Int) :
    ∃ whole fraction, decimal.place (Nat.toDigits 10 count) point = whole ++ fraction ∧
      IsWhole whole ∧ IsFraction fraction := by
  have hdigits := isDigit_toDigits count
  obtain ⟨c, ds, heq, hc⟩ := toDigits_eq_cons hpos
  rw [heq] at hdigits ⊢
  unfold Decimal.Notation.place
  split
  -- The point stands before the digits, after all of them or between two.
  · refine ⟨['0'], _, rfl, .zero, .point ⟨by simp, ?_⟩⟩
    exact List.forall_mem_append.2 ⟨isDigit_zeros _, hdigits⟩
  · split
    · refine ⟨_, ['.', '0'], rfl, .digits hc ⟨by simp, ?_⟩, .point ⟨by simp, by simp⟩⟩
      exact List.forall_mem_append.2 ⟨hdigits, isDigit_zeros _⟩
    · obtain ⟨k, hk⟩ : ∃ k, point.toNat = k + 1 := ⟨point.toNat - 1, by omega⟩
      have hne : ds.drop k ≠ [] := by
        rw [Ne, List.drop_eq_nil_iff]
        rw [List.length_cons] at *
        omega
      rw [List.forall_mem_cons] at hdigits
      rw [hk]
      refine ⟨_, _, rfl, .digits hc ⟨by simp, ?_⟩, .point ⟨hne, ?_⟩⟩
      · exact List.forall_mem_cons.2 ⟨hdigits.1, fun d hd => hdigits.2 d (List.mem_of_mem_take hd)⟩
      · exact fun d hd => hdigits.2 d (List.mem_of_mem_drop hd)

theorem scientific_eq (hpos : 0 < count) (exponent : Int) :
    ∃ whole fraction mark, decimal.scientific (Nat.toDigits 10 count) exponent = whole ++ (fraction ++ mark) ∧
      IsWhole whole ∧ IsFraction fraction ∧ IsExponent mark := by
  have hdigits := isDigit_toDigits count
  obtain ⟨c, ds, heq, hc⟩ := toDigits_eq_cons hpos
  rw [heq, List.forall_mem_cons] at hdigits
  have hmark : IsExponent ((if exponent < 0 then ['e', '-'] else ['e', '+']) ++ Nat.toDigits 10 exponent.natAbs) := by
    have hminus : ['-'] ∈ [[], ['+'], ['-']] := by simp
    have hplus : ['+'] ∈ [[], ['+'], ['-']] := by simp
    split
    · exact .mark (.inl rfl) hminus (isDigits_toDigits _)
    · exact .mark (.inl rfl) hplus (isDigits_toDigits _)
  have hwhole : IsWhole [c] := .digits hc ⟨by simp, by simpa using hdigits.1⟩
  rw [heq]
  cases ds with
  | nil =>
    refine ⟨[c], [], _, ?_, hwhole, .none, hmark⟩
    simp [Decimal.Notation.scientific, decimal]
  | cons d ds =>
    refine ⟨[c], '.' :: d :: ds, _, ?_, hwhole, .point ⟨by simp, hdigits.2⟩, hmark⟩
    simp [Decimal.Notation.scientific, decimal]

theorem layout_eq (hpos : 0 < count) (power : Int) :
    ∃ whole fraction exponent, decimal.layout count power = whole ++ (fraction ++ exponent) ∧
      IsWhole whole ∧ IsFraction fraction ∧ IsExponent exponent := by
  unfold Decimal.Notation.layout
  dsimp only
  split
  · obtain ⟨whole, fraction, heq, hwhole, hfraction⟩ :=
      place_eq hpos (power + (Nat.toDigits 10 count).length - 1 + 1)
    exact ⟨whole, fraction, [], by rw [heq, List.append_nil], hwhole, hfraction, .none⟩
  · exact scientific_eq hpos _

theorem isNumber_real {x : Float} (hx : x.isFinite = true) : IsNumber (decimal.write x).toList := by
  rw [Decimal.isFinite_eq, Bool.and_eq_true, Bool.not_eq_true', Bool.not_eq_true'] at hx
  have hsign : ∀ whole fraction exponent, IsWhole whole → IsFraction fraction → IsExponent exponent →
      IsNumber ((if Decimal.isNegative x then "-" else "") ++
        String.ofList (whole ++ (fraction ++ exponent))).toList := by
    intro whole fraction exponent hwhole hfraction hexponent
    split
    · simpa using IsNumber.minus hwhole hfraction hexponent
    · simpa using IsNumber.unsigned hwhole hfraction hexponent
  unfold Decimal.Notation.write
  dsimp only
  rw [hx.1, hx.2, if_neg (by decide), if_neg (by decide)]
  split
  · exact hsign ['0'] ['.', '0'] [] .zero (.point ⟨by simp, by simp⟩) .none
  · rename_i hnonzero
    have hpos := Nat.pos_of_ne_zero hnonzero
    obtain ⟨count, power, heq, -, -, hcovers⟩ := Decimal.shortest_covers .even hpos
    have hcount : 0 < count := by
      have hnum := Decimal.count_pos_of_covers hpos (Nat.pow_pos (by decide)) hcovers
      exact Nat.pos_of_mul_pos_right hnum
    obtain ⟨whole, fraction, exponent, hlayout, hparts⟩ := layout_eq hcount power
    rw [show decimal.tie = .even from rfl, heq, hlayout]
    exact hsign whole fraction exponent hparts.1 hparts.2.1 hparts.2.2

end Writing

section Integers

open Number

theorem gather_eq {ds : List Char} {significand : Nat} (hlt : Nat.ofDigitChars 10 ds significand < Nat.pow 2 64) :
    gather significand ds = (Nat.ofDigitChars 10 ds significand, []) := by
  induction ds generalizing significand with
  | nil => rw [gather, Nat.ofDigitChars_nil]
  | cons c ds ih =>
    rw [Nat.ofDigitChars_cons] at hlt ⊢
    have hgrows := Nat.le_mul_of_pos_left (10 * significand + (c.toNat - '0'.toNat))
      (show 0 < 10 ^ ds.length from Nat.pow_pos (by decide))
    have hnext : 10 * significand + (c.toNat - '0'.toNat) < Nat.pow 2 64 := by
      rw [Nat.ofDigitChars_eq_ofDigitChars_zero] at hlt
      omega
    rw [gather, if_pos hnext, ih hlt]

theorem split_digits {ds : List Char} (h : IsDigits ds) :
    split ds = ⟨false, ds, none, none⟩ ∧ split ('-' :: ds) = ⟨true, ds, none, none⟩ := by
  have htake : ds.takeWhile Char.isDigit = ds := List.takeWhile_eq_self_iff.2 h.2
  have hdrop : ds.dropWhile Char.isDigit = [] := List.dropWhile_eq_nil_iff.2 h.2
  constructor
  · obtain ⟨hne, hds⟩ := h
    cases ds with
    | nil => exact absurd rfl hne
    | cons c ds =>
      have hc : c ≠ '-' := ne_of_class (hds c List.mem_cons_self) rfl
      unfold split
      split
      rename_i hsplit
      split at hsplit
      · rename_i hcons
        exact absurd (List.cons.inj hcons).1 hc
      · obtain ⟨rfl, rfl⟩ := Prod.mk.inj hsplit
        simp only [htake, hdrop]
  · simp only [split, htake, hdrop]

theorem read?_toString_nat {n : Nat} (hlt : n < Nat.pow 2 64) : read? (toString n) = some (.natural n) := by
  have hvalue : Nat.ofDigitChars 10 (Nat.toDigits 10 n) 0 = n := Nat.ofDigitChars_ten_toDigits
  have hgather : gather 0 (Nat.toDigits 10 n) = (n, []) := by
    rw [gather_eq (by rwa [hvalue]), hvalue]
  simp only [read?, toList_toString_nat, (split_digits (isDigits_toDigits n)).1, hgather]
  rfl

theorem read?_toString_neg {n : Nat} (hlt : n < 2 ^ 63) :
    read? (toString (Int.negSucc n)) = some (.negative (Int.negSucc n)) := by
  have hvalue : Nat.ofDigitChars 10 (Nat.toDigits 10 (n + 1)) 0 = n + 1 := Nat.ofDigitChars_ten_toDigits
  have hgather : gather 0 (Nat.toDigits 10 (n + 1)) = (n + 1, []) := by
    rw [gather_eq, hvalue]
    rw [hvalue]
    change n + 1 < 2 ^ 64
    omega
  simp only [read?, toList_toString_neg, (split_digits (isDigits_toDigits (n + 1))).2, hgather]
  rw [if_neg (by decide), if_neg (by decide), if_pos ⟨Nat.succ_pos n, hlt⟩]
  rfl

theorem natural?_ofNatural {n : Nat} (h : n < Nat.pow 2 64) : (ofNatural n).natural? = some n := by
  have hnumber : (ofNatural n).number? = some (.natural n) := read?_toString_nat h
  rw [natural?, hnumber]

theorem integer?_ofInteger (n : Int64) : (ofInteger n).integer? = some n := by
  have hlow := n.le_toInt
  have hhigh := n.toInt_lt
  cases hn : n.toInt with
  | ofNat m =>
    have hlt : m < 2 ^ 63 := by
      change n.toInt = (m : Int) at hn
      omega
    have hnumber : (ofInteger n).number? = some (.natural m) := by
      rw [ofInteger, hn]
      exact read?_toString_nat (show m < 2 ^ 64 by omega)
    rw [integer?, hnumber]
    dsimp only
    rw [if_pos (show m < Nat.pow 2 63 from hlt), ← Int64.ofInt_eq_ofNat]
    change some (Int64.ofInt (Int.ofNat m)) = _
    rw [← hn, Int64.ofInt_toInt]
  | negSucc m =>
    have hnumber : (ofInteger n).number? = some (.negative (Int.negSucc m)) := by
      rw [ofInteger, hn]
      exact read?_toString_neg (by omega)
    rw [integer?, hnumber]
    dsimp only
    rw [← hn, Int64.ofInt_toInt]

end Integers

end GraphQuery.Json
