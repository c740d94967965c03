import GraphQuery.Decimal.Shortest
import GraphQuery.Proofs.Decimal.Patterns

/-!
The shortest decimal of a double reads back as that double: it lies in the rounding interval, and every decimal
in the rounding interval is rounded to it.
-/

namespace GraphQuery.Decimal

theorem roundEven_eq {num den k : Nat} (hden : 0 < den) (hlow : 2 * k * den ≤ 2 * num + den)
    (hhigh : 2 * num ≤ 2 * k * den + den)
    (hodd : k % 2 = 1 → 2 * k * den ≠ 2 * num + den ∧ 2 * num ≠ 2 * k * den + den) :
    roundEven num den = k := by
  obtain ⟨q, r, hr, rfl⟩ : ∃ q r, r < den ∧ num = q * den + r :=
    ⟨num / den, num % den, Nat.mod_lt _ hden, by rw [Nat.div_add_mod']⟩
  have hq : (q * den + r) / den = q := by
    rw [Nat.add_comm, Nat.add_mul_div_right _ _ hden, Nat.div_eq_of_lt hr, Nat.zero_add]
  have hr' : (q * den + r) % den = r := by
    rw [Nat.add_comm, Nat.add_mul_mod_self_right, Nat.mod_eq_of_lt hr]
  have hle : q ≤ k := by
    by_contra hlt
    have : (k + 1) * den ≤ q * den := Nat.mul_le_mul_right _ (by omega)
    linarith [Nat.add_mul k 1 den]
  have hge : k ≤ q + 1 := by
    by_contra hlt
    have : (q + 2) * den ≤ k * den := Nat.mul_le_mul_right _ (by omega)
    linarith [Nat.add_mul q 2 den]
  obtain rfl | rfl : k = q ∨ k = q + 1 := by omega
  · unfold roundEven
    rw [hq, hr']
    have : 2 * r ≤ den := by linarith
    dsimp only
    split
    · rfl
    · have : 2 * k * den + den = 2 * (k * den + r) := by linarith
      rw [if_neg (by omega)]
      have : k % 2 = 0 := by
        by_contra hk
        exact (hodd (by omega)).2 this.symm
      omega
  · unfold roundEven
    rw [hq, hr']
    have : den ≤ 2 * r := by linarith [Nat.add_mul q 1 den]
    dsimp only
    rw [if_neg (by omega)]
    split
    · rfl
    · have : 2 * (q + 1) * den = 2 * (q * den + r) + den := by linarith [Nat.add_mul q 1 den]
      have : (q + 1) % 2 = 0 := by
        by_contra hk
        exact (hodd (by omega)).1 this
      omega

theorem pow_add_two {a b : Nat} (h : a = b + 2) : Nat.pow 2 a = 4 * Nat.pow 2 b := by
  subst h
  change 2 ^ (b + 2) = 4 * 2 ^ b
  ring

theorem scale_eq : Magnitude.scale = 4 * Nat.pow 2 1074 := by
  unfold Magnitude.scale
  apply pow_add_two
  rfl

theorem scale_pos : 0 < Magnitude.scale := by
  unfold Magnitude.scale
  apply Nat.pow_pos
  decide

structure Magnitude.Normal (m : Magnitude) : Prop where
  significand_lt : m.significand < 2 ^ 53
  unit_le : m.unit ≤ 2045
  le_significand : 0 < m.unit → 2 ^ 52 ≤ m.significand

def Magnitude.slack (m : Magnitude) : Nat :=
  if m.significand = Nat.pow 2 52 ∧ 0 < m.unit then 1 else 2

theorem Magnitude.slack_le (m : Magnitude) : m.slack ≤ 2 := by
  unfold slack
  split <;> omega

theorem Magnitude.slack_pos (m : Magnitude) : 0 < m.slack := by
  unfold slack
  split <;> omega

section

variable {m : Magnitude} {num den : Nat}

theorem Magnitude.lower_add (hpos : 0 < m.significand) :
    m.lower + m.slack * 2 ^ m.unit = 4 * m.significand * 2 ^ m.unit := by
  have hle : m.slack * 2 ^ m.unit ≤ 4 * m.significand * 2 ^ m.unit :=
    Nat.mul_le_mul_right _ (by have := m.slack_le; omega)
  exact Nat.sub_add_cancel hle

theorem Magnitude.Covers.bounds (h : m.Covers num den) (hpos : 0 < m.significand) :
    4 * m.significand * (den * 2 ^ m.unit) ≤ 4 * (num * Nat.pow 2 1074) + m.slack * (den * 2 ^ m.unit) ∧
      4 * (num * Nat.pow 2 1074) ≤ 4 * m.significand * (den * 2 ^ m.unit) + 2 * (den * 2 ^ m.unit) ∧
      (m.significand % 2 = 1 →
        4 * m.significand * (den * 2 ^ m.unit) ≠ 4 * (num * Nat.pow 2 1074) + m.slack * (den * 2 ^ m.unit) ∧
        4 * (num * Nat.pow 2 1074) ≠ 4 * m.significand * (den * 2 ^ m.unit) + 2 * (den * 2 ^ m.unit)) := by
  have hlower : m.lower * den + m.slack * (den * 2 ^ m.unit) = 4 * m.significand * (den * 2 ^ m.unit) := by
    calc m.lower * den + m.slack * (den * 2 ^ m.unit)
      _ = (m.lower + m.slack * 2 ^ m.unit) * den := by ring
      _ = 4 * m.significand * (den * 2 ^ m.unit) := by rw [lower_add hpos]; ring
  have hupper : m.upper * den = 4 * m.significand * (den * 2 ^ m.unit) + 2 * (den * 2 ^ m.unit) := by
    change (4 * m.significand * 2 ^ m.unit + 2 * 2 ^ m.unit) * den = _
    ring
  have hscale : num * scale = 4 * (num * Nat.pow 2 1074) := by
    rw [scale_eq]
    ring
  unfold Covers at h
  rw [hupper, hscale] at h
  split at h <;> refine ⟨?_, ?_, ?_⟩ <;> omega

theorem log2_div_lt {scaled n : Nat} (hden : 0 < den) (hn : 0 < n) (h : scaled < 2 ^ n * den) :
    (scaled / den).log2 < n := by
  by_cases hq : scaled / den = 0
  · rw [hq]
    exact hn
  · rw [Nat.log2_lt hq, Nat.div_lt_iff_lt_mul hden]
    exact h

theorem le_log2_div {scaled n : Nat} (hden : 0 < den) (h : 2 ^ n * den ≤ scaled) : n ≤ (scaled / den).log2 := by
  have hle : 2 ^ n ≤ scaled / den := (Nat.le_div_iff_mul_le hden).2 h
  have hq : scaled / den ≠ 0 := by
    have := Nat.two_pow_pos n
    omega
  exact (Nat.le_log2 hq).2 hle

theorem nearestBits_eq {unit significand : Nat} (hunit : (num * Nat.pow 2 1074 / den).log2 - 52 = unit)
    (hround : roundEven (num * Nat.pow 2 1074) (den * 2 ^ unit) = significand)
    (hfinite : unit * 2 ^ 52 + significand ≤ 2047 * 2 ^ 52) :
    nearestBits num den = unit * 2 ^ 52 + significand := by
  unfold nearestBits
  dsimp only
  rw [hunit]
  change min (unit * 2 ^ 52 + roundEven (num * Nat.pow 2 1074) (den * 2 ^ unit)) (2047 * 2 ^ 52) = _
  rw [hround, Nat.min_eq_left hfinite]

theorem Magnitude.Covers.roundEven (h : m.Covers num den) (hpos : 0 < m.significand) (hden : 0 < den) :
    roundEven (num * Nat.pow 2 1074) (den * 2 ^ m.unit) = m.significand := by
  obtain ⟨hlow, hhigh, hodd⟩ := h.bounds hpos
  have hslack : m.slack * (den * 2 ^ m.unit) ≤ 2 * (den * 2 ^ m.unit) := Nat.mul_le_mul_right _ m.slack_le
  have hslackOdd : m.significand % 2 = 1 → m.slack = 2 := by
    intro hsig
    apply if_neg
    rintro ⟨hpow, -⟩
    rw [hpow] at hsig
    exact absurd hsig (by decide)
  generalize num * Nat.pow 2 1074 = scaled at *
  apply roundEven_eq (Nat.mul_pos hden (Nat.two_pow_pos m.unit))
  · linarith
  · linarith
  · intro hsig
    obtain ⟨hne, hne'⟩ := hodd hsig
    rw [hslackOdd hsig] at hne
    constructor
    · intro heq
      apply hne
      linarith
    · intro heq
      apply hne'
      linarith

theorem nearestBits_of_covers (hm : m.Normal) (hpos : 0 < m.significand) (hden : 0 < den)
    (h : m.Covers num den) : nearestBits num den = m.unit * 2 ^ 52 + m.significand := by
  obtain ⟨hsig, hunit, hleast⟩ := hm
  have hround := h.roundEven hpos hden
  obtain ⟨hlow, hhigh, -⟩ := h.bounds hpos
  have hone : 0 < den * 2 ^ m.unit := Nat.mul_pos hden (Nat.two_pow_pos m.unit)
  have hbelow : num * Nat.pow 2 1074 < 2 ^ (m.unit + 53) * den := by
    have hlt : (m.significand + 1) * (den * 2 ^ m.unit) ≤ 2 ^ 53 * (den * 2 ^ m.unit) :=
      Nat.mul_le_mul_right _ hsig
    have hassoc : 2 ^ (m.unit + 53) * den = 2 ^ 53 * (den * 2 ^ m.unit) := by ring
    linarith
  have hlog := log2_div_lt hden (by omega) hbelow
  by_cases hexact : m.unit = 0 ∨ 2 ^ (m.unit + 52) * den ≤ num * Nat.pow 2 1074
  · -- The quotient has the unit of the magnitude.
    apply nearestBits_eq _ hround (by omega)
    rcases hexact with hzero | hexact
    · omega
    · have := le_log2_div hden hexact
      omega
  · -- Just below a power of two the quotient has the next smaller unit and rounds up to that power.
    obtain ⟨hnonzero, hbelow⟩ := not_or.1 hexact
    obtain ⟨unit, hunit'⟩ := Nat.exists_eq_add_one_of_ne_zero hnonzero
    have hpow : den * 2 ^ m.unit = 2 * (den * 2 ^ unit) := by rw [hunit']; ring
    have hassoc : 2 ^ (m.unit + 52) * den = 2 ^ 53 * (den * 2 ^ unit) := by rw [hunit']; ring
    have hassoc' : 2 ^ (unit + 52) * den = 2 ^ 52 * (den * 2 ^ unit) := by ring
    have hslack : m.slack * (den * 2 ^ m.unit) ≤ 2 * (den * 2 ^ m.unit) := Nat.mul_le_mul_right _ m.slack_le
    have hsig' : m.significand = 2 ^ 52 := by
      by_contra hne
      have hge := hleast (by omega)
      have hmul : (2 ^ 52 + 1) * (den * 2 ^ m.unit) ≤ m.significand * (den * 2 ^ m.unit) :=
        Nat.mul_le_mul_right _ (by omega)
      linarith
    have hslack' : m.slack = 1 := if_pos ⟨hsig', by omega⟩
    rw [hsig', hslack', hpow] at hlow
    rw [hpow] at hone
    have hlog' := le_log2_div hden (show 2 ^ (unit + 52) * den ≤ num * Nat.pow 2 1074 by linarith)
    have hlog'' := log2_div_lt hden (Nat.succ_pos _) (Nat.lt_of_not_le hbelow)
    have hround' : roundEven (num * Nat.pow 2 1074) (den * 2 ^ unit) = 2 ^ 53 := by
      apply roundEven_eq (by omega)
      · linarith
      · linarith
      · intro hodd
        exact absurd hodd (by decide)
    rw [nearestBits_eq (by omega) hround' (by omega), hsig', hunit']
    ring

end

section

variable {tie : Tie} {m : Magnitude} {count : Nat} {power : Int}

theorem covers_of_onGrid? (h : onGrid? tie m power = some count) :
    m.Covers (gridPoint count power).1 (gridPoint count power).2 := by
  unfold onGrid? at h
  dsimp only at h
  split at h
  · rename_i hbelow habove
    obtain rfl := Option.some.inj h
    exact iteInduction (motive := fun count => m.Covers (gridPoint count power).1 (gridPoint count power).2)
      (fun _ => of_decide_eq_true habove) (fun _ => of_decide_eq_true hbelow)
  · rename_i hbelow _
    obtain rfl := Option.some.inj h
    exact of_decide_eq_true hbelow
  · rename_i _ habove
    obtain rfl := Option.some.inj h
    exact of_decide_eq_true habove
  · cases h

theorem covers_of_lt {num den : Nat} (hlow : m.lower * den < num * Magnitude.scale)
    (hhigh : num * Magnitude.scale < m.upper * den) : m.Covers num den := by
  unfold Magnitude.Covers
  split
  · exact ⟨Nat.le_of_lt hlow, Nat.le_of_lt hhigh⟩
  · exact ⟨hlow, hhigh⟩

theorem covers_below (hpos : 0 < m.significand)
    (hfine : Magnitude.scale * Nat.pow 10 power.toNat ≤ Nat.pow 10 (-power).toNat) :
    let below := m.quadruple * Nat.pow 10 (-power).toNat / (Magnitude.scale * Nat.pow 10 power.toNat)
    m.Covers (gridPoint below power).1 (gridPoint below power).2 := by
  have hden : 0 < Magnitude.scale * Nat.pow 10 power.toNat :=
    Nat.mul_pos scale_pos (Nat.pow_pos (by decide))
  have hone : 0 < 2 ^ m.unit := Nat.two_pow_pos m.unit
  have hlower : m.lower + 2 ^ m.unit ≤ m.quadruple := by
    have hslack : 1 * 2 ^ m.unit ≤ m.slack * 2 ^ m.unit := Nat.mul_le_mul_right _ m.slack_pos
    have hadd := Magnitude.lower_add hpos
    change m.lower + 2 ^ m.unit ≤ 4 * m.significand * 2 ^ m.unit
    omega
  unfold gridPoint
  dsimp only
  generalize Nat.pow 10 (-power).toNat = a at *
  generalize Nat.pow 10 power.toNat = b at *
  have hle := Nat.div_mul_le_self (m.quadruple * a) (Magnitude.scale * b)
  have hlt := Nat.lt_div_mul_add (a := m.quadruple * a) hden
  generalize m.quadruple * a / (Magnitude.scale * b) = below at *
  have hassoc : below * b * Magnitude.scale = below * (Magnitude.scale * b) := by ring
  apply covers_of_lt
  · rw [hassoc]
    have hmul : (m.lower + 2 ^ m.unit) * a ≤ m.quadruple * a := Nat.mul_le_mul_right a hlower
    have hmul' : 1 * a ≤ 2 ^ m.unit * a := Nat.mul_le_mul_right a hone
    linarith
  · rw [hassoc]
    change _ < (m.quadruple + 2 * 2 ^ m.unit) * a
    have hmul : 0 < 2 ^ m.unit * a := Nat.mul_pos hone (by omega)
    linarith

theorem onGrid?_ne_none (hpos : 0 < m.significand)
    (hfine : Magnitude.scale * Nat.pow 10 power.toNat ≤ Nat.pow 10 (-power).toNat) :
    onGrid? tie m power ≠ none := by
  unfold onGrid?
  dsimp only
  split
  · exact Option.some_ne_none _
  · exact Option.some_ne_none _
  · exact Option.some_ne_none _
  · rename_i hbelow _
    exact absurd (covers_below hpos hfine) (of_decide_eq_false hbelow)

theorem fine_last : Magnitude.scale * Nat.pow 10 (-324 : Int).toNat ≤ Nat.pow 10 (- -324 : Int).toNat := by
  decide +kernel

theorem shortest_covers (tie : Tie) (hpos : 0 < m.significand) :
    ∃ count power, shortest tie m = (count, power) ∧ -324 ≤ power ∧ power ≤ 308 ∧
      m.Covers (gridPoint count power).1 (gridPoint count power).2 := by
  have hlast : (-324 : Int) ∈ powers := by
    rw [powers, List.mem_map]
    exact ⟨632, List.mem_range.2 (by decide), by decide⟩
  have hsome : (powers.findSome? (fun power => (onGrid? tie m power).map (fun count => (count, power)))).isSome := by
    rw [List.findSome?_isSome_iff]
    refine ⟨-324, hlast, ?_⟩
    rw [Option.isSome_map, Option.isSome_iff_ne_none]
    exact onGrid?_ne_none hpos fine_last
  obtain ⟨⟨count, power⟩, hfound⟩ := Option.isSome_iff_exists.1 hsome
  obtain ⟨power', hmem, hgrid⟩ := List.exists_of_findSome?_eq_some hfound
  obtain ⟨count', hgrid, heq⟩ := Option.map_eq_some_iff.1 hgrid
  cases heq
  obtain ⟨i, hi, hpower⟩ := List.mem_map.1 hmem
  rw [List.mem_range] at hi
  refine ⟨count, power, ?_, by omega, by omega, covers_of_onGrid? hgrid⟩
  rw [shortest, hfound, Option.getD_some]

theorem count_pos_of_covers {num den : Nat} (hpos : 0 < m.significand) (hden : 0 < den)
    (h : m.Covers num den) : 0 < num := by
  obtain ⟨hlow, -, -⟩ := h.bounds hpos
  have hone : 0 < den * 2 ^ m.unit := Nat.mul_pos hden (Nat.two_pow_pos m.unit)
  have hslack : m.slack * (den * 2 ^ m.unit) ≤ 2 * (den * 2 ^ m.unit) := Nat.mul_le_mul_right _ m.slack_le
  have hsig : 1 * (den * 2 ^ m.unit) ≤ m.significand * (den * 2 ^ m.unit) := Nat.mul_le_mul_right _ hpos
  rcases Nat.eq_zero_or_pos num with rfl | hnum
  · linarith
  · exact hnum

theorem Magnitude.Covers.mul {num den : Nat} (h : m.Covers num den) {k : Nat} (hk : 0 < k) :
    m.Covers (num * k) (den * k) := by
  unfold Covers at h ⊢
  have hlower : m.lower * (den * k) = m.lower * den * k := by ring
  have hnum : num * k * scale = num * scale * k := by ring
  have hupper : m.upper * (den * k) = m.upper * den * k := by ring
  rw [hlower, hnum, hupper, Nat.mul_le_mul_right_iff hk, Nat.mul_le_mul_right_iff hk, Nat.mul_lt_mul_right hk,
    Nat.mul_lt_mul_right hk]
  exact h

end

section

variable {x : Float}

def IsMagnitude (x : Float) : Prop :=
  x.toBits.toNat < 2047 * 2 ^ 52

theorem magnitude_eq (h : IsMagnitude x) : magnitude x =
    ⟨if x.toBits.toNat / 2 ^ 52 = 0 then x.toBits.toNat % 2 ^ 52 else x.toBits.toNat % 2 ^ 52 + 2 ^ 52,
      x.toBits.toNat / 2 ^ 52 - 1⟩ := by
  unfold IsMagnitude at h
  have hfield : x.toBits.toNat / 2 ^ 52 % 2 ^ 11 = x.toBits.toNat / 2 ^ 52 := Nat.mod_eq_of_lt (by omega)
  change Magnitude.mk (if x.toBits.toNat / 2 ^ 52 % 2 ^ 11 = 0 then _ else _) (x.toBits.toNat / 2 ^ 52 % 2 ^ 11 - 1) = _
  rw [hfield]
  rfl

theorem normal_magnitude (h : IsMagnitude x) : (magnitude x).Normal := by
  rw [magnitude_eq h]
  unfold IsMagnitude at h
  constructor
  · dsimp only
    split <;> omega
  · dsimp only
    omega
  · dsimp only
    split <;> omega

theorem magnitude_bits (h : IsMagnitude x) :
    (magnitude x).unit * 2 ^ 52 + (magnitude x).significand = x.toBits.toNat := by
  rw [magnitude_eq h]
  dsimp only
  split <;> omega

theorem nearest_of_covers {num den : Nat} (h : IsMagnitude x) (hpos : 0 < (magnitude x).significand)
    (hden : 0 < den) (hcovers : (magnitude x).Covers num den) : nearest num den = x := by
  rw [nearest, nearestBits_of_covers (normal_magnitude h) hpos hden hcovers, magnitude_bits h, UInt64.ofNat_toNat]
  exact Float.ofBits_toBits x

theorem ofDigits_of_covers {digits : Nat} {exponent : Int} (h : IsMagnitude x)
    (hpos : 0 < (magnitude x).significand) (hle : exponent ≤ 400) (hge : -1500 ≤ exponent)
    (hcovers : (magnitude x).Covers (digits * Nat.pow 10 exponent.toNat) (Nat.pow 10 (-exponent).toNat)) :
    ofDigits digits exponent = x := by
  have hden : 0 < Nat.pow 10 (-exponent).toNat := Nat.pow_pos (by decide)
  have hdigits : digits ≠ 0 := by
    rintro rfl
    have := count_pos_of_covers hpos hden hcovers
    omega
  unfold ofDigits
  rw [if_neg hdigits, if_neg (by omega), if_neg (by omega)]
  exact nearest_of_covers h hpos hden hcovers

theorem nearestBits_zero : nearestBits 0 1 = 0 * 2 ^ 52 + 0 := by
  apply nearestBits_eq
  · generalize Nat.pow 2 1074 = p
    rw [Nat.zero_mul]
    rfl
  · generalize Nat.pow 2 1074 = p
    rw [Nat.zero_mul]
    rfl
  · decide

theorem ofDigits_zero (h : IsMagnitude x) (hzero : (magnitude x).significand = 0) (exponent : Int) :
    ofDigits 0 exponent = x := by
  have hunit : (magnitude x).unit = 0 := by
    have := (normal_magnitude h).le_significand
    omega
  have hbits := magnitude_bits h
  rw [hunit, hzero] at hbits
  rw [ofDigits, if_pos rfl, nearest, nearestBits_zero, hbits, UInt64.ofNat_toNat]
  exact Float.ofBits_toBits x

theorem toNat_toBits_ofBits {n : Nat} (h : n ≤ infinityBits) : (Float.ofBits (UInt64.ofNat n)).toBits.toNat = n := by
  change n ≤ 2047 * 2 ^ 52 at h
  have hn : (UInt64.ofNat n).toNat = n := UInt64.toNat_ofNat_of_lt' (by rw [UInt64.size]; omega)
  have hnan : ¬IsNaN (UInt64.ofNat n) := by
    rw [IsNaN, hn]
    omega
  rw [toBits_ofBits hnan, hn]

theorem toBits_ofDigits_le (digits : Nat) (exponent : Int) :
    (ofDigits digits exponent).toBits.toNat ≤ infinityBits := by
  have hnearest : ∀ num den, (nearest num den).toBits.toNat ≤ infinityBits := by
    intro num den
    have hle : nearestBits num den ≤ infinityBits := Nat.min_le_right _ _
    rw [nearest, toNat_toBits_ofBits hle]
    exact hle
  unfold ofDigits
  split
  · exact hnearest 0 1
  split
  · exact Nat.le_of_eq (toNat_toBits_ofBits (Nat.le_refl _))
  split
  · exact hnearest 0 1
  · exact hnearest _ _

end

end GraphQuery.Decimal
