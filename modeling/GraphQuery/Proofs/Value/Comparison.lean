import GraphQuery.Machine.Evaluate
import GraphQuery.Proofs.Except
import GraphQuery.Proofs.Value.Deduplication

namespace GraphQuery

section Floats

open Float.Model UnpackedFloat

theorem compare_unpacked_self (a : UnpackedFloat) : a.compare a = if a.isNaN then none else some .eq := by
  rcases a with s | _ | s | ⟨s, _, _, _⟩
  · cases s <;> rfl
  · rfl
  · rfl
  · cases s <;> simp [UnpackedFloat.compare, UnpackedFloat.isNaN]

theorem compareFloats_eq (x y : Float) :
    Value.compareFloats x y = x.toModel.unpack.compare y.toModel.unpack := by
  have hlt : ∀ a b : Float, a < b ↔ a.toModel.unpack.compare b.toModel.unpack = some .lt := by
    intro a b
    change decide (a.toModel < b.toModel) = true ↔ _
    rw [decide_eq_true_eq]
    exact beq_iff_eq
  have hbeq : (x == y) = (x.toModel.unpack.compare y.toModel.unpack == some .eq) := rfl
  rw [Value.compareFloats]
  simp only [hlt, hbeq, compare_swap x.toModel.unpack y.toModel.unpack]
  rcases x.toModel.unpack.compare y.toModel.unpack with _ | (_ | _ | _) <;> rfl

theorem compareFloats_swap (x y : Float) :
    Value.compareFloats y x = (Value.compareFloats x y).map Ordering.swap := by
  rw [compareFloats_eq, compareFloats_eq, compare_swap]

theorem beq_eq_compareFloats (x y : Float) : (x == y) = (Value.compareFloats x y == some .eq) := by
  rw [compareFloats_eq]
  rfl

theorem float_beq_self (x : Float) : (x == x) = !x.isNaN := by
  rw [beq_eq_compareFloats, compareFloats_eq, compare_unpacked_self]
  change _ = !x.toModel.unpack.isNaN
  cases x.toModel.unpack.isNaN <;> rfl

theorem isSome_compareFloats (x y : Float) : (Value.compareFloats x y).isSome = (!x.isNaN && !y.isNaN) := by
  rw [compareFloats_eq]
  change _ = (!x.toModel.unpack.isNaN && !y.toModel.unpack.isNaN)
  rcases x.toModel.unpack with s | _ | s | ⟨s, _, _, _⟩ <;>
    rcases y.toModel.unpack with s' | _ | s' | ⟨s', _, _, _⟩ <;>
    first | rfl | (cases s <;> first | rfl | (cases s' <;> rfl))

theorem isNaN_pack (f : UnpackedFloat) : (Float.Model.pack f).unpack.isNaN = f.isNaN := by
  cases f with
  | notANumber => rfl
  | infinity s => cases s <;> rfl
  | zero s => cases s <;> rfl
  | finite s m e hm =>
    rw [Bool.eq_iff_iff]
    refine ⟨fun h => ?_, fun h => by cases h⟩
    have hpacked := (@isNaN_unpack_iff_of_valid Format.binary64 _ valid_pack (by decide)).1 h
    rw [UnpackedFloat.pack] at hpacked
    dsimp only at hpacked
    split at hpacked
    · have hmantissa := congrArg unpackMantissa hpacked
      rw [packedInfinity, packedNaN, unpackMantissa_packComponents, unpackMantissa_packComponents] at hmantissa
      exact absurd hmantissa (by decide)
    · rename_i hsmall
      split at hpacked
      · have hexponent := congrArg (fun b => (unpackExponent b).toNat) hpacked
        simp only [packedNaN, unpackExponent_packComponents, BitVec.toNat_ofNat] at hexponent
        change _ % 2 ^ 11 = 2047 at hexponent
        change ¬ 2 ^ 11 ≤ _ at hsmall
        omega
      · have hexponent := congrArg unpackExponent hpacked
        rw [packedNaN, unpackExponent_packComponents, unpackExponent_packComponents] at hexponent
        exact absurd hexponent (by decide)

theorem isNaN_roundWithAccuracy (spec : Format) (s : Sign) (m : Nat) (e : Int) (accuracy : Accuracy) :
    (roundWithAccuracy spec s m e accuracy).isNaN = false := by
  unfold roundWithAccuracy
  dsimp only
  split <;> rfl

theorem isNaN_mul_finite (spec : Format) {f : UnpackedFloat} (hf : f.isNaN = false) (s : Sign) (m : Nat) (e : Int)
    (hm : 0 < m) : (UnpackedFloat.mul spec f (.finite s m e hm)).isNaN = false := by
  cases f with
  | notANumber => cases hf
  | infinity _ | zero _ => rfl
  | finite s' m' e' hm' => exact isNaN_roundWithAccuracy spec _ _ _ _

theorem isNaN_normalize (spec : Format) (n e : Int) (s : Sign) :
    (UnpackedFloat.normalize spec n e s).isNaN = false := by
  unfold UnpackedFloat.normalize
  split
  · exact isNaN_roundWithAccuracy spec _ _ _ _
  · rfl
  · exact isNaN_roundWithAccuracy spec _ _ _ _

theorem isNaN_mul {x y : Float} (hx : x.isNaN = false) {s : Sign} {m : Nat} {e : Int} {hm : 0 < m}
    (hy : y.toModel.unpack = .finite s m e hm) : (x * y).isNaN = false := by
  change (Float.Model.pack (UnpackedFloat.mul _ x.toModel.unpack y.toModel.unpack)).unpack.isNaN = false
  rw [isNaN_pack, hy]
  exact isNaN_mul_finite _ hx s m e hm

theorem isNaN_toFloat (n : UInt64) : n.toFloat.isNaN = false := by
  change (Float.Model.pack (UnpackedFloat.normalize Format.binary64 n.toNat 0 .positive)).unpack.isNaN = false
  rw [isNaN_pack, isNaN_normalize]

theorem isNaN_ofNat (n : Nat) : (Float.ofNat n).isNaN = false := by
  have hone : (Float.exactlyRepresentablePowersOfTen[0]).toModel.unpack =
      .finite .positive 4503599627370496 (-52) (by decide) := rfl
  change (Float.ofScientific n false 0).isNaN = false
  unfold Float.ofScientific
  split
  · exact isNaN_mul (isNaN_toFloat n.toUInt64) hone
  · change (Float.Model.pack (UnpackedFloat.ofScientific Format.binary64 n 0)).unpack.isNaN = false
    rw [isNaN_pack, UnpackedFloat.ofScientific]
    split
    · rfl
    · rw [if_neg (by decide), if_neg (by simp), if_pos (Int.le_refl 0)]
      apply isNaN_mul_finite
      rfl

theorem isNaN_realOfInteger (n : Int64) : (realOfInteger n).isNaN = false := by
  unfold realOfInteger Float.ofInt
  split
  · exact isNaN_ofNat _
  · change (Float.Model.pack (Float.ofNat _).toModel.unpack.neg).unpack.isNaN = false
    have hneg : ∀ f : UnpackedFloat, f.neg.isNaN = f.isNaN := by
      intro f
      cases f <;> rfl
    rw [isNaN_pack, hneg]
    exact isNaN_ofNat _

end Floats

namespace Value

inductive HasNaN : Value → Prop
  | float {x : Float} (h : x.isNaN = true) : HasNaN (float x)
  | item {items : List Value} {v : Value} (hv : v ∈ items) (h : HasNaN v) : HasNaN (list items)

mutual
theorem looseEq_of_sameAs : (a b : Value) → a.sameAs b = true → a.looseEq b = true
  | null, b, h | boolean _, b, h | integer _, b, h | float _, b, h | string _, b, h | element _, b, h => by
    cases b <;> simp_all [sameAs, looseEq]
  | list as, b, h => by
    cases b with
    | list bs =>
      rw [sameAs] at h
      rw [looseEq]
      exact looseEqItems_of_sameItems as bs h
    | _ => cases h

theorem looseEqItems_of_sameItems : (as bs : List Value) → sameItems as bs = true → looseEqItems as bs = true
  | [], bs, h => by cases bs <;> simp_all [sameItems, looseEqItems]
  | a :: as, bs, h => by
    cases bs with
    | nil => cases h
    | cons b bs =>
      rw [sameItems, Bool.and_eq_true] at h
      rw [looseEqItems, looseEq_of_sameAs a b h.1, looseEqItems_of_sameItems as bs h.2, Bool.and_true]
end

theorem hasNaN_iff {v : Value} :
    v.HasNaN ↔ (∃ x, v = float x ∧ x.isNaN = true) ∨ ∃ items, v = list items ∧ ∃ u ∈ items, u.HasNaN := by
  constructor
  · rintro (hnan | ⟨hu, hnan⟩)
    · exact .inl ⟨_, rfl, hnan⟩
    · exact .inr ⟨_, rfl, _, hu, hnan⟩
  · rintro (⟨x, rfl, hnan⟩ | ⟨items, rfl, u, hu, hnan⟩)
    · exact .float hnan
    · exact .item hu hnan

mutual
theorem looseEq_self_iff : (v : Value) → (v.looseEq v = true ↔ ¬ v.HasNaN)
  | null | boolean _ | integer _ | string _ | element _ => by
    rw [hasNaN_iff]
    simp [looseEq]
  | float x => by
    rw [hasNaN_iff, looseEq, float_beq_self]
    simp
  | list items => by
    rw [hasNaN_iff, looseEq, looseEqItems_self_iff items]
    simp

theorem looseEqItems_self_iff : (vs : List Value) → (looseEqItems vs vs = true ↔ ∀ v ∈ vs, ¬ v.HasNaN)
  | [] => by simp [looseEqItems]
  | v :: vs => by
    rw [looseEqItems, Bool.and_eq_true, looseEq_self_iff v, looseEqItems_self_iff vs, List.forall_mem_cons]
end

theorem compare?_swap (a b : Value) : b.compare? a = (a.compare? b).map Ordering.swap := by
  cases a <;> cases b <;> try rfl
  case boolean.boolean x y | string.string x y => exact congrArg some Std.OrientedCmp.eq_swap
  case integer.integer m n => exact congrArg some Std.OrientedCmp.eq_swap
  case integer.float n x => exact compareFloats_swap (realOfInteger n) x
  case float.integer x n => exact compareFloats_swap x (realOfInteger n)
  case float.float x y => exact compareFloats_swap x y

theorem compareFloats_eq_iff {x y : Float} {o : Ordering} (h : compareFloats x y = some o) :
    o = .eq ↔ (x == y) = true := by
  rw [beq_eq_compareFloats, h]
  simp

theorem compare?_eq_iff {a b : Value} {o : Ordering} (h : a.compare? b = some o) :
    o = .eq ↔ a.looseEq b = true := by
  cases a <;> cases b <;> try cases h
  case boolean.boolean x y | string.string x y => simp [looseEq, Std.LawfulEqCmp.compare_eq_iff_eq]
  case integer.integer m n => simp [looseEq, Std.LawfulEqCmp.compare_eq_iff_eq, Int64.toInt_inj]
  case integer.float n x => exact compareFloats_eq_iff h
  case float.integer x n =>
    rw [looseEq, float_beq_comm]
    exact compareFloats_eq_iff h
  case float.float x y => exact compareFloats_eq_iff h

theorem exists_compare? {a b : Value} (ha : a.isNull = false) (hb : b.isNull = false)
    (h : ∀ e, applyBinary .less a b ≠ .error e) : ∃ o, a.compare? b = some o := by
  cases ho : a.compare? b with
  | some o => exact ⟨o, rfl⟩
  | none =>
    refine absurd ?_ (h (.mismatch .less a b))
    simp [applyBinary, ordered, ha, hb, ho]

theorem ordered_of_compare? {a b : Value} {o : Ordering} (ha : a.isNull = false) (hb : b.isNull = false)
    (ho : a.compare? b = some o) (op : Term.BinaryOp) (holds : Ordering → Bool) :
    ordered op holds a b = .ok (boolean (holds o)) := by
  simp [ordered, ha, hb, ho]

theorem hasNaN_float {x : Float} : (float x).HasNaN ↔ x.isNaN = true := by
  constructor
  · rintro ⟨h⟩
    exact h
  · exact .float

theorem not_hasNaN_integer (n : Int64) : ¬ (integer n).HasNaN := by
  rintro ⟨⟩

theorem isSome_compare?_iff {a b : Value} : (a.compare? b).isSome ↔
    a.isNumber ∧ b.isNumber ∧ ¬ a.HasNaN ∧ ¬ b.HasNaN ∨ a.string?.isSome ∧ b.string?.isSome ∨
      a.isBoolean ∧ b.isBoolean := by
  cases a <;> cases b <;>
    simp [compare?, isNumber, string?, isBoolean, isSome_compareFloats, isNaN_realOfInteger, hasNaN_float,
      not_hasNaN_integer, -Float.isNaN_eq_decide_eq_nan]

end Value

namespace Machine

variable {w : World} {scope : Scope} {l r : Term} {a b : Value}

theorem evaluate_operator {op : Term.BinaryOp} (hop : op ≠ .and ∧ op ≠ .or) (hl : evaluate w scope l = .ok a)
    (hr : evaluate w scope r = .ok b) : evaluate w scope (.binary op l r) = Value.applyBinary op a b := by
  cases op with
  | and => exact absurd rfl hop.1
  | or => exact absurd rfl hop.2
  | _ => simp only [evaluate, hl, hr, ok_bind]

/-- Loose equality is symmetric, wider than equality, and reflexive but for `NaN`. The order of two values is the
reverse of that of the two exchanged, and they are equal in it just when they are loosely equal. Therefore, if neither
operand is null and comparing them does not fail, exactly one of `<`, `==` and `>` is true, `<=` is `<` or `==`, and
`>=` is `>` or `==`. -/
theorem comparisons_coherent (a b : Value) :
    a.looseEq b = b.looseEq a ∧
      ((a == b) = true → a.looseEq b = true) ∧
      (a.looseEq a = true ↔ ¬ a.HasNaN) ∧
      b.compare? a = (a.compare? b).map Ordering.swap ∧
      (∀ o, a.compare? b = some o → (o = .eq ↔ a.looseEq b = true)) ∧
      ∀ (w : World) (scope : Scope) (l r : Term), evaluate w scope l = .ok a → evaluate w scope r = .ok b →
        a.isNull = false → b.isNull = false → (∀ e, evaluate w scope (.binary .less l r) ≠ .error e) →
        ∃ less equal greater : Bool, [less, equal, greater].count true = 1 ∧
          evaluate w scope (.binary .less l r) = .ok (.boolean less) ∧
          evaluate w scope (.binary .equality l r) = .ok (.boolean equal) ∧
          evaluate w scope (.binary .greater l r) = .ok (.boolean greater) ∧
          evaluate w scope (.binary .lessOrEqual l r) = .ok (.boolean (less || equal)) ∧
          evaluate w scope (.binary .greaterOrEqual l r) = .ok (.boolean (greater || equal)) := by
  refine ⟨a.looseEq_comm b, a.looseEq_of_sameAs b, a.looseEq_self_iff, a.compare?_swap b,
    fun o ho => Value.compare?_eq_iff ho, ?_⟩
  intro w scope l r hl hr ha hb hless
  have heval : ∀ op : Term.BinaryOp, op ≠ .and ∧ op ≠ .or →
      evaluate w scope (.binary op l r) = Value.applyBinary op a b := fun op hop => evaluate_operator hop hl hr
  rw [heval .less (by decide)] at hless
  obtain ⟨o, ho⟩ := Value.exists_compare? ha hb hless
  have hequal : a.looseEq b = (o == .eq) := by
    rw [Bool.eq_iff_iff, beq_iff_eq, Value.compare?_eq_iff ho]
  refine ⟨o == .lt, o == .eq, o == .gt, ?_, ?_, ?_, ?_, ?_, ?_⟩
  · cases o <;> rfl
  · rw [heval .less (by decide)]
    exact Value.ordered_of_compare? ha hb ho _ _
  · rw [heval .equality (by decide), ← hequal]
    rfl
  · rw [heval .greater (by decide)]
    exact Value.ordered_of_compare? ha hb ho _ _
  · rw [heval .lessOrEqual (by decide), Value.applyBinary, Value.ordered_of_compare? ha hb ho]
    cases o <;> rfl
  · rw [heval .greaterOrEqual (by decide), Value.applyBinary, Value.ordered_of_compare? ha hb ho]
    cases o <;> rfl

end Machine

end GraphQuery
