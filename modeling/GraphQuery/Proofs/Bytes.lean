import GraphQuery.Bytes
import Mathlib

namespace GraphQuery.Bytes

variable {α : Type} {bs rest more : List UInt8}

@[simp] theorem length_ofNat (width n : Nat) : (ofNat width n).length = width := by
  induction width generalizing n with
  | zero => rfl
  | succ width ih => rw [ofNat, List.length_cons, ih]

theorem toNat_lt (bs : List UInt8) : toNat bs < 256 ^ bs.length := by
  induction bs with
  | nil => simp [toNat]
  | cons b bs ih =>
    have hb := b.toNat_lt
    rw [toNat, List.length_cons, pow_succ]
    omega

theorem toNat_ofNat {width n : Nat} (h : n < 256 ^ width) : toNat (ofNat width n) = n := by
  induction width generalizing n with
  | zero => simp_all [ofNat, toNat]
  | succ width ih =>
    have hdiv : n / 256 < 256 ^ width := by
      rw [pow_succ] at h
      omega
    have hbyte : (UInt8.ofNat n).toNat = n % 256 := by simp
    rw [ofNat, toNat, ih hdiv, hbyte]
    omega

theorem ofNat_toNat (bs : List UInt8) : ofNat bs.length (toNat bs) = bs := by
  induction bs with
  | nil => rfl
  | cons b bs ih =>
    have hb := b.toNat_lt
    have hdiv : (b.toNat + 256 * toNat bs) / 256 = toNat bs := by omega
    have hbyte : UInt8.ofNat (b.toNat + 256 * toNat bs) = b := by
      apply UInt8.toNat_inj.1
      simp
    rw [List.length_cons, toNat, ofNat, hdiv, ih, hbyte]

theorem take_eq_some {count : Nat} {taken : List UInt8} :
    take count bs = some (taken, rest) ↔ taken.length = count ∧ bs = taken ++ rest := by
  unfold take
  constructor
  · intro h
    split at h
    · cases h
      simp
      omega
    · cases h
  · rintro ⟨rfl, rfl⟩
    simp

theorem nat_eq_some {width n : Nat} :
    nat width bs = some (n, rest) ↔ n < 256 ^ width ∧ bs = ofNat width n ++ rest := by
  simp only [nat, Option.bind_eq_bind, Option.bind_eq_some_iff, Prod.exists, take_eq_some, Option.some.injEq,
    Prod.mk.injEq]
  constructor
  · rintro ⟨taken, _, ⟨rfl, rfl⟩, rfl, rfl⟩
    exact ⟨toNat_lt taken, by rw [ofNat_toNat]⟩
  · rintro ⟨hn, rfl⟩
    exact ⟨ofNat width n, rest, ⟨length_ofNat width n, rfl⟩, toNat_ofNat hn, rfl⟩

theorem bool_eq_some {b : Bool} : bool bs = some (b, rest) ↔ bs = ofBool b ++ rest := by
  unfold bool
  split
  · cases b <;> simp [ofBool]
  · cases b <;> simp [ofBool]
  · rename_i h₀ h₁
    simp only [reduceCtorEq, false_iff]
    rintro rfl
    cases b
    · exact h₀ rest rfl
    · exact h₁ rest rfl

theorem toList_eq (b : ByteArray) : b.toList = b.data.toList := by
  have hloop : ∀ (i : Nat) (r : List UInt8), ByteArray.toList.loop b i r = r.reverse ++ b.data.toList.drop i := by
    intro i r
    fun_induction ByteArray.toList.loop b i r with
    | case1 i r hi ih =>
      have hi' : i < b.data.toList.length := by simpa using hi
      have hget : b.get! i = b.data.toList[i] := getElem!_pos b.data i hi
      rw [ih, List.drop_eq_getElem_cons hi', hget]
      simp
    | case2 i r hi =>
      have hi' : b.data.toList.length ≤ i := by simpa using hi
      rw [List.drop_eq_nil_of_le hi', List.append_nil]
  rw [ByteArray.toList, hloop]
  simp

theorem fromUTF8?_eq_some {taken : List UInt8} {s : String} :
    String.fromUTF8? ⟨taken.toArray⟩ = some s ↔ taken = s.toUTF8.toList := by
  rw [toList_eq]
  unfold String.fromUTF8?
  constructor
  · intro h
    split at h
    · cases h
      rfl
    · cases h
  · rintro rfl
    have hvalid : (⟨s.toUTF8.data.toList.toArray⟩ : ByteArray).IsValidUTF8 := s.isValidUTF8
    rw [dif_pos hvalid]
    rfl

theorem length_toUTF8 (s : String) : s.toUTF8.toList.length = s.utf8ByteSize := by
  rw [toList_eq]
  rfl

theorem text_eq_some {s : String} :
    text bs = some (s, rest) ↔ s.utf8ByteSize < 256 ^ 8 ∧ bs = ofText s ++ rest := by
  simp only [text, Option.bind_eq_bind, Option.bind_eq_some_iff, Prod.exists, nat_eq_some, take_eq_some,
    Option.some.injEq, Prod.mk.injEq, fromUTF8?_eq_some, ofText]
  constructor
  · rintro ⟨_, _, ⟨hn, rfl⟩, _, _, ⟨rfl, rfl⟩, _, rfl, rfl, rfl⟩
    rw [length_toUTF8] at hn ⊢
    exact ⟨hn, (List.append_assoc _ _ _).symm⟩
  · rintro ⟨hn, rfl⟩
    exact ⟨s.utf8ByteSize, _, ⟨hn, List.append_assoc _ _ _⟩, _, rest, ⟨length_toUTF8 s, rfl⟩, s, rfl, rfl, rfl⟩

def Sound (read : Reader α) (write : α → List UInt8) (valid : α → Prop) : Prop :=
  ∀ ⦃bs a rest⦄, read bs = some (a, rest) → valid a → bs = write a ++ rest

def Complete (read : Reader α) (write : α → List UInt8) (valid : α → Prop) : Prop :=
  ∀ a rest, valid a → (write a ++ rest).length < 256 ^ 8 → read (write a ++ rest) = some (a, rest)

def Local (read read' : Reader α) : Prop :=
  ∀ ⦃bs a rest⦄ more, read bs = some (a, rest) → read' (bs ++ more) = some (a, rest ++ more)

theorem nat_local (width : Nat) : Local (nat width) (nat width) := by
  intro bs n rest more h
  obtain ⟨hn, rfl⟩ := nat_eq_some.1 h
  exact nat_eq_some.2 ⟨hn, List.append_assoc _ _ _⟩

theorem bool_local : Local bool bool := by
  intro bs b rest more h
  obtain rfl := bool_eq_some.1 h
  exact bool_eq_some.2 (List.append_assoc _ _ _)

theorem text_local : Local text text := by
  intro bs s rest more h
  obtain ⟨hs, rfl⟩ := text_eq_some.1 h
  exact text_eq_some.2 ⟨hs, List.append_assoc _ _ _⟩

theorem text_sound : Sound text ofText (fun _ => True) :=
  fun _ _ _ h _ => (text_eq_some.1 h).2

theorem text_complete : Complete text ofText (fun _ => True) := by
  intro s rest _ hlength
  simp only [ofText, List.length_append, length_ofNat, length_toUTF8] at hlength
  exact text_eq_some.2 ⟨by omega, rfl⟩

variable {read read' : Reader α} {write : α → List UInt8} {valid : α → Prop}

def ofOption (write : α → List UInt8) : Option α → List UInt8
  | none => ofBool false
  | some a => ofBool true ++ write a

theorem option_local (h : Local read read') : Local (option read) (option read') := by
  intro bs value rest more hread
  simp only [option, Option.bind_eq_bind, Option.bind_eq_some_iff, Prod.exists] at hread
  obtain ⟨present, mid, hpresent, hread⟩ := hread
  simp only [option, bool_local more hpresent, Option.bind_eq_bind, Option.bind_some]
  cases present with
  | false =>
    cases hread
    rfl
  | true =>
    simp only [if_true, Option.bind_eq_some_iff, Prod.exists] at hread
    obtain ⟨a, _, ha, ⟨⟩⟩ := hread
    simp only [if_true, h more ha, Option.bind_some]

theorem option_sound (h : Sound read write valid) :
    Sound (option read) (ofOption write) (fun value => ∀ a ∈ value, valid a) := by
  intro bs value rest hread hvalid
  simp only [option, Option.bind_eq_bind, Option.bind_eq_some_iff, Prod.exists] at hread
  obtain ⟨present, mid, hpresent, hread⟩ := hread
  obtain rfl := bool_eq_some.1 hpresent
  cases present with
  | false =>
    cases hread
    rfl
  | true =>
    simp only [if_true, Option.bind_eq_some_iff, Prod.exists] at hread
    obtain ⟨a, _, ha, ⟨⟩⟩ := hread
    rw [h ha (hvalid a rfl), ofOption, List.append_assoc]

theorem option_complete (h : Complete read write valid) :
    Complete (option read) (ofOption write) (fun value => ∀ a ∈ value, valid a) := by
  intro value rest hvalid hlength
  cases value with
  | none => rfl
  | some a =>
    simp only [ofOption, List.append_assoc, List.length_append] at hlength ⊢
    have ha := h a rest (hvalid a rfl) (by simp only [List.length_append]; omega)
    simp only [option, bool_eq_some.2 rfl, ha, Option.bind_eq_bind, Option.bind_some, if_true]

theorem many_local (h : Local read read') (count : Nat) : Local (many read count) (many read' count) := by
  induction count with
  | zero =>
    rintro bs as rest more ⟨⟩
    rfl
  | succ count ih =>
    intro bs as rest more hread
    simp only [many, Option.bind_eq_bind, Option.bind_eq_some_iff, Prod.exists, Option.some.injEq,
      Prod.mk.injEq] at hread
    obtain ⟨a, mid, ha, as, _, has, rfl, rfl⟩ := hread
    simp only [many, h more ha, ih more has, Option.bind_eq_bind, Option.bind_some]

theorem many_sound (h : Sound read write valid) {count : Nat} {as : List α}
    (hread : many read count bs = some (as, rest)) (hvalid : ∀ a ∈ as, valid a) :
    as.length = count ∧ bs = as.flatMap write ++ rest := by
  induction count generalizing bs as with
  | zero =>
    cases hread
    simp
  | succ count ih =>
    simp only [many, Option.bind_eq_bind, Option.bind_eq_some_iff, Prod.exists, Option.some.injEq,
      Prod.mk.injEq] at hread
    obtain ⟨a, mid, ha, as, _, has, rfl, rfl⟩ := hread
    obtain ⟨hlength, rfl⟩ := ih has (fun a ha => hvalid a (List.mem_cons_of_mem _ ha))
    have hfirst := h ha (hvalid a List.mem_cons_self)
    simp [hlength, hfirst]

theorem many_complete (h : Complete read write valid) {as : List α} (rest : List UInt8)
    (hvalid : ∀ a ∈ as, valid a) (hlength : (as.flatMap write ++ rest).length < 256 ^ 8) :
    many read as.length (as.flatMap write ++ rest) = some (as, rest) := by
  induction as with
  | nil => rfl
  | cons a as ih =>
    simp only [List.flatMap_cons, List.append_assoc] at hlength ⊢
    have hfirst := h a (as.flatMap write ++ rest) (hvalid a List.mem_cons_self) hlength
    have hrest := ih (fun a ha => hvalid a (List.mem_cons_of_mem _ ha)) (by simp at hlength ⊢; omega)
    simp only [List.length_cons, many, hfirst, hrest, Option.bind_eq_bind, Option.bind_some]

theorem sequence_local (h : Local read read') : Local (sequence read) (sequence read') := by
  intro bs as rest more hread
  simp only [sequence, Option.bind_eq_bind, Option.bind_eq_some_iff, Prod.exists] at hread
  obtain ⟨count, mid, hcount, has⟩ := hread
  simp only [sequence, nat_local 8 more hcount, many_local h count more has, Option.bind_eq_bind,
    Option.bind_some]

def ofList (write : α → List UInt8) (as : List α) : List UInt8 :=
  ofNat 8 as.length ++ as.flatMap write

theorem length_le_length_ofList {write : α → List UInt8} {a : α} {as : List α} (h : a ∈ as) :
    (write a).length ≤ (ofList write as).length := by
  have hsum : (write a).length ≤ (as.flatMap write).length := by
    rw [List.length_flatMap]
    exact List.single_le_sum (fun _ _ => Nat.zero_le _) _ (List.mem_map_of_mem h)
  rw [ofList, List.length_append]
  omega

theorem sequence_sound (h : Sound read write valid) :
    Sound (sequence read) (ofList write) (fun as => ∀ a ∈ as, valid a) := by
  intro bs as rest hread hvalid
  simp only [sequence, Option.bind_eq_bind, Option.bind_eq_some_iff, Prod.exists] at hread
  obtain ⟨count, mid, hcount, has⟩ := hread
  obtain ⟨-, rfl⟩ := nat_eq_some.1 hcount
  obtain ⟨rfl, rfl⟩ := many_sound h has hvalid
  rw [ofList, List.append_assoc]

theorem sequence_complete (h : Complete read write valid) (hpos : ∀ a, 0 < (write a).length) :
    Complete (sequence read) (ofList write) (fun as => ∀ a ∈ as, valid a) := by
  intro as rest hvalid hlength
  have hcount : as.length ≤ (as.flatMap write).length := by
    clear hvalid hlength
    induction as with
    | nil => simp
    | cons a as ih =>
      have ha := hpos a
      simp only [List.length_cons, List.flatMap_cons, List.length_append]
      omega
  simp only [ofList, List.append_assoc, List.length_append, length_ofNat] at hlength ⊢
  have hnat := nat_eq_some.2 ⟨(by omega : as.length < 256 ^ 8),
    (rfl : ofNat 8 as.length ++ (as.flatMap write ++ rest) = _)⟩
  have hmany := many_complete h rest hvalid (by simp only [List.length_append]; omega)
  simp only [sequence, hnat, hmany, Option.bind_eq_bind, Option.bind_some]

end GraphQuery.Bytes
