import GraphQuery.Error
import GraphQuery.Proofs.Bytes
import GraphQuery.Proofs.Decimal.Patterns
import GraphQuery.Proofs.Script.Validity
import GraphQuery.Script.BinaryForm

namespace GraphQuery

open Bytes

variable {bs rest : List UInt8} {depth depth' : Nat}

namespace Literal

theorem read_local : Local read read := by
  intro bs value rest more h
  simp only [read, Option.bind_eq_bind, Option.bind_eq_some_iff, Prod.exists] at h
  obtain ⟨tag, bs', htag, h⟩ := h
  simp only [read, nat_local 4 more htag, Option.bind_eq_bind, Option.bind_some]
  split at h
  · cases h
    rfl
  · simp only [Option.bind_eq_some_iff, Prod.exists] at h
    obtain ⟨b, _, hb, ⟨⟩⟩ := h
    simp only [bool_local more hb, Option.bind_some]
  · simp only [Option.bind_eq_some_iff, Prod.exists] at h
    obtain ⟨n, _, hn, ⟨⟩⟩ := h
    simp only [nat_local 8 more hn, Option.bind_some]
  · simp only [Option.bind_eq_some_iff, Prod.exists] at h
    obtain ⟨n, _, hn, ⟨⟩⟩ := h
    simp only [nat_local 8 more hn, Option.bind_some]
  · simp only [Option.bind_eq_some_iff, Prod.exists] at h
    obtain ⟨s, _, hs, ⟨⟩⟩ := h
    simp only [text_local more hs, Option.bind_some]
  · cases h

theorem read_sound : Sound read toBytes (fun value => (Term.literal value).check = .ok ()) := by
  intro bs value rest h hcheck
  simp only [read, Option.bind_eq_bind, Option.bind_eq_some_iff, Prod.exists] at h
  obtain ⟨tag, bs', htag, h⟩ := h
  obtain ⟨-, rfl⟩ := nat_eq_some.1 htag
  split at h
  · cases h
    rfl
  · simp only [Option.bind_eq_some_iff, Prod.exists] at h
    obtain ⟨b, _, hb, ⟨⟩⟩ := h
    rw [bool_eq_some.1 hb, toBytes, List.append_assoc]
  · simp only [Option.bind_eq_some_iff, Prod.exists] at h
    obtain ⟨n, _, hn, ⟨⟩⟩ := h
    obtain ⟨hlt, rfl⟩ := nat_eq_some.1 hn
    have hword : (UInt64.ofNat n).toNat = n := Nat.mod_eq_of_lt hlt
    rw [toBytes, UInt64.toUInt64_toInt64, hword, List.append_assoc]
  · simp only [Option.bind_eq_some_iff, Prod.exists] at h
    obtain ⟨n, _, hn, ⟨⟩⟩ := h
    obtain ⟨hlt, rfl⟩ := nat_eq_some.1 hn
    have hword : (UInt64.ofNat n).toNat = n := Nat.mod_eq_of_lt hlt
    have hfinite : (Float.ofBits (UInt64.ofNat n)).isFinite = true := by
      by_contra hnot
      simp [Term.check, hnot] at hcheck
    rw [toBytes, Decimal.toBits_ofBits_of_isFinite hfinite, hword, List.append_assoc]
  · simp only [Option.bind_eq_some_iff, Prod.exists] at h
    obtain ⟨s, _, hs, ⟨⟩⟩ := h
    rw [(text_eq_some.1 hs).2, toBytes, List.append_assoc]
  · cases h

theorem read_complete : Complete read toBytes (fun _ => True) := by
  intro value rest _ hlength
  have htag : ∀ (tag : Nat) (more : List UInt8), tag < 5 → nat 4 (ofNat 4 tag ++ more) = some (tag, more) :=
    fun tag more h => nat_eq_some.2 ⟨by omega, rfl⟩
  cases value with
  | null =>
    simp only [read, toBytes, htag 0 rest (by decide), Option.bind_eq_bind, Option.bind_some]
  | boolean b =>
    simp only [read, toBytes, List.append_assoc, htag 1 _ (by decide), bool_eq_some.2 rfl, Option.bind_eq_bind,
      Option.bind_some]
  | integer n =>
    have hn := nat_eq_some.2 ⟨n.toUInt64.toNat_lt, (rfl : ofNat 8 n.toUInt64.toNat ++ rest = _)⟩
    simp only [read, toBytes, List.append_assoc, htag 2 _ (by decide), hn, Option.bind_eq_bind,
      Option.bind_some, UInt64.ofNat_toNat, Int64.toInt64_toUInt64]
  | real x =>
    have hx := nat_eq_some.2 ⟨x.toBits.toNat_lt, (rfl : ofNat 8 x.toBits.toNat ++ rest = _)⟩
    simp only [read, toBytes, List.append_assoc, htag 3 _ (by decide), hx, Option.bind_eq_bind,
      Option.bind_some, UInt64.ofNat_toNat, Float.ofBits_toBits]
  | string s =>
    have hs : s.utf8ByteSize < 256 ^ 8 := by
      simp only [toBytes, ofText, List.length_append, length_ofNat, length_toUTF8] at hlength
      omega
    simp only [read, toBytes, List.append_assoc, htag 4 _ (by decide), text_eq_some.2 ⟨hs, rfl⟩,
      Option.bind_eq_bind, Option.bind_some]

end Literal

theorem place_eq_some {β : Type} [DecidableEq β] {all : List β} {b : β} (hnodup : all.Nodup)
    (hlength : all.length < 256 ^ 4) (hb : b ∈ all) :
    (do
      let (tag, bs) ← nat 4 bs
      let b ← all[tag]?
      some (b, bs)) = some (b, rest) ↔ bs = ofNat 4 (all.idxOf b) ++ rest := by
  simp only [Option.bind_eq_bind, Option.bind_eq_some_iff, Prod.exists, nat_eq_some, Option.some.injEq,
    Prod.mk.injEq]
  constructor
  · rintro ⟨tag, _, ⟨-, rfl⟩, b, hget, rfl, rfl⟩
    obtain ⟨htag, rfl⟩ := List.getElem?_eq_some_iff.1 hget
    rw [hnodup.idxOf_getElem]
  · rintro rfl
    have hplace := List.idxOf_lt_length_iff.2 hb
    refine ⟨all.idxOf b, rest, ⟨hplace.trans hlength, rfl⟩, b, ?_, rfl, rfl⟩
    rw [List.getElem?_eq_getElem hplace, List.getElem_idxOf hplace]

namespace Term

theorem BinaryOp.read_eq_some {op : BinaryOp} :
    BinaryOp.read bs = some (op, rest) ↔ bs = op.toBytes ++ rest :=
  place_eq_some (by decide) (by decide) (by cases op <;> decide)

theorem UnaryOp.read_eq_some {op : UnaryOp} :
    UnaryOp.read bs = some (op, rest) ↔ bs = op.toBytes ++ rest :=
  place_eq_some (by decide) (by decide) (by cases op <;> decide)

theorem toBytesAll_eq (ts : List Term) : toBytesAll ts = ts.flatMap toBytes := by
  induction ts with
  | nil => rfl
  | cons t ts ih => rw [toBytesAll, ih, List.flatMap_cons]

theorem four_le_length_toBytes (t : Term) : 4 ≤ t.toBytes.length := by
  cases t <;> simp only [toBytes, List.length_append, length_ofNat] <;> omega

theorem read_local (h : depth ≤ depth') : Local (read depth) (read depth') := by
  induction depth generalizing depth' with
  | zero =>
    intro bs t rest more hread
    cases hread
  | succ depth ih =>
    obtain ⟨depth', rfl⟩ : ∃ n, depth' = n + 1 := ⟨depth' - 1, by omega⟩
    have ih := ih (Nat.le_of_succ_le_succ h)
    intro bs t rest more hread
    simp only [read, Option.bind_eq_bind, Option.bind_eq_some_iff, Prod.exists] at hread
    obtain ⟨tag, bs', htag, hread⟩ := hread
    simp only [read, nat_local 4 more htag, Option.bind_eq_bind, Option.bind_some]
    split at hread
    · simp only [Option.bind_eq_some_iff, Prod.exists] at hread
      obtain ⟨value, _, hvalue, ⟨⟩⟩ := hread
      simp only [Literal.read_local more hvalue, Option.bind_some]
    · simp only [Option.bind_eq_some_iff, Prod.exists] at hread
      obtain ⟨name, _, hname, ⟨⟩⟩ := hread
      simp only [text_local more hname, Option.bind_some]
    · simp only [Option.bind_eq_some_iff, Prod.exists] at hread
      obtain ⟨target, _, htarget, name, _, hname, ⟨⟩⟩ := hread
      simp only [ih more htarget, text_local more hname, Option.bind_some]
    · simp only [Option.bind_eq_some_iff, Prod.exists] at hread
      obtain ⟨items, _, hitems, ⟨⟩⟩ := hread
      simp only [sequence_local ih more hitems, Option.bind_some]
    · simp only [Option.bind_eq_some_iff, Prod.exists] at hread
      obtain ⟨op, _, hop, operand, _, hoperand, ⟨⟩⟩ := hread
      obtain rfl := UnaryOp.read_eq_some.1 hop
      simp only [UnaryOp.read_eq_some.2 (List.append_assoc _ _ more), ih more hoperand, Option.bind_some]
    · simp only [Option.bind_eq_some_iff, Prod.exists] at hread
      obtain ⟨op, _, hop, left, _, hleft, right, _, hright, ⟨⟩⟩ := hread
      obtain rfl := BinaryOp.read_eq_some.1 hop
      simp only [BinaryOp.read_eq_some.2 (List.append_assoc _ _ more), ih more hleft, ih more hright,
        Option.bind_some]
    · cases hread

theorem read_sound (depth : Nat) : Sound (read depth) toBytes (fun t => t.check = .ok ()) := by
  induction depth with
  | zero =>
    intro bs t rest hread
    cases hread
  | succ depth ih =>
    intro bs t rest hread hcheck
    simp only [read, Option.bind_eq_bind, Option.bind_eq_some_iff, Prod.exists] at hread
    obtain ⟨tag, bs', htag, hread⟩ := hread
    obtain ⟨-, rfl⟩ := nat_eq_some.1 htag
    split at hread
    · simp only [Option.bind_eq_some_iff, Prod.exists] at hread
      obtain ⟨value, _, hvalue, ⟨⟩⟩ := hread
      rw [Literal.read_sound hvalue hcheck, toBytes, List.append_assoc]
    · simp only [Option.bind_eq_some_iff, Prod.exists] at hread
      obtain ⟨name, _, hname, ⟨⟩⟩ := hread
      rw [(text_eq_some.1 hname).2, toBytes, List.append_assoc]
    · simp only [Option.bind_eq_some_iff, Prod.exists] at hread
      obtain ⟨target, _, htarget, name, _, hname, ⟨⟩⟩ := hread
      obtain ⟨_, -, htarget'⟩ := bind_eq_ok.1 hcheck
      rw [ih htarget htarget', (text_eq_some.1 hname).2]
      simp only [toBytes, List.append_assoc]
    · simp only [Option.bind_eq_some_iff, Prod.exists] at hread
      obtain ⟨items, _, hitems, ⟨⟩⟩ := hread
      rw [sequence_sound ih hitems (checkAll_eq_ok.1 hcheck)]
      simp only [toBytes, toBytesAll_eq, ofList, List.append_assoc]
    · simp only [Option.bind_eq_some_iff, Prod.exists] at hread
      obtain ⟨op, _, hop, operand, _, hoperand, ⟨⟩⟩ := hread
      rw [UnaryOp.read_eq_some.1 hop, ih hoperand hcheck]
      simp only [toBytes, List.append_assoc]
    · simp only [Option.bind_eq_some_iff, Prod.exists] at hread
      obtain ⟨op, _, hop, left, _, hleft, right, _, hright, ⟨⟩⟩ := hread
      obtain ⟨_, hleft', hright'⟩ := bind_eq_ok.1 hcheck
      rw [BinaryOp.read_eq_some.1 hop, ih hleft hleft', ih hright hright']
      simp only [toBytes, List.append_assoc]
    · cases hread

theorem toBytes_list (items : List Term) : (list items).toBytes = ofNat 4 3 ++ ofList toBytes items := by
  rw [toBytes, toBytesAll_eq, ofList, List.append_assoc]

theorem read_complete (depth : Nat) :
    Complete (read depth) toBytes (fun t => t.toBytes.length ≤ depth) := by
  -- every level of nesting takes four bytes, so that as many levels as there are bytes are enough
  induction depth with
  | zero =>
    intro t rest hdepth
    have hlength := four_le_length_toBytes t
    omega
  | succ depth ih =>
    intro t rest hdepth hlength
    have htag : ∀ (tag : Nat) (more : List UInt8), tag < 6 → nat 4 (ofNat 4 tag ++ more) = some (tag, more) :=
      fun tag more h => nat_eq_some.2 ⟨by omega, rfl⟩
    cases t with
    | literal value =>
      simp only [toBytes, List.append_assoc, List.length_append, length_ofNat] at hdepth hlength
      have hvalue := Literal.read_complete value rest trivial (by simp only [List.length_append]; omega)
      simp only [read, toBytes, List.append_assoc, htag 0 _ (by decide), hvalue, Option.bind_eq_bind,
        Option.bind_some]
    | var name =>
      simp only [toBytes, List.append_assoc, List.length_append, length_ofNat] at hdepth hlength
      have hname := text_complete name rest trivial (by simp only [List.length_append]; omega)
      simp only [read, toBytes, List.append_assoc, htag 1 _ (by decide), hname, Option.bind_eq_bind,
        Option.bind_some]
    | property target name =>
      simp only [toBytes, List.append_assoc, List.length_append, length_ofNat] at hdepth hlength
      have htarget := ih target (ofText name ++ rest) (by omega) (by simp only [List.length_append]; omega)
      have hname := text_complete name rest trivial (by simp only [List.length_append]; omega)
      simp only [read, toBytes, List.append_assoc, htag 2 _ (by decide), htarget, hname,
        Option.bind_eq_bind, Option.bind_some]
    | list items =>
      rw [toBytes_list] at hdepth hlength ⊢
      simp only [List.append_assoc, List.length_append, length_ofNat] at hdepth hlength
      have hdepths : ∀ t ∈ items, t.toBytes.length ≤ depth := by
        intro t ht
        have hle : t.toBytes.length ≤ (ofList toBytes items).length := length_le_length_ofList ht
        omega
      have hitems := sequence_complete ih (fun t => by have := four_le_length_toBytes t; omega) items rest hdepths
        (by simp only [List.length_append]; omega)
      simp only [read, List.append_assoc, htag 3 _ (by decide), hitems, Option.bind_eq_bind, Option.bind_some]
    | unary op operand =>
      simp only [toBytes, List.append_assoc, List.length_append, length_ofNat] at hdepth hlength
      have hop := UnaryOp.read_eq_some.2 (rfl : op.toBytes ++ (operand.toBytes ++ rest) = _)
      have hoperand := ih operand rest (by omega) (by simp only [List.length_append]; omega)
      simp only [read, toBytes, List.append_assoc, htag 4 _ (by decide), hop, hoperand, Option.bind_eq_bind,
        Option.bind_some]
    | binary op left right =>
      simp only [toBytes, List.append_assoc, List.length_append, length_ofNat] at hdepth hlength
      have hop := BinaryOp.read_eq_some.2 (rfl : op.toBytes ++ (left.toBytes ++ (right.toBytes ++ rest)) = _)
      have hleft := ih left (right.toBytes ++ rest) (by omega) (by simp only [List.length_append]; omega)
      have hright := ih right rest (by omega) (by simp only [List.length_append]; omega)
      simp only [read, toBytes, List.append_assoc, htag 5 _ (by decide), hop, hleft, hright,
        Option.bind_eq_bind, Option.bind_some]

end Term

namespace Instruction

theorem toBytesAll_eq (is : List Instruction) : toBytesAll is = is.flatMap toBytes := by
  induction is with
  | nil => rfl
  | cons i is ih => rw [toBytesAll, ih, List.flatMap_cons]

theorem toBytes_step (name : String) (arguments : List Term) :
    (step name arguments).toBytes = ofNat 4 0 ++ (ofText name ++ ofList Term.toBytes arguments) := by
  simp only [toBytes, Term.toBytesAll_eq, ofList, List.append_assoc]

theorem toBytes_closure (name : String) (parameter : Option String) (body : List Instruction) :
    (closure name parameter body).toBytes =
      ofNat 4 1 ++ (ofText name ++ (ofOption ofText parameter ++ ofList toBytes body)) := by
  cases parameter <;> simp only [toBytes, toBytesAll_eq, ofList, ofOption, List.append_assoc]

theorem four_le_length_toBytes (i : Instruction) : 4 ≤ i.toBytes.length := by
  cases i <;> simp only [toBytes, List.length_append, length_ofNat] <;> omega

theorem read_local (h : depth ≤ depth') : Local (read depth) (read depth') := by
  induction depth generalizing depth' with
  | zero =>
    intro bs i rest more hread
    cases hread
  | succ depth ih =>
    obtain ⟨depth', rfl⟩ : ∃ n, depth' = n + 1 := ⟨depth' - 1, by omega⟩
    have hdepth := Nat.le_of_succ_le_succ h
    intro bs i rest more hread
    simp only [read, Option.bind_eq_bind, Option.bind_eq_some_iff, Prod.exists] at hread
    obtain ⟨tag, bs', htag, hread⟩ := hread
    simp only [read, nat_local 4 more htag, Option.bind_eq_bind, Option.bind_some]
    split at hread
    · simp only [Option.bind_eq_some_iff, Prod.exists] at hread
      obtain ⟨name, _, hname, arguments, _, harguments, ⟨⟩⟩ := hread
      simp only [text_local more hname, sequence_local (Term.read_local hdepth) more harguments,
        Option.bind_some]
    · simp only [Option.bind_eq_some_iff, Prod.exists] at hread
      obtain ⟨name, _, hname, parameter, _, hparameter, body, _, hbody, ⟨⟩⟩ := hread
      simp only [text_local more hname, option_local text_local more hparameter,
        sequence_local (ih hdepth) more hbody, Option.bind_some]
    · simp only [Option.bind_eq_some_iff, Prod.exists] at hread
      obtain ⟨t, _, ht, ⟨⟩⟩ := hread
      simp only [Term.read_local hdepth more ht, Option.bind_some]
    · cases hread

theorem read_sound (depth : Nat) : Sound (read depth) toBytes (fun i => i.check = .ok ()) := by
  induction depth with
  | zero =>
    intro bs i rest hread
    cases hread
  | succ depth ih =>
    intro bs i rest hread hcheck
    simp only [read, Option.bind_eq_bind, Option.bind_eq_some_iff, Prod.exists] at hread
    obtain ⟨tag, bs', htag, hread⟩ := hread
    obtain ⟨-, rfl⟩ := nat_eq_some.1 htag
    split at hread
    · simp only [Option.bind_eq_some_iff, Prod.exists] at hread
      obtain ⟨name, _, hname, arguments, _, harguments, ⟨⟩⟩ := hread
      obtain ⟨_, -, hchecks⟩ := bind_eq_ok.1 hcheck
      rw [(text_eq_some.1 hname).2,
        sequence_sound (Term.read_sound depth) harguments (Term.checkAll_eq_ok.1 hchecks)]
      simp only [toBytes_step, List.append_assoc]
    · simp only [Option.bind_eq_some_iff, Prod.exists] at hread
      obtain ⟨name, _, hname, parameter, _, hparameter, body, _, hbody, ⟨⟩⟩ := hread
      rw [(text_eq_some.1 hname).2, option_sound text_sound hparameter (fun _ _ => trivial),
        sequence_sound ih hbody (checkAll_eq_ok.1 (check_closure hcheck).2)]
      simp only [toBytes_closure, List.append_assoc]
    · simp only [Option.bind_eq_some_iff, Prod.exists] at hread
      obtain ⟨t, _, ht, ⟨⟩⟩ := hread
      rw [Term.read_sound depth ht hcheck, toBytes, List.append_assoc]
    · cases hread

theorem read_complete (depth : Nat) :
    Complete (read depth) toBytes (fun i => i.toBytes.length ≤ depth) := by
  induction depth with
  | zero =>
    intro i rest hdepth
    have hlength := four_le_length_toBytes i
    omega
  | succ depth ih =>
    intro i rest hdepth hlength
    have htag : ∀ (tag : Nat) (more : List UInt8), tag < 3 → nat 4 (ofNat 4 tag ++ more) = some (tag, more) :=
      fun tag more h => nat_eq_some.2 ⟨by omega, rfl⟩
    cases i with
    | step name arguments =>
      rw [toBytes_step] at hdepth hlength ⊢
      simp only [List.append_assoc, List.length_append, length_ofNat] at hdepth hlength
      have hname := text_complete name (ofList Term.toBytes arguments ++ rest) trivial
        (by simp only [List.length_append]; omega)
      have hdepths : ∀ t ∈ arguments, t.toBytes.length ≤ depth := by
        intro t ht
        have hle : t.toBytes.length ≤ (ofList Term.toBytes arguments).length := length_le_length_ofList ht
        omega
      have harguments := sequence_complete (Term.read_complete depth)
        (fun t => by have := t.four_le_length_toBytes; omega) arguments rest hdepths
        (by simp only [List.length_append]; omega)
      simp only [read, List.append_assoc, htag 0 _ (by decide), hname, harguments, Option.bind_eq_bind,
        Option.bind_some]
    | closure name parameter body =>
      rw [toBytes_closure] at hdepth hlength ⊢
      simp only [List.append_assoc, List.length_append, length_ofNat] at hdepth hlength
      have hname := text_complete name (ofOption ofText parameter ++ (ofList toBytes body ++ rest)) trivial
        (by simp only [List.length_append]; omega)
      have hparameter := option_complete text_complete parameter (ofList toBytes body ++ rest)
        (fun _ _ => trivial) (by simp only [List.length_append]; omega)
      have hdepths : ∀ i ∈ body, i.toBytes.length ≤ depth := by
        intro i hi
        have hle : i.toBytes.length ≤ (ofList toBytes body).length := length_le_length_ofList hi
        omega
      have hbody := sequence_complete ih (fun i => by have := i.four_le_length_toBytes; omega) body rest
        hdepths (by simp only [List.length_append]; omega)
      simp only [read, List.append_assoc, htag 1 _ (by decide), hname, hparameter, hbody, Option.bind_eq_bind,
        Option.bind_some]
    | statement t =>
      simp only [toBytes, List.append_assoc, List.length_append, length_ofNat] at hdepth hlength
      have ht := Term.read_complete depth t rest (by omega) (by simp only [List.length_append]; omega)
      simp only [read, toBytes, List.append_assoc, htag 2 _ (by decide), ht, Option.bind_eq_bind,
        Option.bind_some]

end Instruction

namespace Script

theorem toBytes_eq (s : Script) : s.toBytes = ofList Instruction.toBytes s.instructions := by
  rw [toBytes, Instruction.toBytesAll_eq, ofList]

theorem read?_eq_some {s : Script} :
    read? bs = some s ↔ ∃ rest, sequence (Instruction.read bs.length) bs = some (s.instructions, rest) := by
  simp only [read?, Option.bind_eq_bind, Option.bind_eq_some_iff, Prod.exists, Option.some.injEq]
  constructor
  · rintro ⟨_, rest, hread, rfl⟩
    exact ⟨rest, hread⟩
  · rintro ⟨rest, hread⟩
    exact ⟨s.instructions, rest, hread, rfl⟩

theorem isPrefix_of_read? {s : Script} (h : read? bs = some s) (hs : s.validate = .ok ()) : s.toBytes <+: bs := by
  obtain ⟨rest, hread⟩ := read?_eq_some.1 h
  rw [toBytes_eq]
  exact ⟨rest, (sequence_sound (Instruction.read_sound _) hread (Instruction.checkAll_eq_ok.1 hs)).symm⟩

theorem sequence_read_toBytes (s : Script) (rest : List UInt8) (h : (s.toBytes ++ rest).length < 256 ^ 8) :
    sequence (Instruction.read (s.toBytes ++ rest).length) (s.toBytes ++ rest) = some (s.instructions, rest) := by
  have hdepths : ∀ i ∈ s.instructions, i.toBytes.length ≤ (s.toBytes ++ rest).length := by
    intro i hi
    have hle : i.toBytes.length ≤ (ofList Instruction.toBytes s.instructions).length :=
      length_le_length_ofList hi
    rw [List.length_append, toBytes_eq]
    omega
  rw [toBytes_eq] at h hdepths ⊢
  exact sequence_complete (Instruction.read_complete _)
    (fun i => by have := i.four_le_length_toBytes; omega) s.instructions rest hdepths h

theorem read?_of_isPrefix {s : Script} (h : s.toBytes <+: bs) (hbs : bs.length < 256 ^ 8) :
    read? bs = some s := by
  obtain ⟨rest, rfl⟩ := h
  exact read?_eq_some.2 ⟨rest, s.sequence_read_toBytes rest hbs⟩

theorem read?_truncated {s : Script} {more : List UInt8} (h : bs ++ more = s.toBytes) (hmore : more ≠ [])
    (hs : s.toBytes.length < 256 ^ 8) : read? bs = none := by
  rw [Option.eq_none_iff_forall_ne_some]
  intro s' hread
  obtain ⟨rest, hread⟩ := read?_eq_some.1 hread
  have hlength : bs.length ≤ (s.toBytes ++ []).length := by simp [← h]
  -- what is read from some bytes is read from all longer ones, and the rest is longer by as much
  have hlonger := sequence_local (Instruction.read_local hlength) more hread
  have hwhole := s.sequence_read_toBytes [] (by simpa using hs)
  rw [h] at hlonger
  rw [List.append_nil] at hlonger hwhole
  have hrest : rest ++ more = [] := by
    have := hlonger.symm.trans hwhole
    simp_all
  exact hmore (List.append_eq_nil_iff.1 hrest).2

theorem ofBytes_eq_ok {s : Script} :
    ofBytes bs = .ok s ↔ read? bs = some s ∧ s.validate = .ok () := by
  unfold ofBytes
  constructor
  · intro h
    split at h
    · cases h
    · rename_i hread
      split at h
      · rename_i hvalid
        cases h
        exact ⟨hread, hvalid⟩
      · cases h
  · rintro ⟨hread, hvalid⟩
    simp only [hread, hvalid]

def Addressable (bs : List UInt8) : Prop :=
  bs.length < 2 ^ 64

theorem ofBytes_eq_ok_iff {s : Script} (hbs : Addressable bs) :
    ofBytes bs = .ok s ↔ s.validate = .ok () ∧ s.toBytes <+: bs := by
  rw [ofBytes_eq_ok]
  constructor
  · rintro ⟨hread, hvalid⟩
    exact ⟨hvalid, isPrefix_of_read? hread hvalid⟩
  · rintro ⟨hvalid, hprefix⟩
    exact ⟨read?_of_isPrefix hprefix hbs, hvalid⟩

/-- Bytes are loaded as a script if and only if it is valid and its binary form begins them. So valid scripts
survive, no binary form begins another one, and a binary form that ends too soon is refused as malformed. -/
theorem binaryForm_exact :
    (∀ (bs : List UInt8) (s : Script), Addressable bs →
      (ofBytes bs = .ok s ↔ s.validate = .ok () ∧ s.toBytes <+: bs)) ∧
    (∀ s : Script, s.validate = .ok () → Addressable s.toBytes → ofBytes s.toBytes = .ok s) ∧
    (∀ s s' : Script, s.validate = .ok () → s'.validate = .ok () → Addressable s'.toBytes →
      s.toBytes <+: s'.toBytes → s = s') ∧
    ∀ (s : Script) (bs : List UInt8), Addressable s.toBytes → bs <+: s.toBytes → bs ≠ s.toBytes →
      ∃ e, ofBytes bs = .error e ∧ (Error.ofLoad e).category = .deserialization := by
  refine ⟨fun bs s => ofBytes_eq_ok_iff, ?_, ?_, ?_⟩
  · intro s hvalid hs
    exact (ofBytes_eq_ok_iff hs).2 ⟨hvalid, List.prefix_rfl⟩
  · intro s s' hvalid hvalid' hs' hprefix
    have hload := (ofBytes_eq_ok_iff hs').2 ⟨hvalid, hprefix⟩
    have hload' := (ofBytes_eq_ok_iff hs').2 ⟨hvalid', List.prefix_rfl⟩
    exact Except.ok.inj (hload.symm.trans hload')
  · rintro s bs hs ⟨more, hmore⟩ hne
    have hnone : read? bs = none := by
      apply read?_truncated hmore _ hs
      rintro rfl
      exact hne (by simpa using hmore)
    refine ⟨.malformed, ?_, rfl⟩
    rw [ofBytes, hnone]

def nestedSum : Script :=
  ⟨[.closure "transform" none
    [.statement (.binary .add (.unary .negate (.literal (.real (.ofBits 0x3ff8000000000000))))
      (.literal (.string "é")))]]⟩

theorem length_toBytes_nestedSum : nestedSum.toBytes.length = 92 := by
  simp only [nestedSum, toBytes, Instruction.toBytesAll, Instruction.toBytes, Term.toBytes, Literal.toBytes,
    Term.BinaryOp.toBytes, Term.UnaryOp.toBytes, ofText, ofBool, length_toUTF8, length_ofNat,
    List.length_append, List.length_cons, List.length_nil]
  rfl

theorem binaryForm_exact_nestedSum :
    nestedSum.validate = .ok () ∧ Addressable nestedSum.toBytes ∧
      ofBytes nestedSum.toBytes = .ok nestedSum ∧ ofBytes (nestedSum.toBytes ++ [7]) = .ok nestedSum ∧
      ∃ e, ofBytes nestedSum.toBytes.dropLast = .error e ∧ (Error.ofLoad e).category = .deserialization := by
  have hvalid : nestedSum.validate = .ok () := rfl
  have hlength := length_toBytes_nestedSum
  have hlonger : (nestedSum.toBytes ++ [7]).length = 93 := by rw [List.length_append, hlength]; rfl
  have hdrop : nestedSum.toBytes.dropLast.length = 91 := by rw [List.length_dropLast, hlength]
  have hs : Addressable nestedSum.toBytes := by unfold Addressable; omega
  have hs' : Addressable (nestedSum.toBytes ++ [7]) := by unfold Addressable; omega
  obtain ⟨hexact, hsurvives, -, htruncated⟩ := binaryForm_exact
  refine ⟨hvalid, hs, hsurvives _ hvalid hs, (hexact _ _ hs').2 ⟨hvalid, List.prefix_append _ _⟩, ?_⟩
  apply htruncated _ _ hs (List.dropLast_prefix _)
  intro heq
  rw [heq] at hdrop
  omega

end Script

end GraphQuery
