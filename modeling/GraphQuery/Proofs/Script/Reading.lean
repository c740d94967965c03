import GraphQuery.Proofs.Script.Lexemes

/-!
Reading scripts from their lexemes. What is not complete waits on a stack, and an operator first completes the operators
to its left that bind at least as strongly. The lexemes of a script are read as that script, but for the parameters of
its closures, which have no text.
-/

namespace GraphQuery

open Script (Lexeme Sign)

namespace Instruction

mutual
def withoutParameters : Instruction → Instruction
  | step name arguments => step name arguments
  | closure name _ body => closure name none (withoutParametersAll body)
  | statement term => statement term

def withoutParametersAll : List Instruction → List Instruction
  | [] => []
  | i :: is => i.withoutParameters :: withoutParametersAll is
end

mutual
theorem print_withoutParameters (options : PrintOptions) : (i : Instruction) →
    i.withoutParameters.print options = i.print options
  | step .. | statement _ => rfl
  | closure _ _ body => by simp only [withoutParameters, print, printBody_withoutParameters options body]

theorem printBody_withoutParameters (options : PrintOptions) : (is : List Instruction) →
    printBody options (withoutParametersAll is) = printBody options is
  | [] => rfl
  | i :: is => by
    simp only [withoutParametersAll, printBody, i.print_withoutParameters, printBody_withoutParameters options is]
end

end Instruction

namespace Script

def withoutParameters (s : Script) : Script :=
  ⟨Instruction.withoutParametersAll s.instructions⟩

theorem print_withoutParameters (options : PrintOptions) (s : Script) :
    s.withoutParameters.print options = s.print options := by
  obtain ⟨is⟩ := s
  change printLines options (Instruction.withoutParametersAll is) = printLines options is
  induction is with
  | nil => rfl
  | cons i is ih =>
    cases is with
    | nil => simp only [Instruction.withoutParametersAll, printLines, i.print_withoutParameters]
    | cons i' is =>
      simp only [Instruction.withoutParametersAll, printLines, i.print_withoutParameters] at ih ⊢
      rw [ih]

/-- What waits for a part that is not yet read: an operator for its operand, parentheses and brackets for their end,
a closure or the script for its next instruction. Items belong to a list or to the call of a step. -/
inductive Frame where
  | unary (op : Term.UnaryOp)
  | binary (op : Term.BinaryOp) (left : Term)
  | group
  | items (call : Option String) (done : List Term)
  | body (closure : Option String) (done : List Instruction)

inductive Focus where
  | nothing
  | term (t : Term)
  | instruction (i : Instruction)

structure Reader where
  frames : List Frame
  focus : Focus

namespace Reader

def reduce (p : Nat) : List Frame → Term → List Frame × Term
  | .unary op :: fs, t => reduce p fs (.unary op t)
  | .binary op left :: fs, t =>
    if p ≤ op.precedence then reduce p fs (.binary op left t) else (.binary op left :: fs, t)
  | fs, t => (fs, t)

def ofWord (name : String) : Term :=
  if name = "null" then .literal .null
  else if name = "true" then .literal (.boolean true)
  else if name = "false" then .literal (.boolean false)
  else .var name

def start : List Frame → Lexeme → Option Reader
  | fs, .word name => some ⟨fs, .term (ofWord name)⟩
  | fs, .constant value => some ⟨fs, .term (.literal value)⟩
  | fs, .call name => some ⟨.items (some name) [] :: fs, .nothing⟩
  | fs, .block name => some ⟨.body (some name) [] :: fs, .nothing⟩
  | fs, .sign (.unary op) => some ⟨.unary op :: fs, .nothing⟩
  | fs, .sign .opening => some ⟨.group :: fs, .nothing⟩
  | fs, .sign .listStart => some ⟨.items none [] :: fs, .nothing⟩
  | .items none [] :: fs, .sign .listEnd => some ⟨fs, .term (.list [])⟩
  | .items (some name) [] :: fs, .sign .closing => some ⟨fs, .instruction (.step name [])⟩
  | .body (some name) is :: fs, .sign .finish => some ⟨fs, .instruction (.closure name none is)⟩
  | _, _ => none

def conclude : List Frame → Instruction → Sign → Option Reader
  | .body closure is :: fs, i, .inner | .body closure is :: fs, i, .outer =>
    some ⟨.body closure (is ++ [i]) :: fs, .nothing⟩
  | _, _, _ => none

def complete : List Frame → Term → Sign → Option Reader
  | .group :: fs, t, .closing => some ⟨fs, .term t⟩
  | .items call ts :: fs, t, .comma => some ⟨.items call (ts ++ [t]) :: fs, .nothing⟩
  | .items none ts :: fs, t, .listEnd => some ⟨fs, .term (.list (ts ++ [t]))⟩
  | .items (some name) ts :: fs, t, .closing => some ⟨fs, .instruction (.step name (ts ++ [t]))⟩
  | fs, t, s => conclude fs (.statement t) s

def next (r : Reader) (l : Lexeme) : Option Reader :=
  match r.focus, l with
  | .nothing, l => start r.frames l
  | .term t, .property name => some ⟨r.frames, .term (.property t name)⟩
  | .term t, .sign (.binary op) =>
    let (fs, left) := reduce op.precedence r.frames t
    some ⟨.binary op left :: fs, .nothing⟩
  | .term t, .sign s =>
    let (fs, t) := reduce 0 r.frames t
    complete fs t s
  | .instruction i, .sign s => conclude r.frames i s
  | _, _ => none

def run : Reader → List Lexeme → Option Reader
  | r, [] => some r
  | r, l :: ls => (r.next l).bind (run · ls)

def Reads (r : Reader) (ls : List Lexeme) (r' : Reader) : Prop :=
  ∀ rest, run r (ls ++ rest) = run r' rest

section Reads

variable {r r' r'' : Reader} {ls ls' : List Lexeme} {l : Lexeme}

theorem reads_nil : Reads r [] r :=
  fun _ => rfl

theorem Reads.append (h : Reads r ls r') (h' : Reads r' ls' r'') : Reads r (ls ++ ls') r'' := by
  intro rest
  rw [List.append_assoc, h, h']

theorem reads_cons (hl : r.next l = some r') (h : Reads r' ls r'') : Reads r (l :: ls) r'' := by
  intro rest
  rw [List.cons_append, run, hl, Option.bind_some, h]

theorem reads_single (hl : r.next l = some r') : Reads r [l] r' :=
  reads_cons hl reads_nil

end Reads

section Terms

variable {fs : List Frame} {p : Nat} {t : Term}

def Settled (p : Nat) : List Frame → Prop
  | .unary _ :: _ => False
  | .binary op _ :: _ => op.precedence < p
  | _ => True

theorem Settled.mono {q : Nat} (h : Settled p fs) (hle : p ≤ q) : Settled q fs := by
  cases fs with
  | nil => trivial
  | cons f fs =>
    cases f with
    | binary op left => exact Nat.lt_of_lt_of_le h hle
    | _ => exact h

theorem reduce_of_settled (h : Settled p fs) (t : Term) : reduce p fs t = (fs, t) := by
  cases fs with
  | nil => rfl
  | cons f fs =>
    cases f with
    | unary op => cases h
    | binary op left => exact if_neg (Nat.not_le.2 h)
    | _ => rfl

theorem next_sign (s : Sign) (hs : ∀ op, s ≠ .binary op) (fs : List Frame) (t : Term) :
    next ⟨fs, .term t⟩ (.sign s) = complete (reduce 0 fs t).1 (reduce 0 fs t).2 s := by
  cases s with
  | binary op => exact absurd rfl (hs op)
  | _ => rfl

/-- The lexemes of the term leave the term, up to operators in it that a weaker operator or any other sign completes.
A term that needs no parentheses next to a point is complete at once. -/
def ReadsBack (t : Term) : Prop :=
  ∀ fs, (∀ p ∈ t.precedence?, Settled p fs) → ∃ fs' u, Reads ⟨fs, .nothing⟩ t.lexemes ⟨fs', .term u⟩ ∧
    (∀ q, (∀ p ∈ t.precedence?, q ≤ p) → reduce q fs' u = reduce q fs t) ∧ (t.isGrouped = false → fs' = fs ∧ u = t)

theorem ReadsBack.group (h : ReadsBack t) (fs : List Frame) :
    Reads ⟨fs, .nothing⟩ (Term.enclosed true t.lexemes) ⟨fs, .term t⟩ := by
  obtain ⟨fs', u, hreads, hreduce, -⟩ := h (.group :: fs) fun _ _ => trivial
  refine reads_cons rfl (hreads.append (reads_single ?_))
  rw [next_sign _ (fun _ => Sign.noConfusion), hreduce 0 fun _ _ => Nat.zero_le _]
  rfl

theorem precedence?_of_not_isGrouped (h : t.isGrouped = false) : t.precedence? = none := by
  cases t with
  | binary => cases h
  | _ => rfl

theorem ReadsBack.operand (h : ReadsBack t) (fs : List Frame) :
    Reads ⟨fs, .nothing⟩ (Term.enclosed t.isGrouped t.lexemes) ⟨fs, .term t⟩ := by
  cases hgrouped : t.isGrouped with
  | true => exact h.group fs
  | false =>
    have hsettled : ∀ p ∈ t.precedence?, Settled p fs := by
      rw [precedence?_of_not_isGrouped hgrouped]
      rintro p ⟨⟩
    obtain ⟨fs', u, hreads, -, hsimple⟩ := h fs hsettled
    obtain ⟨rfl, rfl⟩ := hsimple hgrouped
    exact hreads

theorem ReadsBack.side (h : ReadsBack t) {grouped : Bool} {k : Nat}
    (hgrouped : grouped = false → ∀ p ∈ t.precedence?, Settled p fs ∧ k ≤ p) :
    ∃ fs' u, Reads ⟨fs, .nothing⟩ (Term.enclosed grouped t.lexemes) ⟨fs', .term u⟩ ∧
      ∀ q ≤ k, reduce q fs' u = reduce q fs t := by
  cases grouped with
  | true => exact ⟨fs, t, h.group fs, fun _ _ => rfl⟩
  | false =>
    obtain ⟨fs', u, hreads, hreduce, -⟩ := h fs fun p hp => (hgrouped rfl p hp).1
    exact ⟨fs', u, hreads, fun q hq => hreduce q fun p hp => Nat.le_trans hq (hgrouped rfl p hp).2⟩

theorem readsBack_of_reads (h : ∀ fs, Reads ⟨fs, .nothing⟩ t.lexemes ⟨fs, .term t⟩) : ReadsBack t :=
  fun fs _ => ⟨fs, t, h fs, fun _ _ => rfl, fun _ => ⟨rfl, rfl⟩⟩

theorem readsBack_literal (value : Literal) : ReadsBack (.literal value) := by
  apply readsBack_of_reads
  intro fs
  rw [Term.lexemes]
  apply reads_single
  cases value with
  | boolean b => cases b <;> rfl
  | _ => rfl

theorem readsBack_var {name : String} (h : name ∉ Term.constantNames) : ReadsBack (.var name) := by
  simp only [Term.constantNames, List.mem_cons, List.not_mem_nil, or_false, not_or] at h
  apply readsBack_of_reads
  intro fs
  rw [Term.lexemes]
  apply reads_single
  change some (Reader.mk fs (.term (ofWord name))) = _
  rw [ofWord, if_neg h.1, if_neg h.2.1, if_neg h.2.2]

theorem ReadsBack.property (h : ReadsBack t) (name : String) : ReadsBack (.property t name) := by
  apply readsBack_of_reads
  intro fs
  rw [Term.lexemes]
  exact (h.operand fs).append (reads_single rfl)

theorem ReadsBack.unary (h : ReadsBack t) (op : Term.UnaryOp) : ReadsBack (.unary op t) := by
  intro fs _
  refine ⟨.unary op :: fs, t, ?_, fun _ _ => rfl, Bool.noConfusion⟩
  rw [Term.lexemes]
  exact reads_cons rfl (h.operand _)

theorem ReadsBack.binary {left right : Term} (hl : ReadsBack left) (hr : ReadsBack right) (op : Term.BinaryOp) :
    ReadsBack (.binary op left right) := by
  intro fs hsettled
  have hop : Settled op.precedence fs := hsettled _ rfl
  have hleft : left.precedence?.any (· < op.precedence) = false →
      ∀ p ∈ left.precedence?, Settled p fs ∧ op.precedence ≤ p := by
    rintro hweak p hp
    rw [hp] at hweak
    have hle : op.precedence ≤ p := Nat.not_lt.1 (of_decide_eq_false hweak)
    exact ⟨hop.mono hle, hle⟩
  have hright : right.precedence?.any (· ≤ op.precedence) = false →
      ∀ p ∈ right.precedence?, Settled p (.binary op left :: fs) ∧ op.precedence ≤ p := by
    rintro hweak p hp
    rw [hp] at hweak
    have hlt : op.precedence < p := Nat.not_le.1 (of_decide_eq_false hweak)
    exact ⟨hlt, Nat.le_of_lt hlt⟩
  obtain ⟨fs₁, u₁, hreads₁, hreduce₁⟩ := hl.side hleft
  obtain ⟨fs₂, u₂, hreads₂, hreduce₂⟩ := hr.side hright
  refine ⟨fs₂, u₂, ?_, fun q hq => ?_, Bool.noConfusion⟩
  · rw [Term.lexemes]
    refine hreads₁.append (reads_cons ?_ hreads₂)
    change some (Reader.mk (.binary op (reduce op.precedence fs₁ u₁).2 :: (reduce op.precedence fs₁ u₁).1) .nothing) = _
    rw [hreduce₁ _ (Nat.le_refl _), reduce_of_settled hop]
  · rw [hreduce₂ q (hq _ rfl), reduce, if_pos (hq _ rfl)]

def ReadsItems (ts : List Term) : Prop :=
  ∀ call done fs, ∃ fs' u before last, ts = before ++ [last] ∧
    Reads ⟨.items call done :: fs, .nothing⟩ (Term.lexemesAll ts) ⟨fs', .term u⟩ ∧
    reduce 0 fs' u = (.items call (done ++ before) :: fs, last)

theorem readsItems_one (h : ReadsBack t) : ReadsItems [t] := by
  intro call done fs
  obtain ⟨fs', u, hreads, hreduce, -⟩ := h (.items call done :: fs) fun _ _ => trivial
  refine ⟨fs', u, [], t, rfl, hreads, ?_⟩
  rw [hreduce 0 fun _ _ => Nat.zero_le _, List.append_nil]
  rfl

theorem readsItems_cons {t' : Term} {ts : List Term} (h : ReadsBack t) (hs : ReadsItems (t' :: ts)) :
    ReadsItems (t :: t' :: ts) := by
  intro call done fs
  obtain ⟨fs₁, u₁, hreads₁, hreduce₁, -⟩ := h (.items call done :: fs) fun _ _ => trivial
  obtain ⟨fs₂, u₂, before, last, heq, hreads₂, hreduce₂⟩ := hs call (done ++ [t]) fs
  refine ⟨fs₂, u₂, t :: before, last, by rw [heq, List.cons_append], ?_, ?_⟩
  · rw [Term.lexemesAll]
    · refine hreads₁.append (reads_cons ?_ hreads₂)
      rw [next_sign _ (fun _ => Sign.noConfusion), hreduce₁ 0 fun _ _ => Nat.zero_le _]
      rfl
    · exact List.cons_ne_nil t' ts
  · rw [hreduce₂, List.append_assoc, List.singleton_append]

theorem ReadsItems.list {ts : List Term} (h : ReadsItems ts) (fs : List Frame) :
    Reads ⟨.items none [] :: fs, .nothing⟩ (Term.lexemesAll ts ++ [Lexeme.sign .listEnd]) ⟨fs, .term (.list ts)⟩ := by
  obtain ⟨fs', u, before, last, heq, hreads, hreduce⟩ := h none [] fs
  refine hreads.append (reads_single ?_)
  rw [next_sign _ (fun _ => Sign.noConfusion), hreduce, heq]
  rfl

theorem ReadsItems.call {ts : List Term} (h : ReadsItems ts) (name : String) (fs : List Frame) :
    Reads ⟨.items (some name) [] :: fs, .nothing⟩ (Term.lexemesAll ts ++ [Lexeme.sign .closing])
      ⟨fs, .instruction (.step name ts)⟩ := by
  obtain ⟨fs', u, before, last, heq, hreads, hreduce⟩ := h (some name) [] fs
  refine hreads.append (reads_single ?_)
  rw [next_sign _ (fun _ => Sign.noConfusion), hreduce, heq]
  rfl

mutual
theorem readsBack : (t : Term) → t.Plain → ReadsBack t
  | .literal value, _ => readsBack_literal value
  | .var _, h => readsBack_var h
  | .property target name, h => (readsBack target h).property name
  | .list [], _ => by
    apply readsBack_of_reads
    intro fs
    exact reads_cons rfl (reads_single rfl)
  | .list (t :: ts), h => by
    apply readsBack_of_reads
    intro fs
    rw [Term.lexemes]
    exact reads_cons rfl ((readsItems (t :: ts) h (List.cons_ne_nil t ts)).list fs)
  | .unary op operand, h => (readsBack operand h).unary op
  | .binary op left right, h => (readsBack left h.1).binary (readsBack right h.2) op

theorem readsItems : (ts : List Term) → Term.PlainAll ts → ts ≠ [] → ReadsItems ts
  | [], _, hne => absurd rfl hne
  | [t], h, _ => readsItems_one (readsBack t h.1)
  | t :: t' :: ts, h, _ => readsItems_cons (readsBack t h.1) (readsItems (t' :: ts) h.2 (List.cons_ne_nil t' ts))
end

end Terms

section Instructions

variable {fs : List Frame} {closure : Option String} {is : List Instruction}

theorem reads_call (name : String) (fs : List Frame) {arguments : List Term} (h : Term.PlainAll arguments) :
    Reads ⟨fs, .nothing⟩ (.call name :: (Term.lexemesAll arguments ++ [Lexeme.sign .closing]))
      ⟨fs, .instruction (.step name arguments)⟩ := by
  cases arguments with
  | nil => exact reads_cons rfl (reads_single rfl)
  | cons t ts => exact reads_cons rfl ((readsItems (t :: ts) h (List.cons_ne_nil t ts)).call name fs)

theorem conclude_body {s : Sign} (hs : s = .inner ∨ s = .outer) (i : Instruction) :
    conclude (.body closure is :: fs) i s = some ⟨.body closure (is ++ [i]) :: fs, .nothing⟩ := by
  rcases hs with rfl | rfl <;> rfl

theorem next_statement {s : Sign} (hs : s = .inner ∨ s = .outer) {fs' : List Frame} {t u : Term}
    (h : reduce 0 fs' u = (.body closure is :: fs, t)) :
    next ⟨fs', .term u⟩ (.sign s) = some ⟨.body closure (is ++ [Instruction.statement t]) :: fs, .nothing⟩ := by
  rcases hs with rfl | rfl <;> rw [next_sign _ (fun _ => Sign.noConfusion), h] <;> rfl

mutual
theorem reads_instruction : (i : Instruction) → i.Plain → ∀ (closure : Option String) (is : List Instruction)
    (fs : List Frame) {s : Sign}, s = .inner ∨ s = .outer →
    Reads ⟨.body closure is :: fs, .nothing⟩ (i.lexemes ++ [Lexeme.sign s])
      ⟨.body closure (is ++ [i.withoutParameters]) :: fs, .nothing⟩
  | .step name arguments, h, closure, is, fs, _, hs => by
    rw [Instruction.lexemes]
    exact (reads_call name _ h).append (reads_single (conclude_body hs _))
  | .closure name _ body, h, closure, is, fs, _, hs => by
    have hbody := reads_body body h (some name) [] (.body closure is :: fs)
    have hclosure : Reads ⟨.body closure is :: fs, .nothing⟩
        (.block name :: (Instruction.lexemesAll body ++ [Lexeme.sign .finish]))
        ⟨.body closure is :: fs, .instruction (.closure name none (Instruction.withoutParametersAll body))⟩ :=
      reads_cons rfl (hbody.append (reads_single rfl))
    rw [Instruction.lexemes]
    exact hclosure.append (reads_single (conclude_body hs _))
  | .statement term, h, closure, is, fs, _, hs => by
    obtain ⟨fs', u, hreads, hreduce, -⟩ := readsBack term h (.body closure is :: fs) fun _ _ => trivial
    exact hreads.append (reads_single (next_statement hs (hreduce 0 fun _ _ => Nat.zero_le _)))

theorem reads_body : (body : List Instruction) → Instruction.PlainAll body → ∀ (closure : Option String)
    (is : List Instruction) (fs : List Frame),
    Reads ⟨.body closure is :: fs, .nothing⟩ (Instruction.lexemesAll body)
      ⟨.body closure (is ++ Instruction.withoutParametersAll body) :: fs, .nothing⟩
  | [], _, closure, is, fs => by
    rw [Instruction.withoutParametersAll, List.append_nil]
    exact reads_nil
  | i :: body, h, closure, is, fs => by
    have hi := reads_instruction i h.1 closure is fs (.inl rfl)
    have hbody := reads_body body h.2 closure (is ++ [i.withoutParameters]) fs
    rw [List.append_assoc] at hbody
    rw [Instruction.lexemesAll, List.append_cons]
    exact hi.append hbody
end

theorem reads_script {is : List Instruction} (h : Instruction.PlainAll is) (done : List Instruction) :
    Reads ⟨[.body none done], .nothing⟩ (is.flatMap fun i => i.lexemes ++ [Lexeme.sign .outer])
      ⟨[.body none (done ++ Instruction.withoutParametersAll is)], .nothing⟩ := by
  induction is generalizing done with
  | nil =>
    rw [Instruction.withoutParametersAll, List.append_nil]
    exact reads_nil
  | cons i is ih =>
    have his := ih h.2 (done ++ [i.withoutParameters])
    rw [List.append_assoc] at his
    rw [List.flatMap_cons]
    exact (reads_instruction i h.1 none done [] (.inr rfl)).append his

end Instructions

end Reader

theorem run_lexemes {s : Script} (h : s.Plain) : Reader.run ⟨[.body none []], .nothing⟩ s.lexemes =
    some ⟨[.body none s.withoutParameters.instructions], .nothing⟩ := by
  have hreads := Reader.reads_script h [] []
  rw [List.append_nil] at hreads
  exact hreads

theorem withoutParameters_eq_of_lexemes_eq {s s' : Script} (h : s.Plain) (h' : s'.Plain)
    (heq : s.lexemes = s'.lexemes) : s.withoutParameters = s'.withoutParameters := by
  have hrun := run_lexemes h
  rw [heq, run_lexemes h'] at hrun
  injection hrun with hrun
  injection hrun with hframes
  injection hframes with hframe
  injection hframe with _ hinstructions
  exact congrArg Script.mk hinstructions.symm

theorem print_eq_iff {s s' : Script} (h : s.validate = .ok ()) (hplain : s.Plain) (h' : s'.validate = .ok ())
    (hplain' : s'.Plain) : s.print {} = s'.print {} ↔ s.withoutParameters = s'.withoutParameters := by
  constructor
  · intro heq
    exact withoutParameters_eq_of_lexemes_eq hplain hplain' (lexemes_eq_of_print_eq h hplain h' hplain' heq)
  · intro heq
    rw [← print_withoutParameters, heq, print_withoutParameters]

end Script

end GraphQuery
