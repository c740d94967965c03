import GraphQuery.Proofs.Token.Scanning
import Mathlib

/-!
The patterns of tokens, blanks and comments as languages. The first character of a text decides which of them it can
match.
-/

namespace GraphQuery

def Mark.symbols : List (List Char × Mark) :=
  [(['('], leftParen), ([')'], rightParen), (['\x7b'], leftBrace), (['\x7d'], rightBrace), ([','], comma),
   (['.'], dot), (['-', '>'], arrow), (['|'], pipe), (['!'], bang), ([':'], colon), (['='], equals),
   (['<', '>'], notEquals), (['<'], less), (['<', '='], lessEquals), (['>'], greater), (['>', '='], greaterEquals),
   (['+'], plus), (['-'], minus), (['*'], star), (['/'], slash)]

def Mark.spellings (m : Mark) : Language Char :=
  {w | (String.ofList w, m) ∈ Mark.words ∨ (w, m) ∈ Mark.symbols}

namespace Token

open Computability

section Patterns

def oneOf (p : Char → Bool) : Language Char :=
  {w | ∃ c, p c = true ∧ w = [c]}

def digits : Language Char :=
  oneOf Char.isDigit * (oneOf Char.isDigit)∗

def exponents : Language Char :=
  oneOf (fun c => c == 'e' || c == 'E') * (1 + oneOf (fun c => c == '+' || c == '-')) * digits

def decimals : Language Char :=
  digits * {['.']} * digits * (1 + exponents)

def quotable (quote : Char) : Language Char :=
  oneOf (fun c => c != quote && c != '\\') + {['\\']} * oneOf (· != '\n')

def quotations (quote : Char) : Language Char :=
  {[quote]} * (quotable quote)∗ * {[quote]}

def names : Language Char :=
  oneOf isWordStart * (oneOf isWordPart)∗

def symbols : Language Char :=
  {w | ∃ m, (w, m) ∈ Mark.symbols}

def blanks : Language Char :=
  oneOf isBlank * (oneOf isBlank)∗

def comments : Language Char :=
  {['-', '-']} * (oneOf (· != '\n'))∗

def pattern : Token → Language Char
  | .mark m => m.spellings
  | .integer _ => digits
  | .real _ => decimals
  | .string _ => quotations '"' + quotations '\''
  | .identifier _ => names

def lexemes : Language Char :=
  {w | (∃ t : Token, w ∈ t.pattern) ∨ w ∈ blanks ∨ w ∈ comments}

end Patterns

section Membership

variable {p : Char → Bool} {c quote : Char} {w : List Char}

theorem mem_oneOf : w ∈ oneOf p ↔ ∃ c, p c = true ∧ w = [c] :=
  Iff.rfl

theorem cons_mem_kstar {l : Language Char} {v : List Char} (hv : v ∈ l) (hw : w ∈ l∗) : v ++ w ∈ l∗ := by
  obtain ⟨vs, rfl, hvs⟩ := Language.mem_kstar.1 hw
  exact Language.mem_kstar.2 ⟨v :: vs, rfl, List.forall_mem_cons.2 ⟨hv, hvs⟩⟩

theorem mem_kstar_oneOf : w ∈ (oneOf p)∗ ↔ ∀ c ∈ w, p c = true := by
  constructor
  · rintro ⟨vs, rfl, hvs⟩ c hc
    obtain ⟨v, hv, hcv⟩ := List.mem_flatten.1 hc
    obtain ⟨d, hd, rfl⟩ := hvs v hv
    rwa [List.mem_singleton.1 hcv]
  · intro hw
    induction w with
    | nil => exact Language.nil_mem_kstar _
    | cons c w ih =>
      rw [List.forall_mem_cons] at hw
      exact cons_mem_kstar (mem_oneOf.2 ⟨c, hw.1, rfl⟩) (ih hw.2)

theorem mem_oneOf_mul {l : Language Char} : w ∈ oneOf p * l ↔ ∃ c v, w = c :: v ∧ p c = true ∧ v ∈ l := by
  constructor
  · rintro ⟨_, ⟨c, hc, rfl⟩, v, hv, rfl⟩
    exact ⟨c, v, rfl, hc, hv⟩
  · rintro ⟨c, v, rfl, hc, hv⟩
    exact ⟨[c], ⟨c, hc, rfl⟩, v, hv, rfl⟩

theorem mem_run {q : Char → Bool} : w ∈ oneOf p * (oneOf q)∗ ↔
    ∃ c v, w = c :: v ∧ p c = true ∧ ∀ d ∈ v, q d = true := by
  simp only [mem_oneOf_mul, mem_kstar_oneOf]

theorem mem_digits : w ∈ digits ↔ w ≠ [] ∧ ∀ d ∈ w, d.isDigit = true := by
  rw [digits, mem_run]
  cases w <;> simp

theorem mem_decimals : w ∈ decimals ↔ ∃ ds fs es, w = ds ++ '.' :: (fs ++ es) ∧ ds ∈ digits ∧ fs ∈ digits ∧
    (es = [] ∨ es ∈ exponents) := by
  constructor
  · rintro ⟨_, ⟨_, ⟨ds, hds, _, rfl, rfl⟩, fs, hfs, rfl⟩, es, hes, rfl⟩
    exact ⟨ds, fs, es, by simp, hds, hfs, hes⟩
  · rintro ⟨ds, fs, es, rfl, hds, hfs, hes⟩
    exact ⟨ds ++ ['.'] ++ fs, ⟨ds ++ ['.'], ⟨ds, hds, _, rfl, rfl⟩, fs, hfs, rfl⟩, es, hes, by simp⟩

theorem mem_exponents : w ∈ exponents ↔ ∃ e sign ds, w = e :: (sign ++ ds) ∧ (e == 'e' || e == 'E') = true ∧
    (sign = [] ∨ sign = ['+'] ∨ sign = ['-']) ∧ ds ∈ digits := by
  constructor
  · rintro ⟨_, ⟨_, ⟨e, he, rfl⟩, sign, hsign, rfl⟩, ds, hds, rfl⟩
    refine ⟨e, sign, ds, rfl, he, ?_, hds⟩
    obtain rfl | ⟨c, hc, rfl⟩ := hsign
    · exact .inl rfl
    · simpa using hc
  · rintro ⟨e, sign, ds, rfl, he, hsign, hds⟩
    refine ⟨e :: sign, ⟨[e], ⟨e, he, rfl⟩, sign, ?_, rfl⟩, ds, hds, rfl⟩
    obtain rfl | rfl | rfl := hsign
    · exact .inl rfl
    · exact .inr ⟨_, rfl, rfl⟩
    · exact .inr ⟨_, rfl, rfl⟩

theorem mem_quotable : w ∈ quotable quote ↔
    (∃ c, w = [c] ∧ c ≠ quote ∧ c ≠ '\\') ∨ ∃ c, w = ['\\', c] ∧ c ≠ '\n' := by
  constructor
  · rintro (⟨c, hc, rfl⟩ | ⟨_, rfl, _, ⟨c, hc, rfl⟩, rfl⟩)
    · exact .inl ⟨c, rfl, by simpa using hc⟩
    · exact .inr ⟨c, rfl, by simpa using hc⟩
  · rintro (⟨c, rfl, hc⟩ | ⟨c, rfl, hc⟩)
    · exact .inl ⟨c, by simpa using hc, rfl⟩
    · exact .inr ⟨_, rfl, _, ⟨c, by simpa using hc, rfl⟩, rfl⟩

theorem mem_quotations : w ∈ quotations quote ↔ ∃ inside ∈ (quotable quote)∗, w = quote :: (inside ++ [quote]) := by
  constructor
  · rintro ⟨_, ⟨_, rfl, inside, hinside, rfl⟩, _, rfl, rfl⟩
    exact ⟨inside, hinside, rfl⟩
  · rintro ⟨inside, hinside, rfl⟩
    exact ⟨quote :: inside, ⟨_, rfl, inside, hinside, rfl⟩, _, rfl, rfl⟩

theorem mem_comments : w ∈ comments ↔ ∃ line, w = '-' :: '-' :: line ∧ '\n' ∉ line := by
  have hline : ∀ line, line ∈ (oneOf (· != '\n'))∗ ↔ '\n' ∉ line := by
    intro line
    rw [mem_kstar_oneOf]
    simp [List.forall_mem_ne']
  constructor
  · rintro ⟨_, rfl, line, hl, rfl⟩
    exact ⟨line, rfl, (hline line).1 hl⟩
  · rintro ⟨line, rfl, hl⟩
    exact ⟨_, rfl, line, (hline line).2 hl, rfl⟩

end Membership

inductive Kind where
  | blank | digit | quote | letter | sign
deriving DecidableEq

def kind (c : Char) : Kind :=
  if isBlank c then .blank
  else if c.isDigit then .digit
  else if c == '"' || c == '\'' then .quote
  else if isWordStart c then .letter
  else .sign

def Kind.lexemes : Kind → Language Char
  | blank => blanks
  | digit => digits + decimals
  | quote => quotations '"' + quotations '\''
  | letter => names
  | sign => symbols + comments

section Kinds

variable {c : Char} {w : List Char} {m : Mark}

theorem kind_of_isBlank (h : isBlank c = true) : kind c = .blank := by
  rw [kind, if_pos h]

theorem kind_of_isDigit (h : c.isDigit = true) : kind c = .digit := by
  rw [kind, if_neg (by simp [isBlank_eq_false h rfl]), if_pos h]

theorem kind_of_isWordStart (h : isWordStart c = true) : kind c = .letter := by
  rw [kind, if_neg (by simp [isBlank_eq_false h rfl]), if_neg (by simp [isDigit_eq_false_of_isWordStart h]),
    if_neg (by simp [ne_of_class h (d := '"') rfl, ne_of_class h (d := '\'') rfl]), if_pos h]

theorem kind_of_symbol (h : (c :: w, m) ∈ Mark.symbols) : kind c = .sign := by
  have hall : ∀ x ∈ Mark.symbols, x.1.head?.map kind = some .sign := by decide
  exact Option.some.inj (hall _ h)

theorem isIdentifier_of_word {word : String} (h : (word, m) ∈ Mark.words) : isIdentifier word = true := by
  have hall : ∀ x ∈ Mark.words, isIdentifier x.1 = true := by decide
  exact hall _ h

theorem mem_names_of_word (h : (String.ofList w, m) ∈ Mark.words) : w ∈ names := by
  obtain ⟨c, v, hw, hc, hv⟩ := exists_of_isIdentifier (isIdentifier_of_word h)
  rw [String.toList_ofList] at hw
  exact mem_run.2 ⟨c, v, hw, hc, hv⟩

theorem kind_of_mem_digits {v r : List Char} (h : w ∈ digits) (hw : w ++ v = c :: r) : kind c = .digit := by
  rw [mem_digits] at h
  obtain ⟨d, w, rfl⟩ := List.exists_cons_of_ne_nil h.1
  obtain ⟨rfl, -⟩ := List.cons.inj hw
  exact kind_of_isDigit (h.2 d List.mem_cons_self)

theorem kind_of_mem_decimals (h : c :: w ∈ decimals) : kind c = .digit := by
  obtain ⟨ds, fs, es, heq, hds, -⟩ := mem_decimals.1 h
  exact kind_of_mem_digits hds heq.symm

theorem kind_of_mem_quotations (h : c :: w ∈ quotations '"' + quotations '\'') : kind c = .quote := by
  obtain h | h := h
  all_goals
    obtain ⟨inside, -, heq⟩ := mem_quotations.1 h
    cases heq
    rfl

theorem kind_of_mem_names (h : c :: w ∈ names) : kind c = .letter := by
  obtain ⟨d, v, heq, hd, -⟩ := mem_run.1 h
  cases heq
  exact kind_of_isWordStart hd

theorem kind_of_mem_comments (h : c :: w ∈ comments) : kind c = .sign := by
  obtain ⟨line, heq, -⟩ := mem_comments.1 h
  cases heq
  rfl

theorem mem_lexemes_kind (h : c :: w ∈ lexemes) : c :: w ∈ (kind c).lexemes := by
  obtain ⟨t, ht⟩ | hblank | hcomment := h
  · cases t with
    | mark m =>
      obtain hword | hsymbol := ht
      · have hname := mem_names_of_word hword
        rwa [kind_of_mem_names hname]
      · rw [kind_of_symbol hsymbol]
        exact .inl ⟨m, hsymbol⟩
    | integer n =>
      rw [kind_of_mem_digits ht (List.append_nil _)]
      exact .inl ht
    | real x =>
      rw [kind_of_mem_decimals ht]
      exact .inr ht
    | string s => rwa [kind_of_mem_quotations ht]
    | identifier name => rwa [kind_of_mem_names ht]
  · obtain ⟨d, v, heq, hd, -⟩ := mem_run.1 hblank
    cases heq
    rwa [kind_of_isBlank hd]
  · rw [kind_of_mem_comments hcomment]
    exact .inr hcomment

end Kinds

end Token

end GraphQuery
