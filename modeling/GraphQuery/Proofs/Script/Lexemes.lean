import GraphQuery.Script.Printer
import GraphQuery.Proofs.Script.Validity
import GraphQuery.Proofs.Token.Numbers

/-!
The lexemes of script texts: names, constants and signs. A text with the default options is a row of lexemes, and
only one row of lexemes has that text.
-/

namespace GraphQuery

namespace Script

inductive Sign where
  | unary (op : Term.UnaryOp)
  | binary (op : Term.BinaryOp)
  | opening | closing | listStart | listEnd | comma
  | finish | inner | outer
deriving DecidableEq

namespace Sign

def all : List Sign :=
  Term.UnaryOp.all.map unary ++ Term.BinaryOp.all.map binary ++
    [opening, closing, listStart, listEnd, comma, finish, inner, outer]

def text : Sign → List Char
  | unary op => op.spelling.toList
  | binary op => ' ' :: op.spelling.toList ++ [' ']
  | opening => ['(']
  | closing => [')']
  | listStart => ['[']
  | listEnd => [']']
  | comma => [',', ' ']
  | finish => ['\x7d']
  | inner => [';', ' ']
  | outer => [';', '\n']

theorem find?_text (s : Sign) (rest : List Char) : all.find? (·.text.isPrefixOf (s.text ++ rest)) = some s := by
  cases s with
  | unary op => cases op <;> rfl
  | binary op => cases op <;> rfl
  | _ => rfl

end Sign

/-- A property name has its point with it, and the name of a step or closure the bracket that follows. -/
inductive Lexeme where
  | word (name : String)
  | constant (value : Literal)
  | property (name : String)
  | call (name : String)
  | block (name : String)
  | sign (sign : Sign)

namespace Lexeme

def text : Lexeme → List Char
  | word name => name.toList
  | constant value => (Term.literalText value).toList
  | property name => '.' :: name.toList
  | call name => name.toList ++ ['(']
  | block name => name.toList ++ ['\x7b', ' ']
  | sign s => s.text

def texts (ls : List Lexeme) : List Char :=
  ls.flatMap text

@[simp] theorem texts_nil : texts [] = [] := rfl

@[simp] theorem texts_cons (l : Lexeme) (ls : List Lexeme) : texts (l :: ls) = l.text ++ texts ls := rfl

@[simp] theorem texts_append (ls ls' : List Lexeme) : texts (ls ++ ls') = texts ls ++ texts ls' :=
  List.flatMap_append

section Reading

def named (name : String) : List Char → Lexeme × List Char
  | '(' :: rest => (call name, rest)
  | '\x7b' :: ' ' :: rest => (block name, rest)
  | rest => (word name, rest)

def constant? (p : Token.Piece) (cs : List Char) : Option (Lexeme × List Char) :=
  match p.lexeme with
  | .token (.integer n) => some (constant (.integer n), cs.drop p.more)
  | .token (.real x) => some (constant (.real x), cs.drop p.more)
  | .token (.string s) => some (constant (.string s), cs.drop p.more)
  | _ => none

def next? : List Char → Option (Lexeme × List Char)
  | [] => none
  | c :: cs =>
    if c = '.' then
      some (property (String.ofList (cs.takeWhile Token.isWordPart)), cs.dropWhile Token.isWordPart)
    else if Token.isWordStart c then
      some (named (String.ofList (c :: cs.takeWhile Token.isWordPart)) (cs.dropWhile Token.isWordPart))
    else if c.isDigit then constant? (Token.number c cs) cs
    else if c = '"' then constant? (Token.quotedString c cs) cs
    else (Sign.all.find? (·.text.isPrefixOf (c :: cs))).map fun s => (sign s, (c :: cs).drop s.text.length)

def Valid : Lexeme → Prop
  | word name | property name | call name | block name => isIdentifier name = true
  | constant (.integer n) => 0 ≤ n.toInt
  | constant (.real x) => Decimal.IsMagnitude x
  | constant (.string _) => True
  | constant _ => False
  | sign _ => True

def isLoose : Lexeme → Bool
  | word _ | constant _ | property _ => true
  | _ => false

def Stops (rest : List Char) : Prop :=
  Token.Separated rest ∧ rest.head? ≠ some '(' ∧ rest.head? ≠ some '\x7b'

variable {name : String} {rest : List Char}

theorem named_of_stops (name : String) (h : Stops rest) : named name rest = (word name, rest) := by
  obtain ⟨-, hcall, hblock⟩ := h
  unfold named
  split
  · exact absurd rfl hcall
  · exact absurd rfl hblock
  · rfl

theorem next?_property (h : isIdentifier name = true) (hrest : Token.Separated rest) :
    next? ('.' :: (name.toList ++ rest)) = some (property name, rest) := by
  obtain ⟨c, cs, heq, hc, hcs⟩ := Token.exists_of_isIdentifier h
  have hparts : ∀ d ∈ name.toList, Token.isWordPart d = true := by
    rw [heq, List.forall_mem_cons]
    exact ⟨Token.isWordPart_of_isWordStart hc, hcs⟩
  have hhead : ∀ d r, rest = d :: r → Token.isWordPart d = false := by
    rintro d r rfl
    exact hrest.head
  rw [next?, if_pos rfl, Token.takeWhile_append_of_head hparts hhead, Token.dropWhile_append_of_head hparts hhead,
    String.ofList_toList]

theorem next?_name (h : isIdentifier name = true) (hrest : ∀ d r, rest = d :: r → Token.isWordPart d = false) :
    next? (name.toList ++ rest) = some (named name rest) := by
  obtain ⟨c, cs, heq, hc, hcs⟩ := Token.exists_of_isIdentifier h
  have hname : String.ofList (c :: cs) = name := by rw [← heq, String.ofList_toList]
  rw [heq, List.cons_append, next?, if_neg (Token.ne_of_class hc rfl), if_pos hc,
    Token.takeWhile_append_of_head hcs hrest, Token.dropWhile_append_of_head hcs hrest, hname]

theorem next?_number {cs : List Char} {t : Token} (h : Token.SpellsNumber cs t) (hrest : Token.Separated rest) :
    ∃ r, next? (cs ++ rest) = constant? ⟨.token t, r.length⟩ (r ++ rest) := by
  obtain ⟨c, r, rfl, hc, hr⟩ := h
  have hstart : Token.isWordStart c = false := by
    by_contra hstart
    rw [Bool.not_eq_false] at hstart
    rw [Token.isDigit_eq_false_of_isWordStart hstart] at hc
    cases hc
  refine ⟨r, ?_⟩
  rw [List.cons_append, next?, if_neg (Token.ne_of_class hc rfl), if_neg (by rw [hstart]; decide), if_pos hc,
    hr rest hrest]

theorem escapes_escapeChar : Token.Escapes '"' Term.escapeChar := by
  intro c
  unfold Term.escapeChar
  split
  · exact .inl ⟨'\\', rfl, by decide, fun _ => rfl⟩
  · exact .inl ⟨'"', rfl, by decide, fun _ => rfl⟩
  · exact .inl ⟨'n', rfl, by decide, fun _ => rfl⟩
  · exact .inl ⟨'t', rfl, by decide, fun _ => rfl⟩
  · exact .inl ⟨'r', rfl, by decide, fun _ => rfl⟩
  · rename_i hslash hquote _ _ _
    exact .inr ⟨rfl, hslash, hquote⟩

theorem next?_string (s : String) (rest : List Char) :
    next? ((Term.literalText (.string s)).toList ++ rest) = some (constant (.string s), rest) := by
  have htext : (Term.literalText (.string s)).toList ++ rest =
      '"' :: (s.toList.flatMap Term.escapeChar ++ '"' :: rest) := by
    simp [Term.literalText]
  rw [htext, next?, if_neg (by decide), if_neg (by decide), if_neg (by decide), if_pos rfl,
    escapes_escapeChar.quotedString (by decide), constant?]
  dsimp only
  rw [List.append_cons _ '"' rest, List.drop_left]

theorem spellsNumber_decimal {x : Float} (h : Decimal.IsMagnitude x) :
    Token.SpellsNumber (Term.decimal.write x).toList (.real x) := by
  apply Token.spellsNumber_write rfl h
  intro count power _
  apply Token.spellsNumber_place rfl
  omega

theorem next?_constant {value : Literal} (h : (constant value).Valid) (hrest : Token.Separated rest) :
    next? ((Term.literalText value).toList ++ rest) = some (constant value, rest) := by
  cases value with
  | null => cases h
  | boolean b => cases h
  | integer n =>
    obtain ⟨r, heq⟩ := next?_number (Token.spellsNumber_integerText h) hrest
    rw [Term.literalText, heq, constant?]
    dsimp only
    rw [List.drop_left]
  | real x =>
    obtain ⟨r, heq⟩ := next?_number (spellsNumber_decimal h) hrest
    rw [Term.literalText, heq, constant?]
    dsimp only
    rw [List.drop_left]
  | string s => exact next?_string s rest

theorem next?_sign (s : Sign) (rest : List Char) : next? (s.text ++ rest) = some (sign s, rest) := by
  have hfind := s.find?_text rest
  have hhead : ∃ c cs, s.text = c :: cs ∧ c ≠ '.' ∧ Token.isWordStart c = false ∧ c.isDigit = false ∧ c ≠ '"' := by
    cases s with
    | unary op => cases op <;> exact ⟨_, _, rfl, by decide⟩
    | _ => exact ⟨_, _, rfl, by decide⟩
  obtain ⟨c, cs, heq, hpoint, hstart, hdigit, hquote⟩ := hhead
  rw [heq, List.cons_append] at hfind ⊢
  rw [next?, if_neg hpoint, if_neg (by rw [hstart]; decide), if_neg (by rw [hdigit]; decide), if_neg hquote, hfind,
    Option.map_some, heq, ← List.cons_append, List.drop_left]

theorem next?_append {l : Lexeme} (h : l.Valid) (hrest : l.isLoose = true → Stops rest) :
    next? (l.text ++ rest) = some (l, rest) := by
  cases l with
  | word name =>
    have hstops := hrest rfl
    rw [text, next?_name h, named_of_stops name hstops]
    rintro d r rfl
    exact hstops.1.head
  | constant value => exact next?_constant h (hrest rfl).1
  | property name => exact next?_property h (hrest rfl).1
  | call name =>
    rw [text, List.append_assoc, next?_name h]
    · rfl
    · rintro d r ⟨⟩
      rfl
  | block name =>
    rw [text, List.append_assoc, next?_name h]
    · rfl
    · rintro d r ⟨⟩
      rfl
  | sign s => exact next?_sign s rest

end Reading

def Spaced : List Lexeme → Prop
  | [] => True
  | l :: ls => l.Valid ∧ (l.isLoose = true → Stops (texts ls)) ∧ Spaced ls

theorem next?_texts {l : Lexeme} {ls : List Lexeme} (h : Spaced (l :: ls)) :
    next? (texts (l :: ls)) = some (l, texts ls) :=
  next?_append h.1 h.2.1

theorem eq_of_texts_eq {ls ls' : List Lexeme} (h : Spaced ls) (h' : Spaced ls') (heq : texts ls = texts ls') :
    ls = ls' := by
  induction ls generalizing ls' with
  | nil =>
    cases ls' with
    | nil => rfl
    | cons l' ls' =>
      have hnext := next?_texts h'
      rw [← heq] at hnext
      cases hnext
  | cons l ls ih =>
    have hnext := next?_texts h
    cases ls' with
    | nil =>
      rw [heq] at hnext
      cases hnext
    | cons l' ls' =>
      rw [heq, next?_texts h'] at hnext
      obtain ⟨hl, hls⟩ := Prod.mk.inj (Option.some.inj hnext)
      rw [hl, ih h.2.2 h'.2.2 hls.symm]

section Fits

variable {l : Lexeme} {ls ls' : List Lexeme} {name : String}

def Fits (ls : List Lexeme) : Prop :=
  ∀ rest, Spaced rest → Stops (texts rest) → Spaced (ls ++ rest)

theorem fits_nil : Fits [] :=
  fun _ hrest _ => hrest

theorem fits_single (h : l.Valid) : Fits [l] :=
  fun _ hrest hstops => ⟨h, fun _ => hstops, hrest⟩

theorem Fits.cons (h : Fits ls) (hl : l.Valid) (hloose : l.isLoose = false) : Fits (l :: ls) := by
  intro rest hrest hstops
  refine ⟨hl, fun htrue => ?_, h rest hrest hstops⟩
  rw [hloose] at htrue
  cases htrue

theorem stops_nil : Stops [] :=
  ⟨trivial, (Option.some_ne_none _).symm, (Option.some_ne_none _).symm⟩

theorem stops_cons {c : Char} (h : Token.isWordPart c = false ∧ c ≠ '.' ∧ c ≠ '(' ∧ c ≠ '\x7b') (rest : List Char) :
    Stops (c :: rest) := by
  refine ⟨Token.separated_cons h.1 h.2.1 rest, ?_⟩
  simpa using h.2.2

theorem stops_sign {s : Sign} (hs : s ≠ .opening) (rest : List Char) : Stops (s.text ++ rest) := by
  cases s with
  | opening => exact absurd rfl hs
  | unary op => cases op <;> exact stops_cons (by decide) _
  | _ => exact stops_cons (by decide) _

theorem stops_property (h : isIdentifier name = true) (rest : List Char) : Stops ('.' :: (name.toList ++ rest)) := by
  obtain ⟨c, cs, heq, hc, -⟩ := Token.exists_of_isIdentifier h
  rw [heq]
  exact ⟨Token.isDigit_eq_false_of_isWordStart hc, by simp, by simp⟩

theorem Fits.sign (h : Fits ls) {s : Sign} (hs : s ≠ .opening) (h' : Fits ls') : Fits (ls ++ Lexeme.sign s :: ls') := by
  intro rest hrest hstops
  rw [List.append_assoc]
  exact h _ (h'.cons (l := .sign s) trivial rfl rest hrest hstops) (stops_sign hs _)

theorem Fits.property (h : Fits ls) (hname : isIdentifier name = true) : Fits (ls ++ [Lexeme.property name]) := by
  intro rest hrest hstops
  rw [List.append_assoc]
  exact h _ (fits_single (l := .property name) hname rest hrest hstops) (stops_property hname _)

end Fits

end Lexeme

end Script

open Script (Lexeme)
open Script.Lexeme (texts Fits)

def Literal.lexeme : Literal → Lexeme
  | null => .word "null"
  | boolean b => .word (booleanText b)
  | value => .constant value

namespace Term

def enclosed (grouped : Bool) (ls : List Lexeme) : List Lexeme :=
  if grouped then .sign .opening :: ls ++ [.sign .closing] else ls

mutual
def lexemes : Term → List Lexeme
  | literal value => [value.lexeme]
  | var name => [.word name]
  | property target name => enclosed target.isGrouped target.lexemes ++ [.property name]
  | list items => .sign .listStart :: (lexemesAll items ++ [.sign .listEnd])
  | unary op operand => .sign (.unary op) :: enclosed operand.isGrouped operand.lexemes
  | binary op left right =>
    enclosed (left.precedence?.any (· < op.precedence)) left.lexemes ++ .sign (.binary op) ::
      enclosed (right.precedence?.any (· ≤ op.precedence)) right.lexemes

def lexemesAll : List Term → List Lexeme
  | [] => []
  | [t] => t.lexemes
  | t :: ts => t.lexemes ++ .sign .comma :: lexemesAll ts
end

theorem text_lexeme (value : Literal) : value.lexeme.text = (literalText value).toList := by
  cases value <;> rfl

theorem texts_enclosed {ls : List Lexeme} {text : String} (grouped : Bool) (h : texts ls = text.toList) :
    texts (enclosed grouped ls) = (parenthesized grouped text).toList := by
  cases grouped with
  | false => exact h
  | true => simp [enclosed, parenthesized, Lexeme.text, Script.Sign.text, h]

mutual
theorem texts_lexemes : (t : Term) → texts t.lexemes = t.print.toList
  | literal value => by simp [lexemes, print, text_lexeme]
  | var name => by simp [lexemes, print, Lexeme.text]
  | property target name => by
    simp [lexemes, print, texts_enclosed _ target.texts_lexemes, Lexeme.text]
  | list items => by simp [lexemes, print, texts_lexemesAll items, Lexeme.text, Script.Sign.text]
  | unary op operand => by
    simp [lexemes, print, texts_enclosed _ operand.texts_lexemes, Lexeme.text, Script.Sign.text]
  | binary op left right => by
    simp [lexemes, print, texts_enclosed _ left.texts_lexemes, texts_enclosed _ right.texts_lexemes, Lexeme.text,
      Script.Sign.text]

theorem texts_lexemesAll : (ts : List Term) → texts (lexemesAll ts) = (printAll ts).toList
  | [] => rfl
  | [t] => t.texts_lexemes
  | t :: t' :: ts => by
    have hts := texts_lexemesAll (t' :: ts)
    simp [lexemesAll, printAll, t.texts_lexemes, hts, Lexeme.text, Script.Sign.text]
end

def constantNames : List String :=
  ["null", "true", "false"]

mutual
def Plain : Term → Prop
  | literal value => (literal value).isGrouped = false
  | var name => name ∉ constantNames
  | property target _ => target.Plain
  | list items => PlainAll items
  | unary _ operand => operand.Plain
  | binary _ left right => left.Plain ∧ right.Plain

def PlainAll : List Term → Prop
  | [] => True
  | t :: ts => t.Plain ∧ PlainAll ts
end

theorem valid_lexeme {value : Literal} (h : (literal value).check = .ok ()) (hplain : (literal value).Plain) :
    value.lexeme.Valid := by
  cases value with
  | null => rfl
  | boolean b => cases b <;> rfl
  | integer n =>
    have hn := of_decide_eq_false hplain
    rw [Int64.not_lt, Int64.le_iff_toInt_le] at hn
    exact hn
  | real x =>
    rw [check] at h
    split at h
    · rename_i hfinite
      have hsign := of_decide_eq_false hplain
      rw [Decimal.isFinite_iff] at hfinite
      change ¬2 ^ 63 ≤ x.toBits.toNat at hsign
      change x.toBits.toNat < 2047 * 2 ^ 52
      omega
    · cases h
  | string s => trivial

theorem fits_enclosed {ls : List Lexeme} (grouped : Bool) (h : Fits ls) : Fits (enclosed grouped ls) := by
  cases grouped with
  | false => exact h
  | true => exact (h.sign (s := .closing) (by decide) Lexeme.fits_nil).cons trivial rfl

mutual
theorem fits_lexemes : (t : Term) → t.check = .ok () → t.Plain → Fits t.lexemes
  | literal _, h, hplain => by
    rw [lexemes]
    exact Lexeme.fits_single (valid_lexeme h hplain)
  | var name, h, _ => by
    rw [lexemes]
    rw [check] at h
    exact Lexeme.fits_single (l := .word name) (Script.isIdentifier_of_checkName h)
  | property target name, h, hplain => by
    rw [lexemes]
    rw [check] at h
    obtain ⟨⟨⟩, hname, htarget⟩ := bind_eq_ok.1 h
    exact (fits_enclosed _ (fits_lexemes target htarget hplain)).property (Script.isIdentifier_of_checkName hname)
  | list items, h, hplain => by
    rw [lexemes]
    rw [check] at h
    exact ((fits_lexemesAll items h hplain).sign (by decide) Lexeme.fits_nil).cons trivial rfl
  | unary _ operand, h, hplain => by
    rw [lexemes]
    rw [check] at h
    exact (fits_enclosed _ (fits_lexemes operand h hplain)).cons trivial rfl
  | binary op left right, h, hplain => by
    rw [lexemes]
    rw [check] at h
    obtain ⟨⟨⟩, hleft, hright⟩ := bind_eq_ok.1 h
    exact (fits_enclosed _ (fits_lexemes left hleft hplain.1)).sign Script.Sign.noConfusion
      (fits_enclosed _ (fits_lexemes right hright hplain.2))

theorem fits_lexemesAll : (ts : List Term) → checkAll ts = .ok () → PlainAll ts → Fits (lexemesAll ts)
  | [], _, _ => Lexeme.fits_nil
  | [t], h, hplain => by
    rw [checkAll] at h
    obtain ⟨⟨⟩, ht, -⟩ := bind_eq_ok.1 h
    exact fits_lexemes t ht hplain.1
  | t :: t' :: ts, h, hplain => by
    rw [checkAll] at h
    obtain ⟨⟨⟩, ht, hts⟩ := bind_eq_ok.1 h
    rw [lexemesAll]
    · exact (fits_lexemes t ht hplain.1).sign (by decide) (fits_lexemesAll (t' :: ts) hts hplain.2)
    · exact List.cons_ne_nil t' ts
end

end Term

namespace Instruction

mutual
def lexemes : Instruction → List Lexeme
  | step name arguments => .call name :: (Term.lexemesAll arguments ++ [.sign .closing])
  | closure name _ body => .block name :: (lexemesAll body ++ [.sign .finish])
  | statement term => term.lexemes

def lexemesAll : List Instruction → List Lexeme
  | [] => []
  | i :: is => i.lexemes ++ .sign .inner :: lexemesAll is
end

mutual
theorem texts_lexemes : (i : Instruction) → texts i.lexemes = (i.print {}).toList
  | step name arguments => by
    simp [lexemes, print, Term.texts_lexemesAll, Lexeme.text, Script.Sign.text]
  | closure name _ body => by
    have hbody := texts_lexemesAll ['\x7d'] body
    simp [lexemes, print, Lexeme.text, Script.Sign.text, hbody]
  | statement term => term.texts_lexemes

theorem texts_lexemesAll (rest : List Char) : (is : List Instruction) →
    (printBody {} is).toList ++ ' ' :: rest = ' ' :: (texts (lexemesAll is) ++ rest)
  | [] => rfl
  | i :: is => by
    have his := texts_lexemesAll rest is
    simp [printBody, lexemesAll, i.texts_lexemes, his, Lexeme.text, Script.Sign.text]
end

mutual
def Plain : Instruction → Prop
  | step _ arguments => Term.PlainAll arguments
  | closure _ _ body => PlainAll body
  | statement term => term.Plain

def PlainAll : List Instruction → Prop
  | [] => True
  | i :: is => i.Plain ∧ PlainAll is
end

mutual
theorem fits_lexemes : (i : Instruction) → i.check = .ok () → i.Plain → Fits i.lexemes
  | step name arguments, h, hplain => by
    rw [lexemes]
    rw [check] at h
    obtain ⟨⟨⟩, hname, harguments⟩ := bind_eq_ok.1 h
    exact ((Term.fits_lexemesAll arguments harguments hplain).sign (by decide) Lexeme.fits_nil).cons
      (l := .call name) (Script.isIdentifier_of_checkName hname) rfl
  | closure name _ body, h, hplain => by
    rw [lexemes]
    obtain ⟨hname, hbody⟩ := check_closure h
    exact ((fits_lexemesAll body hbody hplain).sign (by decide) Lexeme.fits_nil).cons (l := .block name) hname rfl
  | statement term, h, hplain => term.fits_lexemes h hplain

theorem fits_lexemesAll : (is : List Instruction) → checkAll is = .ok () → PlainAll is → Fits (lexemesAll is)
  | [], _, _ => Lexeme.fits_nil
  | i :: is, h, hplain => by
    rw [checkAll] at h
    obtain ⟨⟨⟩, hi, his⟩ := bind_eq_ok.1 h
    rw [lexemesAll]
    exact (fits_lexemes i hi hplain.1).sign (by decide) (fits_lexemesAll is his hplain.2)
end

end Instruction

namespace Script

def lexemes (s : Script) : List Lexeme :=
  s.instructions.flatMap fun i => i.lexemes ++ [.sign .outer]

theorem texts_lexemes (s : Script) : texts s.lexemes = (s.print {}).toList := by
  obtain ⟨is⟩ := s
  change texts (is.flatMap _) = (printLines {} is).toList
  induction is with
  | nil => rfl
  | cons i is ih =>
    rw [List.flatMap_cons, Lexeme.texts_append, ih]
    cases is with
    | nil => simp [printLines, i.texts_lexemes, Lexeme.text, Sign.text]
    | cons i' is => simp [printLines, i.texts_lexemes, Lexeme.text, Sign.text]

def Plain (s : Script) : Prop :=
  Instruction.PlainAll s.instructions

theorem fits_lexemes {s : Script} (h : s.validate = .ok ()) (hplain : s.Plain) : Fits s.lexemes := by
  obtain ⟨is⟩ := s
  change Instruction.checkAll is = .ok () at h
  change Instruction.PlainAll is at hplain
  change Fits (is.flatMap _)
  induction is with
  | nil => exact Lexeme.fits_nil
  | cons i is ih =>
    rw [Instruction.checkAll] at h
    obtain ⟨⟨⟩, hi, his⟩ := bind_eq_ok.1 h
    rw [List.flatMap_cons, List.append_assoc]
    exact (i.fits_lexemes hi hplain.1).sign (by decide) (ih his hplain.2)

theorem lexemes_eq_of_print_eq {s s' : Script} (h : s.validate = .ok ()) (hplain : s.Plain)
    (h' : s'.validate = .ok ()) (hplain' : s'.Plain) (heq : s.print {} = s'.print {}) : s.lexemes = s'.lexemes := by
  have hspaced : ∀ {s : Script}, s.validate = .ok () → s.Plain → Lexeme.Spaced s.lexemes := by
    intro s h hplain
    have hfits := fits_lexemes h hplain [] trivial Lexeme.stops_nil
    rwa [List.append_nil] at hfits
  apply Lexeme.eq_of_texts_eq (hspaced h hplain) (hspaced h' hplain')
  rw [texts_lexemes, texts_lexemes, heq]

end Script

end GraphQuery
