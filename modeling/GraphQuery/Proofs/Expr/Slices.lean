import GraphQuery.Proofs.Parser.Completeness
import GraphQuery.Proofs.Token.Slices
import Mathlib

namespace GraphQuery

namespace Expr.Parser

open Located

variable {ts us : List Located} {e n : Expr} {es : List Expr}

theorem Row.exists_stands (h : Row ts es) (he : e ∈ es) : ∃ as us bs, ts = as ++ us ++ bs ∧ Stands us e := by
  induction es generalizing ts with
  | nil => cases he
  | cons e' es ih =>
    obtain _ | ⟨gap, us, vs, hts, hstands, hrest⟩ := h
    obtain rfl | he := List.mem_cons.1 he
    · exact ⟨gap, us, vs, hts, hstands⟩
    · obtain ⟨as, us', bs, rfl, hstands'⟩ := ih hrest he
      exact ⟨gap ++ us ++ as, us', bs, by simp [hts], hstands'⟩

theorem Stands.exists_stands (h : Stands ts e) (hn : n.Occurs e) : ∃ as us bs, ts = as ++ us ++ bs ∧ Stands us n := by
  induction hn generalizing ts with
  | here => exact ⟨[], ts, [], by simp, h⟩
  | inside hc _ ih =>
    obtain ⟨-, -, hparts⟩ := h
    obtain ⟨as, us, bs, rfl, hstands⟩ := hparts.exists_stands hc
    obtain ⟨as', us', bs', rfl, hstands'⟩ := ih hstands
    exact ⟨as ++ as', us', bs' ++ bs, by simp, hstands'⟩

theorem Stands.span_eq (h : Stands us e) (hus : Ordered us) : e.span = Located.extent us := by
  obtain ⟨-, hspan, -⟩ := h
  exact hspan hus

theorem Row.within (h : Row ts es) (hts : Ordered ts) (he : e ∈ es) :
    (Located.extent ts).start ≤ e.span.start ∧ e.span.stop ≤ (Located.extent ts).stop := by
  obtain ⟨as, us, bs, rfl, hstands⟩ := h.exists_stands he
  rw [hstands.span_eq hts.middle]
  exact hts.within hstands.ne_nil (by simp)

theorem Row.apart (h : Row ts es) (hts : Ordered ts) : es.Pairwise fun a b => a.span.stop ≤ b.span.start := by
  induction es generalizing ts with
  | nil => exact .nil
  | cons e es ih =>
    obtain _ | ⟨gap, us, vs, rfl, hstands, hrest⟩ := h
    refine .cons (fun b hb => ?_) (ih hrest (hts.sublist (by simp)))
    obtain ⟨as, us', bs, rfl, hstands'⟩ := hrest.exists_stands hb
    have hus' : us'.Sublist (as ++ us' ++ bs) :=
      (List.sublist_append_right as us').trans (List.sublist_append_left _ bs)
    have hpair : Ordered (us ++ us') := hts.sublist ((List.sublist_append_right gap us).append hus')
    rw [hstands.span_eq (hpair.sublist (by simp)), hstands'.span_eq (hpair.sublist (by simp))]
    exact hpair.apart_append hstands.ne_nil hstands'.ne_nil

end Expr.Parser

theorem Expr.Parser.Stands.complete_moved {us : List Located} {e : Expr} (h : Stands us e) (finish k : Nat) :
    complete finish (Located.moved k us) = .ok (e.down k) := by
  obtain ⟨hread, -, -⟩ := h
  exact Parser.complete_moved finish hread k

theorem Expr.parse_eq_ok {text : String} {t : Expr} : parse text = .ok t ↔
    ∃ us, Token.tokenize text = .ok us ∧ Parser.complete text.utf8ByteSize us = .ok t := by
  unfold parse
  split <;> simp_all

namespace Expr

open GraphQuery.Expr.Parser Located

/-- The span of every node of a text is not empty, holds the spans of the parts one after another and lies between
two positions of the text. What stands between them is read alone as the node. -/
theorem parse_extract {text : String} {t n : Expr} (h : parse text = .ok t) (hn : n.Occurs t) :
    n.span.start < n.span.stop ∧ n.span.stop ≤ text.utf8ByteSize ∧
      (∀ c ∈ n.children, n.span.start ≤ c.span.start ∧ c.span.stop ≤ n.span.stop) ∧
      n.children.Pairwise (fun a b => a.span.stop ≤ b.span.start) ∧
      ∃ p q : text.Pos, p.offset.byteIdx = n.span.start ∧ q.offset.byteIdx = n.span.stop ∧
        parse (text.extract p q) = .ok (n.down n.span.start) := by
  obtain ⟨ts, htokens, hcomplete⟩ := parse_eq_ok.1 h
  have hscanned : Token.Scanned 0 text.toList ts := Token.scanned_of_scan htokens
  obtain ⟨as, us, bs, rfl, hstands⟩ := (stands_of_complete _ hcomplete).exists_stands hn
  have hordered : Ordered us := hscanned.ordered.middle
  have hspan := hstands.span_eq hordered
  have hlt := hordered.extent_lt hstands.ne_nil
  obtain ⟨before, slice, after, htext, hextent, hslice⟩ := hscanned.slice hstands.ne_nil
  rw [← hspan] at hlt hextent
  have hparts : Row us n.children := by
    obtain ⟨-, -, hparts⟩ := hstands
    exact hparts
  obtain ⟨p, q, hp, hq, hextract⟩ := exists_extract_eq htext
  refine ⟨hlt, ?_, fun c hc => ?_, hparts.apart hordered, p, q, ?_, ?_, ?_⟩
  · rw [hextent]
    exact hq ▸ q.isValid.le_utf8ByteSize
  · rw [hspan]
    exact hparts.within hordered hc
  · rw [hp, hextent]
  · rw [hq, hextent]
  · rw [hextract, hextent]
    refine parse_eq_ok.2 ⟨_, ?_, hstands.complete_moved _ _⟩
    rw [Token.tokenize, String.toList_ofList]
    exact hslice.scan

theorem parse_extract_parentheses : ∃ t n : Expr, parse "'é' + (x . y)" = .ok t ∧ n.Occurs t ∧ n.span = ⟨7, 14⟩ ∧
    ∃ p q : ("'é' + (x . y)").Pos, p.offset.byteIdx = 7 ∧ q.offset.byteIdx = 14 ∧
      parse (String.extract p q) = .ok (.navigation ⟨0, 7⟩ (.var ⟨1, 2⟩ "x") "y") := by
  have hparse : parse "'é' + (x . y)" = .ok (.binary ⟨0, 14⟩ .add (.literal ⟨0, 4⟩ (.string "é"))
      (.navigation ⟨7, 14⟩ (.var ⟨8, 9⟩ "x") "y")) := by
    cbv
  have hoccurs : Occurs (.navigation ⟨7, 14⟩ (.var ⟨8, 9⟩ "x") "y") (.binary ⟨0, 14⟩ .add
      (.literal ⟨0, 4⟩ (.string "é")) (.navigation ⟨7, 14⟩ (.var ⟨8, 9⟩ "x") "y")) :=
    .inside (by simp [children]) .here
  obtain ⟨-, -, -, -, hslice⟩ := parse_extract hparse hoccurs
  exact ⟨_, _, hparse, hoccurs, rfl, hslice⟩

end Expr

end GraphQuery
