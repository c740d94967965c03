import GraphQuery.Proofs.Token.LongestMatch
import Mathlib

/-!
Tokens tile their text: between them stand blanks and comments only, and each is read from its own text alone.
-/

namespace GraphQuery.Token

open Located

/-- Blanks and comments before the rest of a text. A comment runs to a line feed or to the end of the text. -/
inductive Gap (rest : List Char) : List Char → Prop
  | nil : Gap rest []
  | blank {c : Char} {gap : List Char} (hc : isBlank c = true) (h : Gap rest gap) : Gap rest (c :: gap)
  | comment {line gap : List Char} (hline : '\n' ∉ line) (hend : ∀ c, (gap ++ rest).head? = some c → c = '\n')
      (h : Gap rest gap) : Gap rest ('-' :: '-' :: (line ++ gap))

/-- The tokens follow one another in the text. Before each of them and after the last one there is a gap, each of them
stands between two positions, and what is there is the longest match and read alone as the token. -/
structure Tiles (text : String) (ts : List Located) : Prop extends Ordered ts where
  gap : ∀ us vs, ts = us ++ vs → ∃ p q : text.Pos,
    p.offset.byteIdx = (us.getLast?.map (·.span.stop)).getD 0 ∧
    q.offset.byteIdx = (vs.head?.map (·.span.start)).getD text.utf8ByteSize ∧
    Gap (text.extract q text.endPos).toList (text.extract p q).toList
  alone : ∀ t ∈ ts, ∃ p q : text.Pos, p.offset.byteIdx = t.span.start ∧ q.offset.byteIdx = t.span.stop ∧
    tokenize (text.extract p q) = .ok [⟨t.token, ⟨0, (text.extract p q).utf8ByteSize⟩⟩] ∧
    IsLongest t.token (text.extract p q).toList (text.extract q text.endPos).toList

section Skipped

variable {c : Char} {cs : List Char} {n : Nat}

theorem number_ne_skipped : number c cs ≠ ⟨.skipped, n⟩ := by
  have hinteger : ∀ whole, number.integerPiece c whole ≠ ⟨.skipped, n⟩ := by
    intro whole h
    unfold number.integerPiece at h
    dsimp only at h
    split at h <;> cases h
  unfold number
  dsimp only
  split
  · split
    · exact hinteger _
    · intro h
      cases h
  · exact hinteger _

theorem quotedString_ne_skipped : quotedString c cs ≠ ⟨.skipped, n⟩ := by
  intro h
  unfold quotedString at h
  dsimp only at h
  split at h <;> cases h

theorem piece_skipped (h : piece c cs = ⟨.skipped, n⟩) : isBlank c = true ∧ n = 0 ∨
    ∃ line, c :: cs.take n = '-' :: '-' :: line ∧ '\n' ∉ line ∧ ∀ d, (cs.drop n).head? = some d → d = '\n' := by
  unfold piece at h
  split at h
  · cases h
    exact .inl ⟨‹_›, rfl⟩
  split at h
  · rename_i hcomment
    cases h
    obtain ⟨rfl, hhead⟩ : c = '-' ∧ cs.head? = some '-' := by simpa using hcomment
    obtain ⟨cs, rfl⟩ := List.head?_eq_some_iff.1 hhead
    right
    rw [List.takeWhile_cons_of_pos (by decide), List.length_cons, List.take_succ_cons, List.drop_succ_cons,
      take_length_takeWhile, drop_length_takeWhile]
    refine ⟨cs.takeWhile (· != '\n'), rfl, fun hmem => ?_, fun d hd => ?_⟩
    · simpa using List.mem_takeWhile_imp hmem
    · have hnot := List.head?_dropWhile_not (· != '\n') cs
      rw [hd] at hnot
      simpa using hnot
  split at h
  · exact absurd h number_ne_skipped
  split at h
  · exact absurd h quotedString_ne_skipped
  split at h
  · cases h
  split at h
  · cases h
  · cases h

end Skipped

theorem Gap.skip {c : Char} {cs gap rest : List Char} {n : Nat} (h : piece c cs = ⟨.skipped, n⟩)
    (hcs : cs.drop n = gap ++ rest) (hgap : Gap rest gap) : Gap rest (c :: cs.take n ++ gap) := by
  rcases piece_skipped h with ⟨hblank, rfl⟩ | ⟨line, heq, hline, hend⟩
  · exact .blank hblank hgap
  · rw [hcs] at hend
    rw [heq]
    exact .comment hline hend hgap

inductive Tiled : List Char → List Char → List Located → Prop
  | last {before gap : List Char} (hgap : Gap [] gap) : Tiled before gap []
  | token {before gap w rest : List Char} {c : Char} {t : Token} {us : List Located}
      (hgap : Gap (c :: (w ++ rest)) gap) (hpiece : piece c (w ++ rest) = ⟨.token t, w.length⟩)
      (hlongest : IsLongest t (c :: w) rest) (hrest : Tiled (before ++ gap ++ c :: w) rest us) :
      Tiled before (gap ++ c :: (w ++ rest))
        (⟨t, ⟨byteLength (before ++ gap), byteLength (before ++ gap ++ c :: w)⟩⟩ :: us)

section Tiled

variable {before cs : List Char} {ts us vs : List Located}

theorem Tiled.extend {as : List Char} (h : Tiled (before ++ as) cs us)
    (hgap : ∀ gap rest, cs = gap ++ rest → Gap rest gap → Gap rest (as ++ gap)) : Tiled before (as ++ cs) us := by
  cases h with
  | last h => exact .last (hgap _ [] (List.append_nil _).symm h)
  | @token _ gap w rest c t us h hpiece hlongest hrest =>
    rw [List.append_assoc before as gap] at hrest ⊢
    rw [← List.append_assoc as]
    exact .token (hgap _ _ rfl h) hpiece hlongest hrest

theorem Scanned.tiled {offset : Nat} (h : Scanned offset cs us) (hoffset : offset = byteLength before) :
    Tiled before cs us := by
  induction h generalizing before with
  | nil => exact .last .nil
  | @skip offset c cs n us h _ ih =>
    have htiled : Tiled (before ++ c :: cs.take n) (cs.drop n) us := by
      apply ih
      rw [hoffset, byteLength_append]
    have hcs : c :: cs = c :: cs.take n ++ cs.drop n := by rw [List.cons_append, List.take_append_drop]
    rw [hcs]
    exact htiled.extend fun gap rest hdrop hgap => hgap.skip h hdrop
  | @token offset c cs n t us h _ ih =>
    obtain ⟨w, rest, rfl, rfl, hlongest⟩ := piece_isLongest h
    rw [List.take_left, hoffset, ← byteLength_append]
    rw [List.take_left, List.drop_left, hoffset, ← byteLength_append] at ih
    have hrest : Tiled (before ++ [] ++ c :: w) rest us := by
      rw [List.append_nil]
      exact ih rfl
    have htoken := Tiled.token .nil h hlongest hrest
    rwa [List.append_nil] at htoken

theorem Tiled.split (h : Tiled before cs (us ++ vs)) : ∃ before' cs', before ++ cs = before' ++ cs' ∧
    (us.getLast?.map (·.span.stop)).getD (byteLength before) = byteLength before' ∧ Tiled before' cs' vs := by
  induction us generalizing before cs with
  | nil => exact ⟨before, cs, rfl, rfl, h⟩
  | cons u us ih =>
    cases h with
    | token hgap hpiece hlongest hrest =>
      obtain ⟨before', cs', heq, hstop, htiled⟩ := ih hrest
      refine ⟨before', cs', ?_, ?_, htiled⟩
      · rw [← heq]
        simp
      · rw [← hstop, List.getLast?_cons]
        cases us.getLast? <;> rfl

theorem Tiled.exists_gap (h : Tiled [] cs (us ++ vs)) : ∃ before gap after, cs = before ++ gap ++ after ∧
    byteLength before = (us.getLast?.map (·.span.stop)).getD 0 ∧
    byteLength (before ++ gap) = (vs.head?.map (·.span.start)).getD (byteLength cs) ∧ Gap after gap := by
  obtain ⟨before, cs', heq, hstop, htiled⟩ := h.split
  rw [List.nil_append] at heq
  subst heq
  cases htiled with
  | last hgap => exact ⟨before, cs', [], (List.append_nil _).symm, hstop.symm, rfl, hgap⟩
  | token hgap => exact ⟨before, _, _, (List.append_assoc ..).symm, hstop.symm, rfl, hgap⟩

theorem Tiled.exists_token {t : Located} (h : Tiled [] cs ts) (ht : t ∈ ts) : ∃ before slice after,
    cs = before ++ slice ++ after ∧ t.span = ⟨byteLength before, byteLength (before ++ slice)⟩ ∧
    scan 0 slice = .ok [⟨t.token, ⟨0, byteLength slice⟩⟩] ∧ IsLongest t.token slice after := by
  obtain ⟨us, vs, rfl⟩ := List.append_of_mem ht
  obtain ⟨before, cs', heq, -, htiled⟩ := h.split
  rw [List.nil_append] at heq
  subst heq
  cases htiled with
  | @token _ gap w rest c t us hgap hpiece hlongest =>
    have halone : piece c w = ⟨.token t, w.length⟩ := piece_cut hpiece (by simp) (Nat.le_refl _)
    exact ⟨before ++ gap, c :: w, rest, by simp, rfl, scan_of_piece halone, hlongest⟩

end Tiled

/-- The tokens of a text tile it: they are not empty, stand in order between positions of the text and do not overlap,
the text around them holds blanks and comments only, and the text of each is the longest match there and is read alone
as the token. -/
theorem tokenize_tiles {text : String} {ts : List Located} (h : tokenize text = .ok ts) : Tiles text ts := by
  have hscanned : Scanned 0 text.toList ts := scanned_of_scan h
  have htiled : Tiled [] text.toList ts := hscanned.tiled rfl
  refine ⟨hscanned.ordered, ?_, ?_⟩
  · rintro us vs rfl
    obtain ⟨before, gap, after, htext, hstop, hstart, hgap⟩ := htiled.exists_gap
    obtain ⟨p, q, hp, hq, hslice, hrest⟩ := exists_positions htext
    refine ⟨p, q, hp.trans hstop, ?_, ?_⟩
    · rw [hq, hstart, utf8ByteSize_eq]
    · rwa [hslice, hrest]
  · intro t ht
    obtain ⟨before, slice, after, htext, hspan, hscan, hlongest⟩ := htiled.exists_token ht
    obtain ⟨p, q, hp, hq, hslice, hrest⟩ := exists_positions htext
    refine ⟨p, q, ?_, ?_, ?_, ?_⟩
    · rw [hp, hspan]
    · rw [hq, hspan]
    · rw [tokenize, utf8ByteSize_eq, hslice, hscan]
    · rwa [hslice, hrest]

theorem tokenize_tiles_comment : ∃ ts, tokenize "a-->é\n->'ü'" = .ok ts ∧
    ts.map (·.span) = [⟨0, 1⟩, ⟨7, 9⟩, ⟨9, 13⟩] ∧ Tiles "a-->é\n->'ü'" ts := by
  have htokens : tokenize "a-->é\n->'ü'" =
      .ok [⟨.identifier "a", ⟨0, 1⟩⟩, ⟨.mark .arrow, ⟨7, 9⟩⟩, ⟨.string "ü", ⟨9, 13⟩⟩] := by
    cbv
  exact ⟨_, htokens, rfl, tokenize_tiles htokens⟩

end GraphQuery.Token
