import GraphQuery.Token.Basic

namespace GraphQuery

namespace Span

def down (k : Nat) (s : Span) : Span :=
  ⟨s.start - k, s.stop - k⟩

theorem down_zero (s : Span) : s.down 0 = s :=
  rfl

theorem down_hull (k : Nat) (a b : Span) : (a.hull b).down k = (a.down k).hull (b.down k) := by
  simp only [down, hull, Nat.sub_min_sub_right, Nat.sub_max_sub_right]

end Span

namespace Located

def down (k : Nat) (t : Located) : Located :=
  ⟨t.token, t.span.down k⟩

def moved (k : Nat) (ts : List Located) : List Located :=
  ts.map (down k)

theorem moved_cons (k : Nat) (t : Token) (s : Span) (ts : List Located) :
    moved k (⟨t, s⟩ :: ts) = ⟨t, s.down k⟩ :: moved k ts :=
  rfl

theorem moved_append (k : Nat) (ts us : List Located) : moved k (ts ++ us) = moved k ts ++ moved k us :=
  List.map_append

theorem moved_zero (ts : List Located) : moved 0 ts = ts :=
  List.map_id ts

theorem map_token_moved (k : Nat) (ts : List Located) : (moved k ts).map (·.token) = ts.map (·.token) := by
  rw [moved, List.map_map]
  rfl

def extent (ts : List Located) : Span :=
  ⟨(ts.head?.map (·.span.start)).getD 0, (ts.getLast?.map (·.span.stop)).getD 0⟩

structure Ordered (ts : List Located) : Prop where
  nonempty : ∀ t ∈ ts, t.span.start < t.span.stop
  apart : ts.Pairwise fun t u => t.span.stop ≤ u.span.start

section Extent

variable {ts us vs : List Located}

theorem Ordered.sublist (h : Ordered ts) (hus : us.Sublist ts) : Ordered us :=
  ⟨fun t ht => h.nonempty t (hus.subset ht), h.apart.sublist hus⟩

theorem Ordered.middle (h : Ordered (ts ++ us ++ vs)) : Ordered us :=
  h.sublist ((List.sublist_append_right ts us).trans (List.sublist_append_left _ vs))

theorem extent_append (hus : us ≠ []) (hvs : vs ≠ []) (ts : List Located) :
    extent (us ++ ts ++ vs) = ⟨(extent us).start, (extent vs).stop⟩ := by
  obtain ⟨u, us, rfl⟩ := List.exists_cons_of_ne_nil hus
  have hlast : (u :: us ++ ts ++ vs).getLast? = vs.getLast? := by
    rw [List.getLast?_append, List.getLast?_eq_some_getLast hvs]
    rfl
  rw [extent, hlast]
  rfl

theorem exists_mem_extent (hts : ts ≠ []) :
    (∃ t ∈ ts, (extent ts).start = t.span.start) ∧ ∃ t ∈ ts, (extent ts).stop = t.span.stop := by
  constructor
  · refine ⟨ts.head hts, List.head_mem hts, ?_⟩
    rw [extent, List.head?_eq_some_head hts]
    rfl
  · refine ⟨ts.getLast hts, List.getLast_mem hts, ?_⟩
    rw [extent, List.getLast?_eq_some_getLast hts]
    rfl

theorem Ordered.apart_append (h : Ordered (us ++ vs)) (hus : us ≠ []) (hvs : vs ≠ []) :
    (extent us).stop ≤ (extent vs).start := by
  obtain ⟨-, t, ht, hstop⟩ := exists_mem_extent hus
  obtain ⟨⟨u, hu, hstart⟩, -⟩ := exists_mem_extent hvs
  rw [hstop, hstart]
  exact (List.pairwise_append.1 h.apart).2.2 t ht u hu

theorem Ordered.mem_within (h : Ordered ts) {t : Located} (ht : t ∈ ts) :
    (extent ts).start ≤ t.span.start ∧ t.span.stop ≤ (extent ts).stop := by
  have hlt := h.nonempty t ht
  constructor
  · obtain ⟨u, us, rfl⟩ := List.exists_cons_of_ne_nil (List.ne_nil_of_mem ht)
    obtain rfl | hmem := List.mem_cons.1 ht
    · exact Nat.le_refl _
    · have hu := h.nonempty u List.mem_cons_self
      have hapart : u.span.stop ≤ t.span.start := List.rel_of_pairwise_cons h.apart hmem
      exact Nat.le_trans (Nat.le_of_lt hu) hapart
  · obtain ⟨us, u, rfl⟩ : ∃ us u, ts = us ++ [u] :=
      ⟨_, _, (List.dropLast_concat_getLast (List.ne_nil_of_mem ht)).symm⟩
    have hu := h.nonempty u (by simp)
    have hlast : (extent (us ++ [u])).stop = u.span.stop := by simp [extent]
    rw [hlast]
    obtain hmem | hmem := List.mem_append.1 ht
    · have hapart : t.span.stop ≤ u.span.start :=
        (List.pairwise_append.1 h.apart).2.2 t hmem u (by simp)
      exact Nat.le_trans hapart (Nat.le_of_lt hu)
    · obtain rfl := List.mem_singleton.1 hmem
      exact Nat.le_refl _

theorem Ordered.extent_lt (h : Ordered ts) (hts : ts ≠ []) : (extent ts).start < (extent ts).stop := by
  obtain ⟨t, us, rfl⟩ := List.exists_cons_of_ne_nil hts
  obtain ⟨hstart, hstop⟩ := h.mem_within (t := t) (by simp)
  have hlt := h.nonempty t (by simp)
  omega

theorem Ordered.hull_extent (h : Ordered (us ++ ts ++ vs)) (hus : us ≠ []) (hvs : vs ≠ []) :
    (extent us).hull (extent vs) = extent (us ++ ts ++ vs) := by
  have hapart : (extent us).stop ≤ (extent vs).start :=
    (h.sublist ((List.sublist_append_left us ts).append (List.Sublist.refl vs))).apart_append hus hvs
  have hfirst := (h.sublist (List.append_assoc us ts vs ▸ List.sublist_append_left us (ts ++ vs))).extent_lt hus
  have hlast := (h.sublist (List.sublist_append_right (us ++ ts) vs)).extent_lt hvs
  rw [extent_append hus hvs, Span.hull, Nat.min_eq_left (by omega), Nat.max_eq_right (by omega)]

theorem Ordered.within (h : Ordered ts) (hus : us ≠ []) (hsub : us.Sublist ts) :
    (extent ts).start ≤ (extent us).start ∧ (extent us).stop ≤ (extent ts).stop := by
  obtain ⟨⟨t, ht, hstart⟩, u, hu, hstop⟩ := exists_mem_extent hus
  rw [hstart, hstop]
  exact ⟨(h.mem_within (hsub.subset ht)).1, (h.mem_within (hsub.subset hu)).2⟩

end Extent

end Located

theorem utf8ByteSize_ofList (cs : List Char) : (String.ofList cs).utf8ByteSize = byteLength cs := by
  induction cs with
  | nil => rfl
  | cons c cs ih =>
    have hcons : String.ofList (c :: cs) = String.singleton c ++ String.ofList cs := by
      rw [← String.toList_inj]
      simp
    rw [hcons, String.utf8ByteSize_append, String.utf8ByteSize_singleton, ih, byteLength_cons]

theorem utf8ByteSize_eq (text : String) : text.utf8ByteSize = byteLength text.toList := by
  rw [← utf8ByteSize_ofList, String.ofList_toList]

theorem exists_extract_eq {text : String} {before slice after : List Char}
    (h : text.toList = before ++ slice ++ after) : ∃ p q : text.Pos, p.offset.byteIdx = byteLength before ∧
      q.offset.byteIdx = byteLength (before ++ slice) ∧ text.extract p q = String.ofList slice := by
  obtain rfl : text = String.ofList before ++ String.ofList slice ++ String.ofList after := by
    rw [← String.ofList_append, ← String.ofList_append, ← h, String.ofList_toList]
  generalize hbefore : String.ofList before = b
  generalize hslice : String.ofList slice = s
  generalize String.ofList after = a
  have hp : b.rawEndPos.IsValid (b ++ s ++ a) := by
    rw [String.append_assoc]
    exact String.Pos.Raw.isValid_rawEndPos.append_right _
  have hq : (b ++ s).rawEndPos.IsValid (b ++ s ++ a) := String.Pos.Raw.isValid_rawEndPos.append_right _
  refine ⟨⟨_, hp⟩, ⟨_, hq⟩, ?_, ?_, ?_⟩
  · rw [← utf8ByteSize_ofList, hbefore]
    rfl
  · rw [← utf8ByteSize_ofList, String.ofList_append, hbefore, hslice]
    rfl
  · have hsize : (b ++ s).rawEndPos.byteIdx = (b.toByteArray ++ s.toByteArray).size := by
      rw [← String.toByteArray_append, String.size_toByteArray]
      rfl
    rw [← String.toByteArray_inj, String.toByteArray_extract, String.toByteArray_append, String.toByteArray_append,
      hsize, ByteArray.extract_append_size_left]
    exact ByteArray.extract_append_eq_right rfl ByteArray.size_append

theorem exists_positions {text : String} {before slice after : List Char}
    (h : text.toList = before ++ slice ++ after) : ∃ p q : text.Pos, p.offset.byteIdx = byteLength before ∧
      q.offset.byteIdx = byteLength (before ++ slice) ∧ (text.extract p q).toList = slice ∧
      (text.extract q text.endPos).toList = after := by
  have hend : text.toList = before ++ slice ++ after ++ [] := by rw [h, List.append_nil]
  obtain ⟨p, q, hp, hq, hslice⟩ := exists_extract_eq h
  obtain ⟨q', e, hq', he, hafter⟩ := exists_extract_eq hend
  obtain rfl : q' = q := by
    apply String.Pos.ext
    apply String.Pos.Raw.ext
    rw [hq', hq]
  obtain rfl : e = text.endPos := by
    apply String.Pos.ext
    apply String.Pos.Raw.ext
    rw [he, ← h, ← utf8ByteSize_eq]
    rfl
  exact ⟨p, q', hp, hq, by rw [hslice, String.toList_ofList], by rw [hafter, String.toList_ofList]⟩

end GraphQuery
