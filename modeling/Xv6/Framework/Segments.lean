/-!
# Segments between separators

`segments sep l` are the non-empty maximal segments of a list without `sep`, in
order. A separator cuts the segments of a list in two (`segments_append_cons`), and
one at the front or the end makes no difference.
-/

namespace Xv6

open List

variable {α : Type} [DecidableEq α] {sep : α} {l a : List α}

/-- The non-empty segments of a list between separators. -/
def segments (sep : α) (l : List α) : List (List α) := (l.splitOn sep).filter (· ≠ [])

theorem segments_nil : segments sep [] = [] := rfl

theorem segments_append_cons (sep : α) (l a : List α) : segments sep (l ++ sep :: a) = segments sep l ++ segments sep a := by
  have hcut : (l ++ sep :: a).splitOnP (· == sep) = l.splitOnP (· == sep) ++ a.splitOnP (· == sep) :=
    splitOnP_append_cons l a (beq_self_eq_true sep)
  rw [segments, List.splitOn, hcut, filter_append]
  rfl

theorem segments_cons (sep : α) (l : List α) : segments sep (sep :: l) = segments sep l := segments_append_cons sep [] l

theorem segments_of_notMem (h : sep ∉ l) (hl : l ≠ []) : segments sep l = [l] := by
  have hone : l.splitOnP (· == sep) = [l] := splitOnP_eq_singleton fun x hx => beq_eq_false_iff_ne.2 fun e => h (e ▸ hx)
  rw [segments, List.splitOn, hone, filter_cons_of_pos (by simpa using hl), filter_nil]

/-- The first segment. -/
theorem segments_append (h : sep ∉ a) (ha : a ≠ []) (hl : l = [] ∨ l.head? = some sep) : segments sep
    (a ++ l) = a :: segments sep l := by
  cases l with
  | nil => rw [append_nil, segments_of_notMem h ha, segments_nil]
  | cons x l =>
    obtain rfl : x = sep := Option.some_inj.1 (hl.resolve_left (cons_ne_nil _ _))
    rw [segments_append_cons, segments_of_notMem h ha, segments_cons]
    rfl

theorem segments_dropWhile (sep : α) (l : List α) : segments sep (l.dropWhile (· == sep)) = segments sep l := by
  induction l with
  | nil => rfl
  | cons x l ih =>
    rw [dropWhile_cons]
    split
    · rename_i hx
      rw [ih, eq_of_beq hx, segments_cons]
    · rfl

omit [DecidableEq α] in
theorem dropWhile_head (q : α → Bool) (l : List α) : l.dropWhile q = [] ∨ ∃ x t, l.dropWhile q = x :: t ∧ q x = false := by
  induction l with
  | nil => exact .inl rfl
  | cons x l ih =>
    rw [dropWhile_cons]
    split
    · exact ih
    · exact .inr ⟨x, l, rfl, Bool.eq_false_iff.2 ‹_›⟩

/-- The segments are found by skipping separators, a segment, and separators. -/
theorem segments_step (h : l.dropWhile (· == sep) ≠ []) :
    segments sep l = (l.dropWhile (· == sep)).takeWhile (· != sep) ::
      segments sep (((l.dropWhile (· == sep)).dropWhile (· != sep)).dropWhile (· == sep)) := by
  obtain ⟨x, t, hs, hx⟩ := (dropWhile_head (· == sep) l).resolve_left h
  rw [segments_dropWhile, ← segments_dropWhile sep l]
  generalize l.dropWhile (· == sep) = s at hs ⊢
  have hne : s.takeWhile (· != sep) ≠ [] := by
    rw [hs, takeWhile_cons, if_pos (by simpa using hx)]
    exact cons_ne_nil _ _
  have hfree : sep ∉ s.takeWhile (· != sep) := fun hmem => by
    have := all_eq_true.1 all_takeWhile sep hmem
    simp at this
  have hrest : s.dropWhile (· != sep) = [] ∨ (s.dropWhile (· != sep)).head? = some sep := by
    refine (dropWhile_head (· != sep) s).imp_right fun ⟨y, t, he, hy⟩ => ?_
    rw [he, head?_cons, Option.some_inj]
    simpa using hy
  conv => lhs; rw [← takeWhile_append_dropWhile (p := (· != sep)) (l := s)]
  exact segments_append hfree hne hrest

theorem ne_nil_of_mem_segments (h : a ∈ segments sep l) : a ≠ [] := of_decide_eq_true (mem_filter.1 h).2

end Xv6
