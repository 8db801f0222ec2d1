import Mathlib.Order.Bounds.Basic
import StackCompiler.Span

/-!
Joined spans. The span of a nested expression is built from those of its parts, two at a time and in
whatever grouping the nesting has. `IsHull` says what should come of it without saying how: the span
lies on the earliest line of the parts, and there it reaches from the least column to the greatest
end. Only one span does so, and which one depends only on what spans there are. So it is enough to
show that joining keeps to hulls, `IsHull.cover`; that order, grouping and repetition of the parts
do not matter follows from uniqueness, without a case split on their lines.
-/

namespace StackCompiler.Span

variable {s t r : Span} {spans others : List Span}

/-- A span is known by where it starts and where it stops. -/
theorem eq_of_stop_eq (hline : s.line = t.line) (hcolumn : s.column = t.column)
    (hstop : s.stop = t.stop) : s = t := by
  obtain ⟨line, column, length⟩ := s
  obtain ⟨line', column', length'⟩ := t
  obtain rfl : line = line' := hline
  obtain rfl : column = column' := hcolumn
  obtain rfl : length = length' := Nat.add_left_cancel hstop
  rfl

/-! ### Two spans -/

theorem cover_of_line_lt (h : s.line < t.line) : s.cover t = s := by
  have hstarts : t.startsBefore s = false := by
    simp [startsBefore, h.not_gt, h.ne']
  simp [cover, hstarts, h.ne]

theorem cover_of_line_gt (h : t.line < s.line) : s.cover t = t := by
  have hstarts : t.startsBefore s = true := by simp [startsBefore, h]
  simp [cover, hstarts, h.ne]

/-- Whichever of two spans on a line starts first, they are joined from the lesser column to the
greater end. -/
theorem cover_of_line_eq (h : s.line = t.line) :
    s.cover t = ⟨s.line, min s.column t.column,
      max s.stop t.stop - min s.column t.column⟩ := by
  by_cases hcolumn : t.column < s.column
  · have hstarts : t.startsBefore s = true := by simp [startsBefore, h, hcolumn]
    simp [cover, hstarts, h, max_comm, min_eq_right hcolumn.le]
  · have hstarts : t.startsBefore s = false := by simp [startsBefore, h, hcolumn]
    simp [cover, hstarts, h, min_eq_left (not_lt.1 hcolumn)]

/-- The length that is stored is never cut off at zero: the join stops where the later of the two
stops. -/
theorem stop_cover_of_line_eq (h : s.line = t.line) : (s.cover t).stop = max s.stop t.stop := by
  have hreaches : min s.column t.column ≤ max s.stop t.stop :=
    (min_le_left _ _).trans ((Nat.le_add_right _ _).trans (le_max_left _ _))
  rw [cover_of_line_eq h]
  exact Nat.add_sub_cancel' hreaches

theorem stop_cover_le (s t : Span) : (s.cover t).stop ≤ max s.stop t.stop := by
  rcases lt_trichotomy s.line t.line with h | h | h
  · rw [cover_of_line_lt h]
    exact le_max_left _ _
  · exact (stop_cover_of_line_eq h).le
  · rw [cover_of_line_gt h]
    exact le_max_right _ _

/-! ### Hulls -/

/-- `r` lies on the least line of `spans`, and among those on that line it starts at the least
column and stops at the greatest end. -/
structure IsHull (spans : List Span) (r : Span) : Prop where
  line : IsLeast {n | ∃ s ∈ spans, s.line = n} r.line
  column : IsLeast {n | ∃ s ∈ spans, s.line = r.line ∧ s.column = n} r.column
  stop : IsGreatest {n | ∃ s ∈ spans, s.line = r.line ∧ s.stop = n} r.stop

namespace IsHull

theorem single (s : Span) : IsHull [s] s := by
  constructor <;> simp [IsLeast, IsGreatest, lowerBounds, upperBounds]

theorem unique (hs : IsHull spans s) (ht : IsHull spans t) : s = t := by
  have hline : s.line = t.line := hs.line.unique ht.line
  have hcolumn := hs.column
  have hstop := hs.stop
  rw [hline] at hcolumn hstop
  exact eq_of_stop_eq hline (hcolumn.unique ht.column) (hstop.unique ht.stop)

/-- Neither the order nor the number of times that a span occurs is seen. -/
theorem of_mem_iff (h : IsHull spans r) (hmem : ∀ s, s ∈ spans ↔ s ∈ others) :
    IsHull others r := by
  obtain ⟨hline, hcolumn, hstop⟩ := h
  simp only [hmem] at hline hcolumn hstop
  exact ⟨hline, hcolumn, hstop⟩

/-- Spans that all lie on later lines change nothing. -/
theorem append_of_line_lt (hs : IsHull spans s) (ht : IsHull others t) (h : s.line < t.line) :
    IsHull (spans ++ others) s := by
  have hlater : ∀ u ∈ others, s.line < u.line := fun u hu =>
    h.trans_le (ht.line.2 ⟨u, hu, rfl⟩)
  have honLine : ∀ u, (u ∈ spans ++ others ∧ u.line = s.line) ↔ u ∈ spans ∧ u.line = s.line := by
    intro u
    refine ⟨fun hu => ⟨?_, hu.2⟩, fun hu => ⟨List.mem_append_left _ hu.1, hu.2⟩⟩
    rcases List.mem_append.1 hu.1 with hmem | hmem
    · exact hmem
    · exact absurd hu.2 (hlater u hmem).ne'
  refine ⟨⟨?_, ?_⟩, ?_, ?_⟩
  · obtain ⟨u, hu, hline⟩ := hs.line.1
    exact ⟨u, List.mem_append_left _ hu, hline⟩
  · rintro n ⟨u, hu, rfl⟩
    rcases List.mem_append.1 hu with hmem | hmem
    · exact hs.line.2 ⟨u, hmem, rfl⟩
    · exact (hlater u hmem).le
  · simpa only [← and_assoc, honLine] using hs.column
  · simpa only [← and_assoc, honLine] using hs.stop

/-- On one line the extremes of two parts are those of the whole. -/
theorem append_of_line_eq (hs : IsHull spans s) (ht : IsHull others t) (h : s.line = t.line) :
    IsHull (spans ++ others) (s.cover t) := by
  have hline : (s.cover t).line = s.line := by rw [cover_of_line_eq h]
  have hcolumn : (s.cover t).column = min s.column t.column := by rw [cover_of_line_eq h]
  obtain ⟨sline, scolumn, sstop⟩ := hs
  obtain ⟨tline, tcolumn, tstop⟩ := ht
  rw [← h] at tline tcolumn tstop
  constructor
  · rw [hline]
    simpa [Set.ofPred_or, or_and_right, exists_or] using sline.union tline
  · rw [hline, hcolumn]
    simpa [Set.ofPred_or, or_and_right, exists_or] using scolumn.union tcolumn
  · rw [hline, stop_cover_of_line_eq h]
    simpa [Set.ofPred_or, or_and_right, exists_or] using sstop.union tstop

/-- The step: a join is the hull of all that its two sides are hulls of. -/
theorem cover (hs : IsHull spans s) (ht : IsHull others t) :
    IsHull (spans ++ others) (s.cover t) := by
  rcases lt_trichotomy s.line t.line with h | h | h
  · rw [cover_of_line_lt h]
    exact hs.append_of_line_lt ht h
  · exact hs.append_of_line_eq ht h
  · rw [cover_of_line_gt h]
    refine (ht.append_of_line_lt hs h).of_mem_iff fun u => ?_
    rw [List.mem_append, List.mem_append, or_comm]

end IsHull

/-! ### Any number of spans -/

/-- Spans in the order and grouping in which they are joined. -/
inductive Grouping where
  | span (s : Span)
  | join (left right : Grouping)

namespace Grouping

def leaves : Grouping → List Span
  | span s => [s]
  | join left right => left.leaves ++ right.leaves

def cover : Grouping → Span
  | span s => s
  | join left right => left.cover.cover right.cover

/-- The run: the induction is on the grouping, with `IsHull.cover` for each join. -/
theorem isHull_cover (g : Grouping) : IsHull g.leaves g.cover := by
  induction g with
  | span s => exact .single s
  | join left right hleft hright => exact hleft.cover hright

/-- Groupings of the same spans agree. -/
theorem cover_eq_of_mem_iff (g g' : Grouping) (h : ∀ s, s ∈ g.leaves ↔ s ∈ g'.leaves) :
    g.cover = g'.cover :=
  (g.isHull_cover.of_mem_iff h).unique g'.isHull_cover

end Grouping

theorem cover_comm (s t : Span) : s.cover t = t.cover s :=
  Grouping.cover_eq_of_mem_iff (.join (.span s) (.span t)) (.join (.span t) (.span s))
    fun u => by simp [Grouping.leaves, or_comm]

theorem cover_assoc (s t u : Span) : (s.cover t).cover u = s.cover (t.cover u) :=
  Grouping.cover_eq_of_mem_iff (.join (.join (.span s) (.span t)) (.span u))
    (.join (.span s) (.join (.span t) (.span u))) fun v => by simp [Grouping.leaves]

theorem cover_self (s : Span) : s.cover s = s :=
  Grouping.cover_eq_of_mem_iff (.join (.span s) (.span s)) (.span s)
    fun u => by simp [Grouping.leaves]

/-- Joining spans is commutative, associative and idempotent. No join reaches past both of its
sides, so that ends below a bound stay below it. A list of spans that is joined in any order and
grouping gives the span on their least line that starts at the least column and stops at the
greatest end found there. -/
theorem cover_semilattice :
    (∀ s t : Span, s.cover t = t.cover s) ∧
    (∀ s t u : Span, (s.cover t).cover u = s.cover (t.cover u)) ∧
    (∀ s : Span, s.cover s = s) ∧
    (∀ s t : Span, (s.cover t).stop ≤ max s.stop t.stop) ∧
    ∀ (spans : List Span) (g : Grouping), g.leaves.Perm spans → IsHull spans g.cover := by
  refine ⟨cover_comm, cover_assoc, cover_self, stop_cover_le, fun spans g hperm => ?_⟩
  exact g.isHull_cover.of_mem_iff fun s => hperm.mem_iff

/-- A span on a later line is dropped and the two others are joined, although the one between them
in the list is that of the later line. -/
theorem cover_semilattice_twoLines :
    (Grouping.join (.span ⟨1, 9, 2⟩) (.join (.span ⟨2, 1, 40⟩) (.span ⟨1, 4, 3⟩))).cover
        = ⟨1, 4, 7⟩ ∧
      IsHull [⟨1, 4, 3⟩, ⟨1, 9, 2⟩, ⟨2, 1, 40⟩] ⟨1, 4, 7⟩ :=
  ⟨by decide, cover_semilattice.2.2.2.2 _
    (.join (.span ⟨1, 9, 2⟩) (.join (.span ⟨2, 1, 40⟩) (.span ⟨1, 4, 3⟩))) (by decide)⟩

end StackCompiler.Span
