import Mathlib.Data.List.Induction
import Mathlib.Data.List.Nodup
import Mathlib.Data.List.Perm.Basic
import Mathlib.Order.MinMax

/- Half-open spans of a linear order. Spans that come in the order of their starts
   are joined to the last one where they touch it; read in turn, the joined spans
   read what they cover once and in order. -/
namespace DisjointSpans
variable {Point Entry : Type*} [LinearOrder Point] {start finish : Point}
  {pieces spans : List (Point × Point)}

def addSpan (spans : List (Point × Point)) (start finish : Point) : List (Point × Point) :=
  match spans.getLast? with
  | none => spans ++ [(start, finish)]
  | some back =>
      if start ≤ back.2 then spans.dropLast ++ [(back.1, max back.2 finish)] else spans ++ [(start, finish)]

def mergeSpans (pieces : List (Point × Point)) : List (Point × Point) :=
  pieces.foldl (fun spans piece => addSpan spans piece.1 piece.2) []

def Inside (span : Point × Point) (x : Point) : Prop := span.1 ≤ x ∧ x < span.2

def Covers (spans : List (Point × Point)) (x : Point) : Prop := ∃ span ∈ spans, Inside span x

structure Merged (pieces spans : List (Point × Point)) : Prop where
  nonempty : ∀ span ∈ spans, span.1 < span.2
  apart : spans.Pairwise fun a b => a.2 < b.1
  starts : ∀ span ∈ spans, ∃ piece ∈ pieces, piece.1 = span.1
  covers : ∀ x, Covers spans x ↔ Covers pieces x

theorem covers_append {front back : List (Point × Point)} {x : Point} :
    Covers (front ++ back) x ↔ Covers front x ∨ Covers back x := by
  unfold Covers
  simp only [List.mem_append, or_and_right, exists_or]

theorem covers_single {span : Point × Point} {x : Point} : Covers [span] x ↔ Inside span x := by
  simp [Covers]

/-- Two spans of which the second starts within the first or at its end. -/
theorem inside_joined {back : Point × Point} (later : back.1 ≤ start) (touches : start ≤ back.2)
    (x : Point) : Inside (back.1, max back.2 finish) x ↔ Inside back x ∨ Inside (start, finish) x := by
  unfold Inside
  constructor
  · intro within
    by_cases early : x < back.2
    · exact Or.inl ⟨within.1, early⟩
    · have past := not_lt.mp early
      have high : x < finish := (lt_max_iff.mp within.2).resolve_left early
      exact Or.inr ⟨touches.trans past, high⟩
  · intro either
    rcases either with first | second
    · exact ⟨first.1, lt_max_of_lt_left first.2⟩
    · exact ⟨later.trans second.1, lt_max_of_lt_right second.2⟩

theorem addSpan_merged (merged : Merged pieces spans) (nonempty : start < finish)
    (after : ∀ piece ∈ pieces, piece.1 ≤ start) :
    Merged (pieces ++ [(start, finish)]) (addSpan spans start finish) := by
  have later : ∀ span ∈ spans, span.1 ≤ start := by
    intro span present
    obtain ⟨piece, given, same⟩ := merged.starts span present
    rw [← same]
    exact after piece given
  have kept : ∀ span ∈ spans, ∃ piece ∈ pieces ++ [(start, finish)], piece.1 = span.1 := by
    intro span present
    obtain ⟨piece, given, same⟩ := merged.starts span present
    exact ⟨piece, List.mem_append_left _ given, same⟩
  have appended (apart : ∀ span ∈ spans, span.2 < start) :
      Merged (pieces ++ [(start, finish)]) (spans ++ [(start, finish)]) := by
    constructor
    · intro span present
      rcases List.mem_append.mp present with old | new
      · exact merged.nonempty span old
      · cases List.mem_singleton.mp new
        exact nonempty
    · apply List.pairwise_append.mpr
      refine ⟨merged.apart, List.pairwise_singleton _ _, ?_⟩
      intro span old other new
      cases List.mem_singleton.mp new
      exact apart span old
    · intro span present
      rcases List.mem_append.mp present with old | new
      · exact kept span old
      · exact ⟨span, List.mem_append_right _ new, rfl⟩
    · intro x
      rw [covers_append, covers_append, merged.covers]
  rcases List.eq_nil_or_concat spans with rfl | ⟨front, back, rfl⟩
  · exact appended fun span present => absurd present (by simp)
  · rw [List.concat_eq_append] at merged later kept appended ⊢
    have last_in : back ∈ front ++ [back] := by simp
    have order := List.pairwise_append.mp merged.apart
    have fronts_end : ∀ span ∈ front, span.2 < back.1 := fun span old =>
      order.2.2 span old back (by simp)
    have shape : addSpan (front ++ [back]) start finish =
        if start ≤ back.2 then front ++ [(back.1, max back.2 finish)]
        else front ++ [back] ++ [(start, finish)] := by
      simp [addSpan]
    rw [shape]
    split
    · rename_i touches
      constructor
      · intro span present
        rcases List.mem_append.mp present with old | new
        · exact merged.nonempty span (List.mem_append_left _ old)
        · cases List.mem_singleton.mp new
          exact lt_max_of_lt_left (merged.nonempty back last_in)
      · apply List.pairwise_append.mpr
        refine ⟨order.1, List.pairwise_singleton _ _, ?_⟩
        intro span old other new
        cases List.mem_singleton.mp new
        exact fronts_end span old
      · intro span present
        rcases List.mem_append.mp present with old | new
        · exact kept span (List.mem_append_left _ old)
        · cases List.mem_singleton.mp new
          exact kept back last_in
      · intro x
        rw [covers_append, covers_append, covers_single, covers_single,
          inside_joined (later back last_in) touches, ← merged.covers, covers_append, covers_single,
          or_assoc]
    · rename_i past
      apply appended
      intro span present
      rcases List.mem_append.mp present with old | new
      · have early := fronts_end span old
        have nonempty_back := merged.nonempty back last_in
        exact (early.trans nonempty_back).trans (not_le.mp past)
      · cases List.mem_singleton.mp new
        exact not_le.mp past

/-- Pieces in the order of their starts, joined where they touch. -/
theorem mergeSpans_merged (nonempty : ∀ piece ∈ pieces, piece.1 < piece.2)
    (ordered : pieces.Pairwise fun a b => a.1 ≤ b.1) : Merged pieces (mergeSpans pieces) := by
  induction pieces using List.reverseRecOn with
  | nil =>
    exact ⟨fun span present => absurd present (by simp [mergeSpans]), List.Pairwise.nil,
      fun span present => absurd present (by simp [mergeSpans]), fun x => Iff.rfl⟩
  | append_singleton front piece ih =>
    have order := List.pairwise_append.mp ordered
    have front_merged := ih (fun other given => nonempty other (List.mem_append_left _ given)) order.1
    rw [mergeSpans, List.foldl_append]
    exact addSpan_merged front_merged (nonempty piece (by simp)) fun other given =>
      order.2.2 other given piece (by simp)

theorem flatMap_ascending {place : Entry → Point} {read : Point × Point → List Entry}
    (apart : spans.Pairwise fun a b => a.2 < b.1)
    (ascending : ∀ span ∈ spans, (read span).Pairwise fun a b => place a < place b)
    (inside : ∀ span ∈ spans, ∀ entry ∈ read span, Inside span (place entry)) :
    (spans.flatMap read).Pairwise fun a b => place a < place b := by
  rw [List.pairwise_flatMap]
  refine ⟨ascending, ?_⟩
  apply apart.imp_of_mem
  intro a b here there before x inA y inB
  exact ((inside a here x inA).2.trans before).trans_le (inside b there y inB).1

theorem flatMap_filter {entries : List Entry} {place : Entry → Point} {wanted : Entry → Bool}
    {read : Point × Point → List Entry}
    (apart : spans.Pairwise fun a b => a.2 < b.1)
    (ascending : entries.Pairwise fun a b => place a < place b)
    (reads : ∀ span ∈ spans, read span = entries.filter fun entry =>
      decide (span.1 ≤ place entry ∧ place entry < span.2) && wanted entry)
    (covered : ∀ entry ∈ entries, wanted entry = true → Covers spans (place entry)) :
    spans.flatMap read = entries.filter wanted := by
  have in_order : (spans.flatMap read).Pairwise fun a b => place a < place b := by
    apply flatMap_ascending apart
    · intro span given
      rw [reads span given]
      exact ascending.filter _
    · intro span given entry present
      rw [reads span given] at present
      have within := (List.mem_filter.mp present).2
      simp only [Bool.and_eq_true, decide_eq_true_eq] at within
      exact within.1
  have distinct : ∀ {list : List Entry}, (list.Pairwise fun a b => place a < place b) → list.Nodup := by
    intro list sorted
    apply sorted.imp
    intro a b less same
    rw [same] at less
    exact lt_irrefl _ less
  have same : (spans.flatMap read).Perm (entries.filter wanted) := by
    rw [List.perm_ext_iff_of_nodup (distinct in_order) (distinct (ascending.filter _))]
    intro entry
    rw [List.mem_flatMap, List.mem_filter]
    constructor
    · intro found
      obtain ⟨span, given, present⟩ := found
      rw [reads span given, List.mem_filter, Bool.and_eq_true] at present
      exact ⟨present.1, present.2.2⟩
    · intro wants
      obtain ⟨span, given, within⟩ := covered entry wants.1 wants.2
      refine ⟨span, given, ?_⟩
      rw [reads span given, List.mem_filter, Bool.and_eq_true, decide_eq_true_eq]
      exact ⟨wants.1, within, wants.2⟩
  apply same.eq_of_pairwise _ in_order (ascending.filter _)
  intro a b _ _ before after
  exact absurd (before.trans after) (lt_irrefl _)

end DisjointSpans
