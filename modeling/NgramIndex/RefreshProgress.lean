import NgramIndex.Maintenance

/- The progress of one refresh. The expansion compares the mark and the bound
   with the number of rows the table stores, which is the end of its rowid space
   only while no discarded row group has left a hole in it. -/
namespace NgramRefreshProgress
open NgramMaintenance NgramProbe
variable {Text Key : Type} [DecidableEq Key]

structure RowGroup where
  start : Nat
  count : Nat
  deriving DecidableEq, Repr

/-- A table as the expansion finds it: the row groups it stores, and the rows
    that are visible to the maintenance transaction. -/
structure TableState (Text : Type) where
  rowGroups : List RowGroup
  nextRowId : Nat
  rows : List (BaseRow Text)
  deriving DecidableEq, Repr

/-- DataTable::GetTotalRows: the rows stored, deleted ones included. -/
def TableState.getTotalRows (t : TableState Text) : Nat := (t.rowGroups.map RowGroup.count).sum

/-- What the host keeps of any table: stored row groups in rowid order, with a
    hole wherever a checkpoint discarded one, and each committed row in one. -/
structure Stored (t : TableState Text) : Prop where
  groups : t.rowGroups.Pairwise fun a b => a.start + a.count ≤ b.start
  allocated : ∀ g ∈ t.rowGroups, g.start + g.count ≤ t.nextRowId
  space : t.nextRowId ≤ maxRowId
  distinct : (t.rows.map BaseRow.rowid).Nodup
  stored : ∀ row ∈ t.rows, row.rowid < maxRowId →
    ∃ g ∈ t.rowGroups, g.start ≤ row.rowid ∧ row.rowid < g.start + g.count

def TableState.committed (t : TableState Text) : List Nat :=
  (t.rows.map BaseRow.rowid).filter fun r => decide (r < maxRowId)

theorem mem_committed {t : TableState Text} {r : Nat} :
    r ∈ t.committed ↔ ∃ row ∈ t.rows, row.rowid = r ∧ r < maxRowId := by
  simp only [TableState.committed, List.mem_filter, List.mem_map, decide_eq_true_eq]
  constructor
  · rintro ⟨⟨row, present, rfl⟩, committed⟩
    exact ⟨row, present, rfl, committed⟩
  · rintro ⟨row, present, rfl, committed⟩
    exact ⟨⟨row, present, rfl⟩, committed⟩

/-- Disjoint row groups below an end hold at most as many rows as lie below it. -/
theorem groups_fit {groups : List RowGroup} {low high : Nat} (bounds : low ≤ high)
    (sorted : groups.Pairwise fun a b => a.start + a.count ≤ b.start)
    (first : ∀ g ∈ groups, low ≤ g.start) (below : ∀ g ∈ groups, g.start + g.count ≤ high) :
    (groups.map RowGroup.count).sum + low ≤ high := by
  induction groups generalizing low with
  | nil => simpa using bounds
  | cons g groups ih =>
    obtain ⟨after, rest_sorted⟩ := List.pairwise_cons.mp sorted
    have here := first g (by simp)
    have inside := below g (by simp)
    have rest := ih inside rest_sorted after fun other ho => below other (by simp [ho])
    simp only [List.map_cons, List.sum_cons]
    omega

theorem total_rows_fit {t : TableState Text} (stored : Stored t) : t.getTotalRows ≤ maxRowId := by
  have fit := groups_fit (Nat.zero_le t.nextRowId) stored.groups (fun g _ => Nat.zero_le _) stored.allocated
  have space := stored.space
  simp only [TableState.getTotalRows]
  omega

/-- One refresh call with nothing committed between its two phases. -/
def refresh (gramKeys : Text → List Key) (partitions : Nat) (t : TableState Text)
    (maxRows : Option Int) (index : IndexState Key) : Except String (IndexState Key) :=
  executeRefresh gramKeys (refreshScript index.hwm t.getTotalRows partitions maxRows) t.rows index

structure Progresses (gramKeys : Text → List Key) (t : TableState Text) (maxRows : Option Int)
    (index after : IndexState Key) : Prop where
  whole_tail : maxRows = none →
    (refreshSummary t.rows index.hwm after.hwm).remainingTail = 0 ∧
    (∀ r ∈ t.committed, (r : Int) ≤ after.hwm) ∧
    ∀ row ∈ t.rows, row.rowid ∈ t.committed → index.hwm < row.rowid → ∀ text, row.value = some text →
      ∀ key ∈ gramKeys text, Posted after.segments key row.rowid
  bounded : ∀ rows, maxRows = some rows → after.hwm ≤ index.hwm + rows ∧
    ∃ packed, after.segments = index.segments ++ packed ∧
      ∀ row ∈ packed, ∀ r ∈ row.rowids, (r : Int) ≤ after.hwm
  advances : 0 < (refreshSummary t.rows index.hwm after.hwm).remainingTail → index.hwm < after.hwm

/-- The two places where the expansion takes the row count for the end of the
    rowid space. -/
structure EndsAgree (t : TableState Text) (hwm : Int) (maxRows : Option Int) : Prop where
  tail : hwm < (t.getTotalRows : Int) - 1 ∨ ∀ r ∈ t.committed, (r : Int) ≤ hwm
  bound : ∀ rows, maxRows = some rows → boundedRefreshEnd hwm rows < (t.getTotalRows : Int) - 1 ∨
    ∀ r ∈ t.committed, (r : Int) ≤ hwm + rows

theorem no_tail_iff {t : TableState Text} {mark expanded : Int} :
    (refreshSummary t.rows expanded mark).remainingTail = 0 ↔ ∀ r ∈ t.committed, (r : Int) ≤ mark := by
  rw [refreshSummary, List.length_eq_zero_iff, List.eq_nil_iff_forall_not_mem]
  constructor
  · intro nothing r listed
    by_contra past
    obtain ⟨row, present, rfl, committed⟩ := mem_committed.mp listed
    exact nothing row.rowid (mem_committedAbove.mpr ⟨row, present, rfl, by omega, by omega⟩)
  · intro below r listed
    obtain ⟨row, present, rfl, past, committed⟩ := mem_committedAbove.mp listed
    have bound := below row.rowid (mem_committed.mpr ⟨row, present, rfl, by omega⟩)
    omega

theorem refresh_cases (gramKeys : Text → List Key) (partitions : Nat) (t : TableState Text)
    (maxRows : Option Int) (index : IndexState Key) :
    ((t.getTotalRows : Int) - 1 ≤ index.hwm ∧ refresh gramKeys partitions t maxRows index = .ok index) ∨
    (index.hwm < (t.getTotalRows : Int) - 1 ∧ ∃ pass,
      refreshScript index.hwm t.getTotalRows partitions maxRows = ⟨index.hwm, some pass⟩ ∧
      (pass.stopsShort = true ↔ refreshEnd index.hwm maxRows < (t.getTotalRows : Int) - 1) ∧
      pass.boundEnd = refreshEnd index.hwm maxRows ∧
      refresh gramKeys partitions t maxRows index = .ok
        { index.appendPacked (nextGeneration index.segments) (packRanges gramKeys t.rows pass.ranges) with
          hwm := refreshedHighWaterMark t.rows index.hwm index.hwm pass.stopsShort pass.boundEnd }) := by
  rcases refreshScript_cases index.hwm t.getTotalRows partitions maxRows with
    ⟨nothing, same⟩ | ⟨some_tail, pass, same, bound, short, _⟩
  · exact .inl ⟨nothing, by rw [refresh, same, executeRefresh, if_neg (by simp)]⟩
  · refine .inr ⟨some_tail, pass, same, ?_, bound, ?_⟩
    · rw [short, bound]
    · rw [refresh, same, executeRefresh, if_neg (by simp)]

omit [DecidableEq Key] in
/-- A refresh that packs nothing owes nothing where the mark covers the table. -/
theorem untouched_progresses_iff {gramKeys : Text → List Key} {t : TableState Text} {maxRows : Option Int}
    {index : IndexState Key} (some_row : ∀ rows, maxRows = some rows → 1 ≤ rows) :
    Progresses gramKeys t maxRows index index ↔ ∀ r ∈ t.committed, (r : Int) ≤ index.hwm := by
  constructor
  · intro progresses
    rw [← @no_tail_iff _ t index.hwm index.hwm]
    by_contra left
    have moved := progresses.advances (Nat.pos_of_ne_zero left)
    omega
  · intro covered
    refine ⟨?_, ?_, ?_⟩
    · intro _
      refine ⟨no_tail_iff.mpr covered, covered, fun row _ listed past => ?_⟩
      have low := covered row.rowid listed
      omega
    · intro rows same_rows
      have some := some_row rows same_rows
      exact ⟨by omega, [], by simp, by simp⟩
    · intro left
      rw [no_tail_iff.mpr covered] at left
      omega

section Marks
variable {t : TableState Text} {hwm mark : Int} {pass : RefreshPass} (settled : MarkSettled t.rows hwm pass mark)
include settled

theorem open_end_covers (open_end : pass.stopsShort = false) : ∀ r ∈ t.committed, (r : Int) ≤ mark := by
  intro r listed
  obtain ⟨row, present, rfl, committed⟩ := mem_committed.mp listed
  by_cases past : hwm < row.rowid
  · exact settled.covered row present past (by simp [RefreshPass.reach, open_end]; omega)
  · have forward := settled.forward
    omega

/-- A pass that stops short ends at its bound, and any other at the last committed row. -/
theorem mark_bounded {rows : Int} (some_row : 1 ≤ rows) (bound : pass.boundEnd ≤ hwm + rows)
    (within : pass.stopsShort = false → ∀ r ∈ t.committed, (r : Int) ≤ hwm + rows) : mark ≤ hwm + rows := by
  cases stops : pass.stopsShort with
  | true =>
    have reached := settled.reached
    simp only [RefreshPass.reach, stops, if_true] at reached
    omega
  | false =>
    rcases settled.witnessed with same | ⟨row, present, committed, below⟩
    · omega
    · have low := within stops row.rowid (mem_committed.mpr ⟨row, present, rfl, committed⟩)
      omega

theorem mark_advances (left : 0 < (refreshSummary t.rows hwm mark).remainingTail) : hwm < mark := by
  rcases Int.lt_or_eq_of_le settled.forward with moved | same
  · exact moved
  · have nothing := settled.progress same.symm
    simp only [refreshSummary, ← same, nothing, List.length_nil] at left
    omega

end Marks

/-- A refresh makes the progress it owes exactly when the row count does not
    hide rows past the mark, nor rows past the span of its bound. -/
theorem refresh_progresses_iff (gramKeys : Text → List Key) (partitions : Nat) {t : TableState Text}
    {maxRows : Option Int} {index : IndexState Key} (stored : Stored t) (mark : -1 ≤ index.hwm)
    (some_row : ∀ rows, maxRows = some rows → 1 ≤ rows) :
    (∃ after, refresh gramKeys partitions t maxRows index = .ok after ∧
      Progresses gramKeys t maxRows index after) ↔ EndsAgree t index.hwm maxRows := by
  have fits := total_rows_fit stored
  rcases refresh_cases gramKeys partitions t maxRows index with
    ⟨nothing, run⟩ | ⟨some_tail, pass, expanded, short, bound, run⟩
  · -- The expansion found no row past the mark and packs nothing.
    rw [run]
    constructor
    · rintro ⟨after, same, progresses⟩
      obtain rfl : index = after := Except.ok.inj same
      have covered := (untouched_progresses_iff some_row).mp progresses
      refine ⟨.inr covered, fun rows same_rows => .inr fun r listed => ?_⟩
      have low := covered r listed
      have some := some_row rows same_rows
      omega
    · intro agree
      have covered : ∀ r ∈ t.committed, (r : Int) ≤ index.hwm := by
        rcases agree.tail with past | covered
        · omega
        · exact covered
      exact ⟨index, rfl, (untouched_progresses_iff some_row).mpr covered⟩
  · have settled := @refreshedHighWaterMark_settled _ t.rows _ _ _ _ _ mark some_row fits expanded
    have posted := @pass_posted _ _ _ gramKeys t.rows _ _ _ _ _ fits expanded
    rw [run]
    constructor
    · rintro ⟨after, same, progresses⟩
      obtain rfl := Except.ok.inj same
      refine ⟨.inl some_tail, fun rows same_rows => ?_⟩
      have within := (progresses.bounded rows same_rows).1
      cases stops : pass.stopsShort with
      | true =>
        left
        have stopped := short.mp stops
        simpa only [same_rows, refreshEnd] using stopped
      | false =>
        right
        intro r listed
        exact (open_end_covers settled stops r listed).trans within
    · intro agree
      refine ⟨_, rfl, ?_, ?_, mark_advances settled⟩
      · intro unbounded
        have open_end : pass.stopsShort = false := by
          by_contra stops
          have stopped := short.mp (by simpa using stops)
          simp only [unbounded, refreshEnd] at stopped
          omega
        have whole := open_end_covers settled open_end
        refine ⟨no_tail_iff.mpr whole, whole, ?_⟩
        intro row present listed past text value key in_text
        obtain ⟨_, _, _, committed⟩ := mem_committed.mp listed
        refine posted_append.mpr (.inr (posted_stamp.mpr (posted.mpr
          ⟨row, present, text, rfl, value, in_text, past, ?_⟩)))
        simp only [RefreshPass.reach, open_end, Bool.false_eq_true, if_false]
        omega
      · intro rows same_rows
        have bounds := boundedRefreshEnd_bounds mark (some_row rows same_rows)
        simp only [same_rows, refreshEnd] at short bound
        refine ⟨mark_bounded settled (some_row rows same_rows) (bound ▸ bounds.1) fun open_end => ?_, _, rfl,
          fun row stamped r in_row => ?_⟩
        · rcases agree.bound rows same_rows with stopped | within
          · rw [short.mpr stopped] at open_end
            cases open_end
          · exact within
        · obtain ⟨base_row, present, _, rfl, _, _, past, reach⟩ := posted.mp
            (posted_stamp.mp ⟨row, stamped, rfl, in_row⟩)
          exact settled.covered base_row present past reach

def wholeText (text : String) : List String := [text]

def denseTable : TableState String := ⟨[⟨0, 5⟩], 5, [⟨0, some "cat"⟩, ⟨3, none⟩, ⟨4, some "dog"⟩]⟩

theorem denseTable_stored : Stored denseTable where
  groups := by decide
  allocated := by decide
  space := by decide
  distinct := by decide
  stored := by decide

theorem dense_table_refreshed : ∃ after,
    refresh wholeText 1 denseTable none (⟨0, [], 0⟩ : IndexState String) = .ok after ∧
    Progresses wholeText denseTable none ⟨0, [], 0⟩ after :=
  (refresh_progresses_iff wholeText 1 denseTable_stored (by decide) (by simp)).mpr
    ⟨by decide, by simp⟩

/-- Two full row groups were appended, the first of them indexed, deleted and
    discarded by a checkpoint. -/
def vacuumedTable : TableState String := ⟨[⟨122880, 122880⟩], 245760, [⟨122880, some "needle"⟩]⟩

def firstGroupIndex : IndexState String := ⟨122879, [], 0⟩

/-- The refresh stores nothing, reports a tail of one row and leaves the mark. -/
theorem vacuumed_table_refresh_stalls : Stored vacuumedTable ∧
    refresh wholeText 1 vacuumedTable none firstGroupIndex = .ok firstGroupIndex ∧
    ¬ ∃ after, refresh wholeText 1 vacuumedTable none firstGroupIndex = .ok after ∧
      Progresses wholeText vacuumedTable none firstGroupIndex after := by
  have run : refresh wholeText 1 vacuumedTable none firstGroupIndex = .ok firstGroupIndex := by decide
  refine ⟨⟨by decide, by decide, by decide, by decide, by decide⟩, run, ?_⟩
  rintro ⟨after, same, progresses⟩
  obtain rfl : firstGroupIndex = after := Except.ok.inj (run.symm.trans same)
  exact absurd (progresses.advances (by decide)) (by decide)

/-- Over the same hole a bounded refresh runs past its bound. -/
example : (refresh wholeText 1 ⟨[⟨245760, 122880⟩], 368640, [⟨245760, some "needle"⟩]⟩ (some 200000)
    (⟨-1, [], 0⟩ : IndexState String)).map IndexState.hwm = .ok 245760 := by decide +kernel

end NgramRefreshProgress
