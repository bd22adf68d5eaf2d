import Mathlib.Data.List.Basic
import Mathlib.Data.List.Pairwise

/- The committed rows of a table as one query's snapshot sees them, the fetch by
   rowid and the committed scan bounded to an interval of rowids. A row group
   numbers its row slots from its start; discarded row groups leave holes between
   the groups that remain. -/
namespace NgramStorage
variable {Row : Type}

def standardVectorSize : Nat := 2048

/-- A slot holds no row where the snapshot sees none. -/
structure RowGroup (Row : Type) where
  start : Nat
  slots : List (Option Row)
  deriving DecidableEq, Repr

def RowGroup.count (g : RowGroup Row) : Nat := g.slots.length
def RowGroup.finish (g : RowGroup Row) : Nat := g.start + g.count

/-- The rows in a run of slots, with the rowids they have when the first slot
    is numbered first. -/
def visibleFrom (first : Nat) : List (Option Row) → List (Nat × Row)
  | [] => []
  | none :: rest => visibleFrom (first + 1) rest
  | some row :: rest => (first, row) :: visibleFrom (first + 1) rest

def RowGroup.visible (g : RowGroup Row) : List (Nat × Row) := visibleFrom g.start g.slots

structure DataTable (Row : Type) where
  rowGroups : List (RowGroup Row)
  nextRowId : Nat
  rowGroupSize : Nat
  ascending : rowGroups.Pairwise fun a b => a.finish ≤ b.start
  allocated : ∀ g ∈ rowGroups, g.finish ≤ nextRowId
  deriving DecidableEq

def visibleRows (groups : List (RowGroup Row)) : List (Nat × Row) := groups.flatMap RowGroup.visible

def DataTable.visible (t : DataTable Row) : List (Nat × Row) := visibleRows t.rowGroups

/-- The filters a storage scan evaluates. The zone maps of a row group may
    exclude it under the filters and a lower bound on the rowid, and only where
    none of its rows would pass them. -/
structure ScanFilters (Row : Type) where
  passes : Row → Bool
  excludes : Nat → RowGroup Row → Bool
  sound : ∀ startRow g, excludes startRow g = true → ∀ entry ∈ g.visible, startRow ≤ entry.1 →
    passes entry.2 = false

def seekRowGroup (startRow : Nat) (groups : List (RowGroup Row)) : List (RowGroup Row) :=
  groups.dropWhile fun g => decide (g.finish ≤ startRow)

/-- The rows a scan reads from one row group on from a vector, up to its end row. -/
def RowGroup.readFrom (g : RowGroup Row) (vectorIndex endRow : Nat) : List (Nat × Row) :=
  (visibleFrom (g.start + vectorIndex * standardVectorSize)
    (g.slots.drop (vectorIndex * standardVectorSize))).filter fun entry => decide (entry.1 < endRow)

/-- The row groups a positioned scan visits, the first from a vector on. -/
def scanRowGroups (filters : ScanFilters Row) (startRow endRow : Nat) :
    Nat → List (RowGroup Row) → List (Nat × Row)
  | _, [] => []
  | vectorIndex, g :: rest =>
      if endRow ≤ g.start then []
      else if filters.excludes startRow g then scanRowGroups filters startRow endRow 0 rest
      else g.readFrom vectorIndex endRow ++ scanRowGroups filters startRow endRow 0 rest

/-- InitializeBoundedScan and the scan it positions, under the filters and the
    caller's lower bound on the rowid. -/
def DataTable.boundedScan (t : DataTable Row) (filters : ScanFilters Row) (startRow endRow : Nat) :
    List (Nat × Row) :=
  match seekRowGroup startRow t.rowGroups with
  | [] => []
  | g :: rest =>
      let vectorIndex := if startRow ≤ g.start then 0 else (startRow - g.start) / standardVectorSize
      (scanRowGroups filters startRow endRow vectorIndex (g :: rest)).filter fun entry =>
        decide (startRow ≤ entry.1) && filters.passes entry.2

def RowGroup.numbers (rowid : Nat) (g : RowGroup Row) : Bool :=
  decide (g.start ≤ rowid ∧ rowid < g.finish)

def DataTable.fetchRow (t : DataTable Row) (rowid : Nat) : Option Row :=
  (t.rowGroups.find? (RowGroup.numbers rowid)).bind fun g => (g.slots[rowid - g.start]?).join

/-- DataTable::Fetch: the visible rows in the order asked, with their rowids. -/
def DataTable.fetch (t : DataTable Row) (rowids : List Nat) : List (Nat × Row) :=
  rowids.filterMap fun rowid => (t.fetchRow rowid).map fun row => (rowid, row)

theorem mem_visibleFrom {first r : Nat} {row : Row} {slots : List (Option Row)} :
    (r, row) ∈ visibleFrom first slots ↔ first ≤ r ∧ slots[r - first]? = some (some row) := by
  induction slots generalizing first with
  | nil => simp [visibleFrom]
  | cons slot rest ih =>
    have later : first + 1 ≤ r → r - first = (r - (first + 1)) + 1 := by omega
    have at_first : ¬ first + 1 ≤ r → first ≤ r → r = first := by omega
    cases slot with
    | none =>
      rw [visibleFrom, ih]
      constructor
      · rintro ⟨past, found⟩
        rw [later past]
        exact ⟨by omega, found⟩
      · rintro ⟨past, found⟩
        by_cases next : first + 1 ≤ r
        · rw [later next] at found
          exact ⟨next, found⟩
        · rw [at_first next past] at found
          simp at found
    | some head =>
      rw [visibleFrom, List.mem_cons, ih]
      constructor
      · rintro (same | ⟨past, found⟩)
        · cases same
          simp
        · rw [later past]
          exact ⟨by omega, found⟩
      · rintro ⟨past, found⟩
        by_cases next : first + 1 ≤ r
        · rw [later next] at found
          exact Or.inr ⟨next, found⟩
        · cases at_first next past
          simp only [Nat.sub_self, List.getElem?_cons_zero, Option.some.injEq] at found
          exact Or.inl (by rw [found])

theorem visibleFrom_bounds {first : Nat} {slots : List (Option Row)} {entry : Nat × Row}
    (present : entry ∈ visibleFrom first slots) : first ≤ entry.1 ∧ entry.1 < first + slots.length := by
  obtain ⟨past, found⟩ := mem_visibleFrom.mp present
  have inside := (List.getElem?_eq_some_iff.mp found).1
  omega

theorem RowGroup.visible_bounds {g : RowGroup Row} {entry : Nat × Row} (present : entry ∈ g.visible) :
    g.start ≤ entry.1 ∧ entry.1 < g.finish := visibleFrom_bounds present

theorem visibleFrom_ascending (first : Nat) (slots : List (Option Row)) :
    (visibleFrom first slots).Pairwise fun a b => a.1 < b.1 := by
  induction slots generalizing first with
  | nil => exact List.Pairwise.nil
  | cons slot rest ih =>
    cases slot with
    | none => exact ih (first + 1)
    | some row =>
      apply List.Pairwise.cons _ (ih (first + 1))
      intro entry present
      have bounds := visibleFrom_bounds present
      simp only
      omega

theorem visibleRows_ascending {groups : List (RowGroup Row)}
    (ascending : groups.Pairwise fun a b => a.finish ≤ b.start) :
    (visibleRows groups).Pairwise fun a b => a.1 < b.1 := by
  rw [visibleRows, List.pairwise_flatMap]
  constructor
  · intro g _
    exact visibleFrom_ascending g.start g.slots
  · apply ascending.imp
    intro a b apart x inA y inB
    have left := RowGroup.visible_bounds inA
    have right := RowGroup.visible_bounds inB
    omega

theorem DataTable.visible_ascending (t : DataTable Row) :
    t.visible.Pairwise fun a b => a.1 < b.1 := visibleRows_ascending t.ascending

theorem DataTable.visible_below (t : DataTable Row) {entry : Nat × Row} (present : entry ∈ t.visible) :
    entry.1 < t.nextRowId := by
  obtain ⟨g, stored, inside⟩ := List.mem_flatMap.mp present
  have bounds := RowGroup.visible_bounds inside
  have allocated := t.allocated g stored
  omega

theorem DataTable.visible_nodup (t : DataTable Row) : t.visible.Nodup := by
  apply t.visible_ascending.imp
  rintro a b less rfl
  exact Nat.lt_irrefl _ less

theorem visibleFrom_drop (first skip : Nat) (slots : List (Option Row)) :
    visibleFrom (first + skip) (slots.drop skip) =
      (visibleFrom first slots).filter fun entry => decide (first + skip ≤ entry.1) := by
  induction slots generalizing first skip with
  | nil => simp [visibleFrom]
  | cons slot rest ih =>
    cases skip with
    | zero =>
      rw [Nat.add_zero, List.drop_zero, List.filter_eq_self.mpr]
      intro entry present
      exact decide_eq_true (visibleFrom_bounds present).1
    | succ skip =>
      have shift : first + (skip + 1) = first + 1 + skip := by omega
      rw [List.drop_succ_cons, shift, ih]
      cases slot with
      | none => rfl
      | some row =>
        rw [visibleFrom, List.filter_cons_of_neg]
        simp only [decide_eq_true_eq]
        omega

section BoundedScan
variable {filters : ScanFilters Row} {startRow endRow : Nat}

def scanned (filters : ScanFilters Row) (startRow endRow : Nat) (entry : Nat × Row) : Bool :=
  decide (startRow ≤ entry.1 ∧ entry.1 < endRow) && filters.passes entry.2

theorem readFrom_filter {g : RowGroup Row} {vectorIndex : Nat}
    (before : vectorIndex = 0 ∨ g.start + vectorIndex * standardVectorSize ≤ startRow) :
    ((g.readFrom vectorIndex endRow).filter fun entry =>
        decide (startRow ≤ entry.1) && filters.passes entry.2) =
      g.visible.filter (scanned filters startRow endRow) := by
  rw [RowGroup.readFrom, visibleFrom_drop, List.filter_filter, List.filter_filter, RowGroup.visible]
  apply List.filter_congr
  intro entry present
  have first := (visibleFrom_bounds present).1
  have reached : startRow ≤ entry.1 → g.start + vectorIndex * standardVectorSize ≤ entry.1 := by
    intro past
    cases before with
    | inl zero => simpa [zero] using first
    | inr early => omega
  unfold scanned
  by_cases past : startRow ≤ entry.1
  · simp [past, reached past]
    exact Bool.and_comm _ _
  · simp [past]

theorem excluded_filter {g : RowGroup Row} (excluded : filters.excludes startRow g = true) :
    g.visible.filter (scanned filters startRow endRow) = [] := by
  apply List.filter_eq_nil_iff.mpr
  intro entry present
  unfold scanned
  by_cases past : startRow ≤ entry.1
  · simp [filters.sound startRow g excluded entry present past]
  · simp [past]

theorem scanRowGroups_filter {groups : List (RowGroup Row)} {vectorIndex : Nat}
    (ascending : groups.Pairwise fun a b => a.finish ≤ b.start)
    (before : vectorIndex = 0 ∨
      ∀ g ∈ groups.head?, g.start + vectorIndex * standardVectorSize ≤ startRow) :
    ((scanRowGroups filters startRow endRow vectorIndex groups).filter fun entry =>
        decide (startRow ≤ entry.1) && filters.passes entry.2) =
      (visibleRows groups).filter (scanned filters startRow endRow) := by
  induction groups generalizing vectorIndex with
  | nil => rfl
  | cons g rest ih =>
    obtain ⟨after, rest_ascending⟩ := List.pairwise_cons.mp ascending
    have rest_read := ih rest_ascending (Or.inl rfl)
    have split : visibleRows (g :: rest) = g.visible ++ visibleRows rest := List.flatMap_cons
    rw [scanRowGroups, split, List.filter_append]
    split_ifs with past_end excluded
    · -- every row of this group and of the later ones lies past the end row
      have none_here : ∀ entry ∈ g.visible ++ visibleRows rest, ¬ scanned filters startRow endRow entry := by
        intro entry present
        have high : g.start ≤ entry.1 := by
          rcases List.mem_append.mp present with here | later
          · exact (RowGroup.visible_bounds here).1
          · obtain ⟨other, stored, in_other⟩ := List.mem_flatMap.mp later
            have apart := after other stored
            have bounds := RowGroup.visible_bounds in_other
            simp only [RowGroup.finish] at apart
            omega
        have outside : ¬ entry.1 < endRow := by omega
        simp [scanned, outside]
      rw [← List.filter_append, List.filter_eq_nil_iff.mpr none_here]
      rfl
    · rw [excluded_filter excluded, rest_read]
      rfl
    · have here : vectorIndex = 0 ∨ g.start + vectorIndex * standardVectorSize ≤ startRow :=
        before.imp_right fun low => low g rfl
      rw [List.filter_append, readFrom_filter here, rest_read]

theorem seek_skips {groups : List (RowGroup Row)} :
    (visibleRows (seekRowGroup startRow groups)).filter (scanned filters startRow endRow) =
      (visibleRows groups).filter (scanned filters startRow endRow) := by
  induction groups with
  | nil => rfl
  | cons g rest ih =>
    rw [seekRowGroup, List.dropWhile_cons]
    split
    · rename_i ends
      have none_here : g.visible.filter (scanned filters startRow endRow) = [] := by
        apply List.filter_eq_nil_iff.mpr
        intro entry present
        have low := (RowGroup.visible_bounds present).2
        have early : g.finish ≤ startRow := of_decide_eq_true ends
        have outside : ¬ startRow ≤ entry.1 := by omega
        simp [scanned, outside]
      have split : visibleRows (g :: rest) = g.visible ++ visibleRows rest := List.flatMap_cons
      rw [split, List.filter_append, none_here]
      exact ih
    · rfl

theorem boundedScan_eq (t : DataTable Row) (filters : ScanFilters Row) (startRow endRow : Nat) :
    t.boundedScan filters startRow endRow = t.visible.filter (scanned filters startRow endRow) := by
  rw [DataTable.visible, ← seek_skips]
  have ascending : (seekRowGroup startRow t.rowGroups).Pairwise fun a b => a.finish ≤ b.start :=
    t.ascending.sublist (List.dropWhile_sublist _)
  unfold DataTable.boundedScan
  cases found : seekRowGroup startRow t.rowGroups with
  | nil => rfl
  | cons g rest =>
    rw [found] at ascending
    apply scanRowGroups_filter ascending
    split
    · exact Or.inl rfl
    · rename_i inner
      apply Or.inr
      intro first same
      cases same
      have multiple := Nat.div_mul_le_self (startRow - g.start) standardVectorSize
      omega

theorem seek_lands {groups : List (RowGroup Row)} {g : RowGroup Row} {startRow : Nat}
    (ascending : groups.Pairwise fun a b => a.finish ≤ b.start) (stored : g ∈ groups)
    (low : g.start ≤ startRow) (high : startRow < g.finish) :
    ∃ rest, seekRowGroup startRow groups = g :: rest ∧ ∀ other ∈ rest, g.finish ≤ other.start := by
  induction groups with
  | nil => cases stored
  | cons head rest ih =>
    obtain ⟨after, rest_ascending⟩ := List.pairwise_cons.mp ascending
    rcases List.mem_cons.mp stored with rfl | later
    · exact ⟨rest, List.dropWhile_cons_of_neg (by simp [high]), after⟩
    · have apart := after g later
      have skipped : seekRowGroup startRow (head :: rest) = seekRowGroup startRow rest :=
        List.dropWhile_cons_of_pos (decide_eq_true (by omega))
      rw [skipped]
      exact ih rest_ascending later

theorem scanRowGroups_sublist (filters : ScanFilters Row) (startRow endRow vectorIndex : Nat)
    (groups : List (RowGroup Row)) :
    (scanRowGroups filters startRow endRow vectorIndex groups).Sublist (visibleRows groups) := by
  induction groups generalizing vectorIndex with
  | nil => exact List.Sublist.slnil
  | cons g rest ih =>
    have split : visibleRows (g :: rest) = g.visible ++ visibleRows rest := List.flatMap_cons
    rw [scanRowGroups, split]
    split_ifs
    · exact List.nil_sublist _
    · exact (ih 0).trans (List.sublist_append_right _ _)
    · apply List.Sublist.append _ (ih 0)
      rw [RowGroup.readFrom, visibleFrom_drop]
      exact (List.filter_sublist ..).trans (List.filter_sublist ..)

theorem scanRowGroups_below {filters : ScanFilters Row} {startRow endRow vectorIndex : Nat}
    {groups : List (RowGroup Row)} {entry : Nat × Row}
    (visited : entry ∈ scanRowGroups filters startRow endRow vectorIndex groups) : entry.1 < endRow := by
  induction groups generalizing vectorIndex with
  | nil => cases visited
  | cons g rest ih =>
    rw [scanRowGroups] at visited
    split_ifs at visited with past excluded
    · cases visited
    · exact ih visited
    · rcases List.mem_append.mp visited with here | later
      · exact of_decide_eq_true (List.mem_filter.mp here).2
      · exact ih later

end BoundedScan

theorem fetchRow_eq_some (t : DataTable Row) (r : Nat) (row : Row) :
    t.fetchRow r = some row ↔ (r, row) ∈ t.visible := by
  have holds : ∀ g : RowGroup Row, (r, row) ∈ g.visible ↔
      g.numbers r = true ∧ g.slots[r - g.start]? = some (some row) := by
    intro g
    rw [RowGroup.numbers, decide_eq_true_eq]
    constructor
    · intro present
      exact ⟨RowGroup.visible_bounds present, (mem_visibleFrom.mp present).2⟩
    · rintro ⟨bounds, found⟩
      exact mem_visibleFrom.mpr ⟨bounds.1, found⟩
  rw [DataTable.fetchRow, DataTable.visible, visibleRows, List.mem_flatMap]
  have ascending := t.ascending
  generalize t.rowGroups = groups at ascending ⊢
  induction groups with
  | nil => simp
  | cons g rest ih =>
    obtain ⟨after, rest_ascending⟩ := List.pairwise_cons.mp ascending
    rw [List.exists_mem_cons_iff, holds g]
    by_cases here : g.numbers r = true
    · rw [List.find?_cons_of_pos here]
      -- the groups are disjoint, so no later one holds the rowid
      have not_later : ¬ ∃ other ∈ rest, (r, row) ∈ other.visible := by
        rintro ⟨other, stored, present⟩
        have apart := after other stored
        have bounds := RowGroup.visible_bounds present
        have ends := (of_decide_eq_true here).2
        simp only at bounds
        omega
      simp only [not_later, or_false, here, true_and, Option.bind_some]
      exact Option.join_eq_some_iff
    · rw [List.find?_cons_of_neg here]
      simp only [here, Bool.false_eq_true, false_and, false_or]
      exact ih rest_ascending

theorem mem_fetch (t : DataTable Row) {rowids : List Nat} {r : Nat} {row : Row} :
    (r, row) ∈ t.fetch rowids ↔ r ∈ rowids ∧ (r, row) ∈ t.visible := by
  rw [DataTable.fetch, List.mem_filterMap]
  constructor
  · rintro ⟨rowid, asked, found⟩
    obtain ⟨fetched, at_rowid, same⟩ := Option.map_eq_some_iff.mp found
    cases same
    exact ⟨asked, (fetchRow_eq_some t r row).mp at_rowid⟩
  · rintro ⟨asked, present⟩
    exact ⟨r, asked, by rw [(fetchRow_eq_some t r row).mpr present]; rfl⟩

end NgramStorage
