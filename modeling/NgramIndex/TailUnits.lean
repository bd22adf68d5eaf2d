import NgramIndex.BatchOrder

/- The tail units of a search over row groups that stay as they are. Units are cut
   at rowids and scans start at vectors of a row group, so a scan reads rows of
   other units too, and its lower bound on the rowid leaves them out. -/
namespace NgramSearchCore
open LabelledRun NgramCandidateQueue WorkLedger
open NgramStorage
open scoped List
variable {Row : Type} {core : SearchCore} {filters : ScanFilters Row} {t : DataTable Row}
  {localRows : List Row}

def TailPlan.scanUnit (tail : TailPlan) (filters : ScanFilters Row) (t : DataTable Row) (unit : Nat) :
    List (Nat × Row) :=
  t.boundedScan filters (tail.unitStart unit) (tail.unitEnd unit)

theorem mem_scanUnit {tail : TailPlan} (positive : 0 < tail.tailUnitRows) {unit : Nat} {entry : Nat × Row} :
    entry ∈ tail.scanUnit filters t unit ↔
      entry ∈ t.visible ∧ filters.passes entry.2 = true ∧ tail.unitOf entry.1 = some unit := by
  rw [TailPlan.scanUnit, boundedScan_eq, List.mem_filter, unitOf_eq positive]
  simp only [scanned, Bool.and_eq_true, decide_eq_true_eq]
  exact and_congr_right fun _ => And.comm

structure TailState (Row : Type) where
  search : SearchState Row
  emitted : List Row

/-- What a turn of a worker that scans a unit adds to the output. -/
def unitEmits (s u : SearchState Row) : SearchEvent Row → List Row
  | .run w _ =>
      match s.locals[w]? with
      | some (.reading _) => u.emitted.drop s.emitted.length
      | _ => []
  | .finalize | .commit _ _ | .checkpoint _ => []

def tailStep [DecidableEq Row] (core : SearchCore) (filters : ScanFilters Row) (s : TailState Row)
    (e : SearchEvent Row) : Option (TailState Row) :=
  (searchStep core filters s.search e).map fun u => ⟨u, s.emitted ++ unitEmits s.search u e⟩

/-- The row groups stay as they are while the query runs. -/
def FixedRows : SearchEvent Row → Prop
  | .finalize | .run _ _ => True
  | .commit _ _ | .checkpoint _ => False

instance : ∀ e : SearchEvent Row, Decidable (FixedRows e)
  | .finalize | .run _ _ => isTrue trivial
  | .commit _ _ | .checkpoint _ => isFalse id

def Local.scans : Local Row → List Row
  | .reading left => left
  | _ => []

/-- What the units have emitted and still hold is what the units begun read. -/
structure Scanning (core : SearchCore) (filters : ScanFilters Row) (t : DataTable Row) (localRows : List Row)
    (s : TailState Row) : Prop where
  counted : Counted s.search
  table : s.search.table = t
  localRows : s.search.localRows = localRows
  planned : ∀ tail, s.search.tail = some tail → tail = finalizeSearchCore core t
  rows : Conserved Local.scans s.search.locals s.emitted (s.search.begun.flatMap (s.search.rowsOf filters))

/-- A turn that neither begins a unit nor emits from one. -/
theorem scanning_kept {s : TailState Row} {u : SearchState Row} {w : Nat} {old new : Local Row}
    (scanning : Scanning core filters t localRows s) (counted : Counted u)
    (at_w : s.search.locals[w]? = some old) (locals : u.locals = s.search.locals.set w new)
    (table : u.table = s.search.table) (local_rows : u.localRows = s.search.localRows)
    (tail : u.tail = s.search.tail) (begun : u.begun = s.search.begun) (same : new.scans = old.scans) :
    Scanning core filters t localRows ⟨u, s.emitted⟩ where
  counted := counted
  table := table.trans scanning.table
  localRows := local_rows.trans scanning.localRows
  planned := tail ▸ scanning.planned
  rows := by
    have moved : [] ++ new.scans ~ old.scans ++ [] := by rw [same, List.append_nil]; rfl
    have after := conserved_set at_w moved scanning.rows
    have read : u.rowsOf filters = s.search.rowsOf filters := by
      funext unit
      simp only [SearchState.rowsOf, tail, table, local_rows]
    simp only [locals, begun, read]
    rwa [List.append_nil, List.append_nil] at after

theorem scanning_turn {tail : TailPlan} {s : TailState Row} {u : SearchState Row} {w chunk : Nat}
    (scanning : Scanning core filters t localRows s) (counted : Counted u)
    (planned : s.search.tail = some tail) (turn : WorkerTurn core filters tail s.search w u) :
    Scanning core filters t localRows ⟨u, s.emitted ++ unitEmits s.search u (.run w chunk)⟩ := by
  cases turn with
  | queued at_w moved still unfinished =>
    simp only [unitEmits, at_w, List.append_nil]
    exact scanning_kept scanning counted at_w (set_same at_w).symm rfl rfl rfl rfl rfl
  | batched at_w moved taken =>
    simp only [unitEmits, at_w, List.append_nil]
    exact scanning_kept scanning counted at_w rfl rfl rfl rfl rfl rfl
  | exhausted at_w moved done =>
    simp only [unitEmits, at_w, List.append_nil]
    exact scanning_kept scanning counted at_w rfl rfl rfl rfl rfl rfl
  | released at_w empty moved =>
    simp only [unitEmits, at_w, List.append_nil]
    exact scanning_kept scanning counted at_w rfl rfl rfl rfl rfl rfl
  | fetched at_w split shorter =>
    simp only [unitEmits, at_w, List.append_nil]
    exact scanning_kept scanning counted at_w rfl rfl rfl rfl rfl rfl
  | claimed at_w =>
    simp only [unitEmits, at_w, List.append_nil]
    refine scanning_kept scanning counted at_w rfl rfl rfl rfl rfl ?_
    split
    · rfl
    · rfl
  | begun at_w =>
    rename_i unit
    simp only [unitEmits, at_w, List.append_nil]
    refine ⟨counted, scanning.table, scanning.localRows, scanning.planned, ?_⟩
    have rows : tail.readUnit filters s.search.table s.search.localRows unit = s.search.rowsOf filters unit := by
      rw [readUnit_eq (scanning.planned tail planned), SearchState.rowsOf, planned]
    have moved : [] ++ (Local.reading (tail.readUnit filters s.search.table s.search.localRows unit)).scans ~
        (Local.claimed unit).scans ++ s.search.rowsOf filters unit := List.Perm.of_eq rows
    have after := conserved_set at_w moved scanning.rows
    rw [List.append_nil] at after
    simp only [List.flatMap_append, List.flatMap_singleton]
    exact after
  | yielded at_w split shorter =>
    rename_i left rows rest
    have added : unitEmits s.search { s.search with
        emitted := s.search.emitted ++ rows
        locals := s.search.locals.set w (.reading rest) } (.run w chunk) = rows := by
      simp only [unitEmits, at_w, List.drop_left]
    rw [added]
    refine ⟨counted, scanning.table, scanning.localRows, scanning.planned, ?_⟩
    have moved : rows ++ (Local.reading rest).scans ~ (Local.reading left).scans ++ [] := by
      rw [List.append_nil]
      exact List.Perm.of_eq split
    have after := conserved_set at_w moved scanning.rows
    rwa [List.append_nil] at after
  | closed at_w =>
    simp only [unitEmits, at_w, List.drop_length, List.append_nil]
    exact scanning_kept scanning counted at_w rfl rfl rfl rfl rfl rfl

theorem scanning_start (core : SearchCore) (filters : ScanFilters Row) (t : DataTable Row) (artOnly : Bool)
    (localRows : List Row) (workers : Nat) :
    Scanning core filters t localRows ⟨startSearch core t artOnly localRows workers, []⟩ where
  counted := counted_start core t artOnly localRows workers
  table := rfl
  localRows := rfl
  planned := nofun
  rows := by
    have idle : (startSearch core t artOnly localRows workers).locals.flatMap Local.scans = [] := by
      apply List.flatMap_eq_nil_iff.mpr
      intro l present
      rcases start_idle core t artOnly localRows workers l present with rfl | rfl
      · rfl
      · rfl
    unfold Conserved
    rw [idle]
    exact List.Perm.refl []

variable [DecidableEq Row]

theorem scanning_step (s : TailState Row) (e : SearchEvent Row) (u : TailState Row)
    (scanning : Scanning core filters t localRows s) (fixed : FixedRows e)
    (step : tailStep core filters s e = some u) : Scanning core filters t localRows u := by
  obtain ⟨after, moved, same⟩ := Option.map_eq_some_iff.mp step
  subst same
  clear step
  cases searchStep_move moved with
  | finalized unplanned =>
    have next : s.search.nextTailUnit = 0 := scanning.counted.idle unplanned
    have units := scanning.counted.units
    rw [next, Nat.zero_min] at units
    have nothing := List.append_eq_nil_iff.mp (List.perm_nil.mp units)
    have rows := scanning.rows
    refine ⟨counted_finalize _ scanning.counted unplanned, scanning.table, scanning.localRows, ?_, ?_⟩
    · intro tail planned
      rw [← Option.some.inj planned, scanning.table]
    · simp only [unitEmits, List.append_nil]
      rw [nothing.1] at rows ⊢
      exact rows
  | turned planned turn =>
    exact scanning_turn scanning (counted_turn scanning.counted planned turn) planned turn
  | committed | checkpointed => exact fixed.elim

theorem tailStep_search (s : TailState Row) (e : SearchEvent Row) (u : TailState Row)
    (step : tailStep core filters s e = some u) : searchStep core filters s.search e = some u.search := by
  obtain ⟨after, moved, same⟩ := Option.map_eq_some_iff.mp step
  rw [← same]
  exact moved

def tailRows (filters : ScanFilters Row) (tail : TailPlan) (t : DataTable Row) (localRows : List Row) : List Row :=
  (t.visible.filter fun entry => decide (tail.tailStart ≤ entry.1) && filters.passes entry.2).map Prod.snd ++
    localRows.filter filters.passes

omit [DecidableEq Row] in
theorem units_read (core : SearchCore) (filters : ScanFilters Row) (t : DataTable Row) (localRows : List Row) :
    let tail := finalizeSearchCore core t
    (List.range (tail.tailUnits + 1)).flatMap (unitRows filters tail t localRows) ~
      tailRows filters tail t localRows := by
  intro tail
  have below : ∀ entry ∈ t.visible, entry.1 < tail.tailEnd := fun entry present => t.visible_below present
  refine (all_units_perm rfl below localRows).trans (List.Perm.of_eq ?_)
  rw [tailRows, List.filter_filter]
  congr 2
  apply List.filter_congr
  intro entry _
  rw [← decide_not, decide_eq_decide.mpr Nat.not_lt]

omit [DecidableEq Row] in
theorem tail_unit_unique {entry : Nat × Row} (present : entry ∈ t.visible)
    (passes : filters.passes entry.2 = true) (past : (finalizeSearchCore core t).tailStart ≤ entry.1) :
    ∃! unit, unit < (finalizeSearchCore core t).tailUnits ∧
      entry ∈ (finalizeSearchCore core t).scanUnit filters t unit := by
  have positive := finalize_positive core t
  have bound : entry.1 < (finalizeSearchCore core t).tailEnd := t.visible_below present
  have found : (finalizeSearchCore core t).unitOf entry.1 = some
      ((entry.1 - (finalizeSearchCore core t).tailStart) / (finalizeSearchCore core t).tailUnitRows) :=
    if_pos ⟨past, bound⟩
  refine ⟨_, ⟨unitOf_lt core t found, (mem_scanUnit positive).mpr ⟨present, passes, found⟩⟩, ?_⟩
  rintro other ⟨_, scanned⟩
  have here := ((mem_scanUnit positive).mp scanned).2.2
  rw [found] at here
  exact (Option.some.inj here).symm

/-- Over row groups that stay as they are, each matching row past the mark lies in
    the scan of exactly one unit, no scan reads a row below the tail, and the
    units of a finished search have emitted those rows and the local ones once. -/
theorem tail_units_partition {artOnly : Bool} {workers : Nat} {events : List (SearchEvent Row)} {s : TailState Row}
    (fixed : ∀ e ∈ events, FixedRows e)
    (run : exec (tailStep core filters) ⟨startSearch core t artOnly localRows workers, []⟩ events = some s) :
    (∀ tail, s.search.tail = some tail → tail = finalizeSearchCore core t ∧ s.search.begun.Nodup ∧
      (∀ unit ∈ s.search.begun, unit ≤ tail.tailUnits) ∧ s.emitted <+~ tailRows filters tail t localRows) ∧
    (0 < workers → s.search.finished → ∃ tail, s.search.tail = some tail ∧
      s.search.begun ~ List.range (tail.tailUnits + 1) ∧ s.emitted ~ tailRows filters tail t localRows) ∧
    (∀ entry ∈ t.visible, filters.passes entry.2 = true → (finalizeSearchCore core t).tailStart ≤ entry.1 →
      ∃! unit, unit < (finalizeSearchCore core t).tailUnits ∧
        entry ∈ (finalizeSearchCore core t).scanUnit filters t unit) ∧
    (∀ unit, ∀ entry ∈ (finalizeSearchCore core t).scanUnit filters t unit,
      (finalizeSearchCore core t).tailStart ≤ entry.1) ∧
    ∀ startRow endRow, startRow < endRow → t.boundedScan filters startRow endRow =
      t.visible.filter fun entry => decide (startRow ≤ entry.1 ∧ entry.1 < endRow) && filters.passes entry.2 := by
  have along : Along (tailStep core filters) (fun _ e => FixedRows e)
      ⟨startSearch core t artOnly localRows workers, []⟩ events :=
    along_of_forall (fun e listed _ => fixed e listed) _
  have scanning := exec_invariant_along scanning_step along run
    (scanning_start core filters t artOnly localRows workers)
  have counted := scanning.counted
  have read : ∀ tail, s.search.tail = some tail →
      s.search.rowsOf filters = unitRows filters tail t localRows ∧
        (List.range (tail.tailUnits + 1)).flatMap (unitRows filters tail t localRows) ~
          tailRows filters tail t localRows := by
    intro tail planned
    constructor
    · funext unit
      simp only [SearchState.rowsOf, planned, scanning.table, scanning.localRows]
    · rw [scanning.planned tail planned]
      exact units_read core filters t localRows
  refine ⟨?_, ?_, fun entry => tail_unit_unique, ?_, fun first last _ => boundedScan_eq t filters first last⟩
  · intro tail planned
    obtain ⟨rows, whole⟩ := read tail planned
    have units := begun_units counted planned
    refine ⟨scanning.planned tail planned, begun_nodup counted, ?_, ?_⟩
    · intro unit listed
      have bound := List.mem_range.mp (units.subset listed)
      omega
    · have out : s.emitted <+~ s.search.begun.flatMap (s.search.rowsOf filters) :=
        (List.sublist_append_left _ _).subperm.trans (List.Perm.subperm scanning.rows)
      obtain ⟨part, same, sub⟩ := units
      have begun : s.search.begun.flatMap (unitRows filters tail t localRows) <+~
          (List.range (tail.tailUnits + 1)).flatMap (unitRows filters tail t localRows) :=
        ⟨_, same.flatMap_right _, sub.flatMap _⟩
      rw [rows] at out
      exact (out.trans begun).trans whole.subperm
  · intro some_worker finished
    have size := run_workers (exec_view tailStep_search run)
    obtain ⟨tail, planned, all_units⟩ := finished_units counted
      (List.ne_nil_of_length_pos (by omega)) finished
    obtain ⟨rows, whole⟩ := read tail planned
    have nothing_held : ∀ l ∈ s.search.locals, l.scans = [] := by
      intro l present
      rw [finished l present]
      rfl
    have out := conserved_out scanning.rows nothing_held
    rw [rows] at out
    exact ⟨tail, planned, all_units, (out.trans (all_units.flatMap_right _)).trans whole⟩
  · intro unit entry scanned
    have here := ((mem_scanUnit (finalize_positive core t)).mp scanned).2.2
    have begins := ((unitOf_eq (finalize_positive core t)).mp here).1
    exact Nat.le_trans (Nat.le_add_right _ _) begins

/-- Two row groups with holes around them, in units of two rowids. -/
def heldRows : DataTable Nat where
  rowGroups := [⟨1, [some 10, none]⟩, ⟨5, [some 12, some 14, some 15]⟩]
  nextRowId := 8
  rowGroupSize := 2
  ascending := by simp [RowGroup.finish, RowGroup.count]
  allocated := by simp [RowGroup.finish, RowGroup.count]

def heldSchedule : List (SearchEvent Nat) :=
  .finalize :: (List.replicate 9 [.run 0 5, .run 1 5]).flatten ++ List.replicate 3 (.run 1 5)

def heldRun : Option (TailState Nat) :=
  exec (tailStep ⟨-1, none, false⟩ evenRows) ⟨startSearch ⟨-1, none, false⟩ heldRows true [16, 17] 2, []⟩
    heldSchedule

theorem held_rows_once : ∃ s, heldRun = some s ∧ s.search.begun ~ [0, 1, 2, 3, 4] ∧
    s.emitted ~ [10, 12, 14, 16] := by
  have ends : heldRun.map (fun s => s.search.locals) = some [.done, .done] := by decide +kernel
  obtain ⟨s, run, done⟩ := Option.map_eq_some_iff.mp ends
  have finished : s.search.finished := by
    unfold SearchState.finished
    rw [done]
    decide
  have fixed : ∀ e ∈ heldSchedule, FixedRows e := by decide
  obtain ⟨tail, planned, begun, emitted⟩ := (tail_units_partition fixed run).2.1 (by decide) finished
  have same := ((tail_units_partition fixed run).1 tail planned).1
  subst same
  exact ⟨s, run, begun, emitted⟩

end NgramSearchCore
