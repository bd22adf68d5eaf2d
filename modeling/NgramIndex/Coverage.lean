import NgramIndex.Compaction
import NgramIndex.RowIdGuard

/- One indexed table over whole runs. Host transactions append and delete rows
   under the rowid guard while maintenance calls are prepared against one
   committed state and run against a later one. The host commits one append at
   a time, so commits and rowids are in one order. -/
namespace NgramCoverage
open NgramMaintenance NgramRowIdGuard NgramProbe LabelledRun Fallible
variable {Options Text Key : Type}

inductive Prepared (Options : Type)
  | create (options : Options) (sharesGuard : Bool) (totalRows partitions : Nat)
  | refresh (options : Options) (script : RefreshScript)
  | compact (options : Options) (script : CompactScript)
  deriving DecidableEq, Repr

/-- The committed state of a table and of the index on one of its columns. A
    table may be guarded before it has this index, by another column's. -/
structure IndexedTable (Options Text Key : Type) where
  table : GuardedTable
  rows : List (BaseRow Text)
  guarded : Bool
  index : Option (Options × IndexState Key)
  pending : List (Prepared Options)
  deriving DecidableEq, Repr

def unindexed (db : AttachedDatabase) (nextRowId : Nat) (rows : List (BaseRow Text)) :
    IndexedTable Options Text Key where
  table := guardCreated db nextRowId (rows.map BaseRow.rowid) ""
  rows := rows
  guarded := false
  index := none
  pending := []

inductive IndexEvent (Options Text : Type)
  /-- An event of the host; values are those of the rows that it commits. -/
  | host (e : TableEvent) (values : List (Option Text))
  | indexOtherColumn (token : String)
  | prepareCreate (options : Options) (totalRows partitions : Nat)
  | prepareRefresh (totalRows partitions : Nat) (maxRows : Option Int)
  | prepareCompact (purge fragmented : Bool) (partitions : Nat)
  /-- A prepared script runs in a transaction that also holds its own appended rows. -/
  | run (handle : Nat) (token : String) (localRows : List (BaseRow Text))
  | rollback (handle : Nat)
  deriving DecidableEq, Repr

section Scripts
variable [DecidableEq Options] [DecidableEq Key]

def guardReason (t : GuardedTable) (hwm : Int) : Option String :=
  if t.guard.maxSeen < hwm then
    some "the rowid guard has not observed the index high-water mark"
  else if t.guard.unsafeReuse then
    some "the rowid guard cannot exclude reuse of rowids already covered by the ngram index"
  else none

def resolveMaintenanceColumn (w : IndexedTable Options Text Key) :
    Except String (Options × IndexState Key) :=
  match w.index with
  | none => .error "index storage is unavailable"
  | some (options, index) =>
      match guardReason w.table index.hwm with
      | some reason => .error reason
      | none => .ok (options, index)

/-- The checks that a maintenance script repeats when it runs. -/
def checkPreparedMaintenance (w : IndexedTable Options Text Key) (options : Options) (hwm : Int) :
    Except String (IndexState Key) := do
  let (recorded, index) ← resolveMaintenanceColumn w
  if index.hwm ≠ hwm ∨ recorded ≠ options then .error changedWhilePrepared
  else .ok index

/-- The mark that the registry row of a new index is inserted with. -/
def createdMark (base : List (BaseRow Text)) : Int := ((committedAbove base (-1)).max?).getD (-1)

def createdIndex (gramKeys : Text → List Key) (base : List (BaseRow Text)) (totalRows partitions : Nat) :
    IndexState Key :=
  let packed := packRanges gramKeys base (segmentAlignedRanges 0 (totalRows - 1) partitions true)
  { (⟨createdMark base, [], 0⟩ : IndexState Key).appendPacked 0 packed with hwm := createdMark base }

/-- The guard that a create script finds or installs. A fresh one is created
    behind a barrier that no append in commit passes. -/
def creationGuard (w : IndexedTable Options Text Key) (sharesGuard : Bool) (token : String) :
    Except String GuardedTable :=
  if w.guarded ≠ sharesGuard then .error "the ngram indexes changed while the statement was being prepared"
  else if sharesGuard then
    match guardReason w.table (-1) with
    | some reason => .error reason
    | none => .ok w.table
  else if w.table.appending ≠ none then .error "create_ngram_index could not exclude an active writer"
  else .ok (guardCreated w.table.db w.table.nextRowId w.table.live token)

def runPrepared (gramKeys : Options → Text → List Key) (w : IndexedTable Options Text Key)
    (token : String) (localRows : List (BaseRow Text)) :
    Prepared Options → Except String (IndexedTable Options Text Key)
  | .create options sharesGuard totalRows partitions =>
      if w.index.isSome then .error "An ngram index already exists"
      else do
        let table ← creationGuard w sharesGuard token
        .ok { w with
          table := table
          guarded := true
          index := some (options,
            createdIndex (gramKeys options) (w.rows ++ localRows) totalRows partitions) }
  | .refresh options script => do
      let index ← checkPreparedMaintenance w options script.hwm
      let refreshed ← executeRefresh (gramKeys options) script (w.rows ++ localRows) index
      .ok { w with index := some (options, refreshed) }
  | .compact options script => do
      let index ← checkPreparedMaintenance w options script.hwm
      let compacted ← executeCompact script (w.rows ++ localRows) index
      .ok { w with index := some (options, compacted) }

def committedRows (first : Nat) (values : List (Option Text)) : List (BaseRow Text) :=
  values.mapIdx fun i value => ⟨first + i, value⟩

def hostStep (w : IndexedTable Options Text Key) (e : TableEvent) (values : List (Option Text)) :
    Option (IndexedTable Options Text Key) :=
  (tableStep w.table e).bind fun table =>
    match e with
    | .commitAppend =>
        if values.length = w.table.inFlight.length then
          some { w with table := table, rows := w.rows ++ committedRows w.table.nextRowId values }
        else none
    | .delete gone =>
        some { w with table := table, rows := w.rows.filter fun row => row.rowid ∉ gone }
    | _ => some { w with table := table }

/-- A pragma's expansion; one that raises leaves everything as it was. -/
def IndexedTable.prepare (w : IndexedTable Options Text Key)
    (script : Except String (Prepared Options)) : IndexedTable Options Text Key :=
  match script with
  | .error _ => w
  | .ok prepared => { w with pending := w.pending ++ [prepared] }

def indexStep (gramKeys : Options → Text → List Key) (w : IndexedTable Options Text Key) :
    IndexEvent Options Text → Option (IndexedTable Options Text Key)
  | .host e values => hostStep w e values
  | .indexOtherColumn token =>
      if w.guarded = false ∧ w.table.appending = none then
        some { w with
          table := guardCreated w.table.db w.table.nextRowId w.table.live token
          guarded := true }
      else none
  | .prepareCreate options totalRows partitions =>
      if totalRows ≤ maxRowId then
        some (w.prepare (if w.index.isSome then .error "An ngram index already exists"
          else .ok (.create options w.guarded totalRows partitions)))
      else none
  | .prepareRefresh totalRows partitions maxRows =>
      if totalRows ≤ maxRowId then
        some (w.prepare do
          let (options, index) ← resolveMaintenanceColumn w
          if ∃ rows ∈ maxRows, rows < 1 then .error "ngram_refresh: max_rows must be at least 1"
          else .ok (.refresh options (refreshScript index.hwm totalRows partitions maxRows)))
      else none
  | .prepareCompact purge fragmented partitions =>
      some (w.prepare do
        let (options, index) ← resolveMaintenanceColumn w
        .ok (.compact options ⟨index.hwm, purge, fragmented, partitions⟩))
  | .run handle token localRows =>
      -- the rows that the transaction appended have no committed rowid yet
      if ∀ row ∈ localRows, maxRowId ≤ row.rowid then
        w.pending[handle]?.map fun script =>
          let taken := { w with pending := w.pending.eraseIdx handle }
          match runPrepared gramKeys taken token localRows script with
          | .error _ => taken
          | .ok done => done
      else none
  | .rollback handle =>
      if handle < w.pending.length then some { w with pending := w.pending.eraseIdx handle } else none

end Scripts

/-- The rows of a table lie below its next rowid, each on its own rowid. -/
structure Placed (t : GuardedTable) : Prop where
  distinct : t.live.Nodup
  below : ∀ r ∈ t.live, r < t.nextRowId
  forward : ∀ stop, t.appending = some stop → t.nextRowId ≤ stop

theorem guardCreated_placed {t : GuardedTable} (placed : Placed t) (token : String) :
    Placed (guardCreated t.db t.nextRowId t.live token) where
  distinct := placed.distinct
  below := placed.below
  forward _ idle := nomatch idle

theorem mem_inFlight {t : GuardedTable} {r : Nat} (flying : r ∈ t.inFlight) : t.nextRowId ≤ r := by
  unfold GuardedTable.inFlight at flying
  cases appending : t.appending with
  | none => simp [appending] at flying
  | some stop =>
    rw [appending] at flying
    exact (List.mem_range'_1.mp flying).1

theorem inFlight_open {t : GuardedTable} {stop : Nat} (open_append : t.appending = some stop) :
    t.inFlight = List.range' t.nextRowId (stop - t.nextRowId) := by
  unfold GuardedTable.inFlight
  rw [open_append]

theorem placed_step {t u : GuardedTable} {e : TableEvent} (placed : Placed t)
    (step : tableStep t e = some u) : Placed u := by
  cases e with
  | beginAppend =>
    simp only [tableStep, Option.ite_none_right_eq_some, Option.some.injEq] at step
    obtain ⟨_, rfl⟩ := step
    exact ⟨placed.distinct, placed.below, fun _ begun => Nat.le_of_eq (Option.some.inj begun)⟩
  | chunk rows =>
    simp only [tableStep] at step
    cases open_append : t.appending with
    | none => simp [open_append] at step
    | some start =>
      simp only [open_append, Option.ite_none_right_eq_some, Option.some.injEq] at step
      obtain ⟨_, rfl⟩ := step
      refine ⟨placed.distinct, placed.below, fun stop flushed => ?_⟩
      have forward := placed.forward start open_append
      have reached : start + rows.ids.length = stop := Option.some.inj flushed
      show t.nextRowId ≤ stop
      omega
  | commitAppend =>
    simp only [tableStep, Option.map_eq_some_iff] at step
    obtain ⟨stop, open_append, rfl⟩ := step
    have flight := inFlight_open open_append
    have forward := placed.forward stop open_append
    refine ⟨?_, ?_, fun _ idle => absurd idle.symm (Option.some_ne_none _)⟩
    · apply List.nodup_append.mpr
      refine ⟨placed.distinct, ?_, ?_⟩
      · rw [flight]
        exact List.nodup_range'
      · intro a old b flying same
        have before := placed.below a old
        have after := mem_inFlight flying
        omega
    · intro r present
      rcases List.mem_append.mp present with old | flying
      · exact (placed.below r old).trans_le forward
      · rw [flight] at flying
        have bound := List.mem_range'_1.mp flying
        show r < stop
        omega
  | failAppend =>
    simp only [tableStep, Option.map_eq_some_iff] at step
    obtain ⟨_, _, rfl⟩ := step
    exact ⟨placed.distinct, placed.below, fun _ idle => absurd idle.symm (Option.some_ne_none _)⟩
  | delete gone =>
    simp only [tableStep, Option.some.injEq] at step
    subst step
    exact ⟨placed.distinct.filter _, fun r present => placed.below r (List.mem_filter.mp present).1,
      placed.forward⟩
  | beginCheckpoint =>
    simp only [tableStep, Option.ite_none_left_eq_some, Option.some.injEq] at step
    obtain ⟨_, rfl⟩ := step
    exact ⟨placed.distinct, placed.below, placed.forward⟩
  | reclaim next =>
    simp only [tableStep, Option.ite_none_right_eq_some, Option.some.injEq] at step
    obtain ⟨⟨_, idle, _, live⟩, rfl⟩ := step
    refine ⟨placed.distinct, live, fun stop open_append => ?_⟩
    have none_open : t.appending = some stop := open_append
    rw [idle] at none_open
    cases none_open
  | finishCheckpoint compatible =>
    simp only [tableStep, Option.ite_none_right_eq_some, Option.some.injEq] at step
    obtain ⟨_, rfl⟩ := step
    exact ⟨placed.distinct, placed.below, placed.forward⟩

/-- Only a commit adds to the rowids ever committed, and it adds its rows. -/
theorem committed_step {t u : GuardedTable} {e : TableEvent} (step : tableStep t e = some u) :
    u.committed = t.committed ∨ u.committed = t.committed ++ t.inFlight ∧ u.guard = t.guard := by
  rcases tableStep_cases step with ⟨_, _, rfl⟩ | ⟨rows, start, _, _, _, rfl⟩ | ⟨stop, _, _, rfl⟩ |
    ⟨_, rfl⟩ | ⟨rows, _, rfl⟩ | ⟨_, rfl⟩ | ⟨next, _, _, _, _, rfl⟩ | ⟨compatible, _, _, rfl⟩
  · exact Or.inl rfl
  · exact Or.inl rfl
  · exact Or.inr ⟨rfl, rfl⟩
  · exact Or.inl rfl
  · exact Or.inl rfl
  · exact Or.inl rfl
  · exact Or.inl rfl
  · exact Or.inl rfl

/-- While the guard vouches for the rowids, the rows of a commit lie past every
    mark that a committed row has reached. -/
theorem flight_past_mark {t : GuardedTable} {hwm : Int} (watched : Watched t)
    (trusted : t.guard.unsafeReuse = false) (settled : hwm = -1 ∨ ∃ r ∈ t.committed, hwm ≤ r) :
    ∀ r ∈ t.inFlight, hwm < r := by
  intro r flying
  have after := mem_inFlight flying
  rcases settled with rfl | ⟨top, present, reached⟩
  · omega
  · by_contra buried
    have handed_back : ∃ r ∈ t.committed, t.nextRowId ≤ r := ⟨top, present, by omega⟩
    have nothing := (watched.reclaimed trusted handed_back).2
    rw [nothing] at flying
    exact List.not_mem_nil flying

/-- What a safe guard makes of an index. -/
structure Indexed (gramKeys : Text → List Key) (rows : List (BaseRow Text)) (committed : List Nat)
    (index : IndexState Key) : Prop where
  covered : ∀ row ∈ rows, ∀ text, row.value = some text → (row.rowid : Int) ≤ index.hwm →
    ∀ key ∈ gramKeys text, Posted index.segments key row.rowid
  bounded : ∀ key r, Posted index.segments key r → (r : Int) ≤ index.hwm
  settled : index.hwm = -1 ∨ ∃ r ∈ committed, index.hwm ≤ r

/-- What every expansion fixed, whatever has been committed since. -/
def Expanded : Prepared Options → Prop
  | .create _ _ totalRows _ => totalRows ≤ maxRowId
  | .refresh _ script => ∃ totalRows partitions maxRows, totalRows ≤ maxRowId ∧
      (∀ rows, maxRows = some rows → 1 ≤ rows) ∧
      script = refreshScript script.hwm totalRows partitions maxRows
  | .compact _ _ => True

structure Tracked (gramKeys : Options → Text → List Key) (w : IndexedTable Options Text Key) : Prop where
  placed : Placed w.table
  rowsLive : w.rows.map BaseRow.rowid = w.table.live
  watched : w.guarded = true → Watched w.table
  known : w.guarded = true → ∀ r ∈ w.table.live, r ∈ w.table.committed
  guards : w.index ≠ none → w.guarded = true
  mark : ∀ options index, w.index = some (options, index) → -1 ≤ index.hwm ∧ index.hwm < maxRowId
  indexed : ∀ options index, w.index = some (options, index) → w.table.guard.unsafeReuse = false →
    Indexed (gramKeys options) w.rows w.table.committed index
  expanded : ∀ script ∈ w.pending, Expanded script

/-- What later states owe an index: the mark stays or moves on, a latched guard
    stays latched, and rows committed later lie past the mark. -/
structure Advances (w u : IndexedTable Options Text Key) : Prop where
  mark : ∀ options index, w.index = some (options, index) →
    ∃ later, u.index = some (options, later) ∧ index.hwm ≤ later.hwm
  latched : w.index ≠ none → w.table.guard.unsafeReuse = true → u.table.guard.unsafeReuse = true
  fresh : ∀ options index, w.index = some (options, index) → u.table.guard.unsafeReuse = false →
    ∃ added, u.table.committed = w.table.committed ++ added ∧ ∀ r ∈ added, index.hwm < r

theorem advances_refl (w : IndexedTable Options Text Key) : Advances w w where
  mark _ index found := ⟨index, found, Int.le_refl _⟩
  latched _ latched := latched
  fresh _ _ _ _ := ⟨[], (List.append_nil _).symm, fun _ none => absurd none List.not_mem_nil⟩

theorem advances_trans {w v u : IndexedTable Options Text Key} (first : Advances w v)
    (second : Advances v u) : Advances w u := by
  constructor
  · intro options index found
    obtain ⟨middle, there, le⟩ := first.mark options index found
    obtain ⟨later, last, le'⟩ := second.mark options middle there
    exact ⟨later, last, le.trans le'⟩
  · intro some_index latched
    obtain ⟨⟨options, index⟩, found⟩ := Option.ne_none_iff_exists'.mp some_index
    obtain ⟨middle, there, _⟩ := first.mark options index found
    exact second.latched (by simp [there]) (first.latched some_index latched)
  · intro options index found trusted
    obtain ⟨middle, there, le⟩ := first.mark options index found
    have before : v.table.guard.unsafeReuse = false := by
      cases latched : v.table.guard.unsafeReuse with
      | false => rfl
      | true => exact absurd trusted (by simp [second.latched (by simp [there]) latched])
    obtain ⟨left, one, above⟩ := first.fresh options index found before
    obtain ⟨right, two, later⟩ := second.fresh options middle there trusted
    refine ⟨left ++ right, by rw [two, one, List.append_assoc], fun r added => ?_⟩
    rcases List.mem_append.mp added with old | new
    · exact above r old
    · exact le.trans_lt (later r new)

section Host
variable {gramKeys : Options → Text → List Key} {w u : IndexedTable Options Text Key}

theorem hostStep_cases {e : TableEvent} {values : List (Option Text)} (step : hostStep w e values = some u) :
    tableStep w.table e = some u.table ∧ u.guarded = w.guarded ∧ u.index = w.index ∧
      u.pending = w.pending ∧
      (e = .commitAppend ∧ values.length = w.table.inFlight.length ∧
          u.rows = w.rows ++ committedRows w.table.nextRowId values ∨
        (∃ gone, e = .delete gone ∧ u.rows = w.rows.filter fun row => row.rowid ∉ gone) ∨
        u.rows = w.rows ∧ u.table.live = w.table.live) := by
  unfold hostStep at step
  obtain ⟨table, stepped, step⟩ := Option.bind_eq_some_iff.mp step
  cases e with
  | commitAppend =>
    simp only [Option.ite_none_right_eq_some, Option.some.injEq] at step
    obtain ⟨lengths, rfl⟩ := step
    exact ⟨stepped, rfl, rfl, rfl, Or.inl ⟨rfl, lengths, rfl⟩⟩
  | delete gone =>
    simp only [Option.some.injEq] at step
    subst step
    exact ⟨stepped, rfl, rfl, rfl, Or.inr (Or.inl ⟨gone, rfl, rfl⟩)⟩
  | beginAppend | chunk | failAppend | beginCheckpoint | reclaim | finishCheckpoint =>
    simp only [Option.some.injEq] at step
    subst step
    refine ⟨stepped, rfl, rfl, rfl, Or.inr (Or.inr ⟨rfl, ?_⟩)⟩
    rcases tableStep_cases stepped with ⟨_, _, rfl⟩ | ⟨_, _, _, _, _, rfl⟩ | ⟨_, other, _⟩ |
      ⟨_, rfl⟩ | ⟨_, other, _⟩ | ⟨_, rfl⟩ | ⟨_, _, _, _, _, rfl⟩ | ⟨_, _, _, rfl⟩ <;>
      first | rfl | exact nomatch other

theorem committedRows_rowids (first : Nat) (values : List (Option Text)) :
    (committedRows first values).map BaseRow.rowid = List.range' first values.length := by
  apply List.ext_getElem
  · simp [committedRows]
  · intro i _ _
    simp [committedRows]

theorem rows_of_live (rowsLive : w.rows.map BaseRow.rowid = w.table.live) {row : BaseRow Text}
    (present : row ∈ w.rows) : row.rowid ∈ w.table.live := by
  rw [← rowsLive]
  exact List.mem_map_of_mem present

theorem host_rowsLive {e : TableEvent} {values : List (Option Text)}
    (rowsLive : w.rows.map BaseRow.rowid = w.table.live) (step : hostStep w e values = some u) :
    u.rows.map BaseRow.rowid = u.table.live := by
  obtain ⟨stepped, _, _, _, moved⟩ := hostStep_cases step
  rcases moved with ⟨rfl, lengths, rows⟩ | ⟨gone, rfl, rows⟩ | ⟨rows, live⟩
  · simp only [tableStep, Option.map_eq_some_iff] at stepped
    obtain ⟨stop, open_append, same⟩ := stepped
    rw [rows, List.map_append, rowsLive, committedRows_rowids, ← same, lengths,
      inFlight_open open_append, List.length_range', ← inFlight_open open_append]
    rfl
  · simp only [tableStep, Option.some.injEq] at stepped
    rw [rows, ← stepped, ← rowsLive, List.filter_map]
    rfl
  · rw [rows, rowsLive, live]

/-- Rows of a commit lie past the mark, so an index stays what it was. -/
theorem host_indexed {e : TableEvent} {values : List (Option Text)} {options : Options}
    {index : IndexState Key} (tracked : Tracked gramKeys w) (step : hostStep w e values = some u)
    (found : w.index = some (options, index)) (trusted : u.table.guard.unsafeReuse = false) :
    Indexed (gramKeys options) u.rows u.table.committed index ∧
      ∃ added, u.table.committed = w.table.committed ++ added ∧ ∀ r ∈ added, index.hwm < r := by
  obtain ⟨stepped, _, _, _, moved⟩ := hostStep_cases step
  have before : w.table.guard.unsafeReuse = false := by
    cases latched : w.table.guard.unsafeReuse with
    | false => rfl
    | true => exact absurd trusted (by simp [step_keeps_latched _ _ _ stepped latched])
  have held := tracked.indexed options index found before
  have watched := tracked.watched (tracked.guards (by simp [found]))
  have past := flight_past_mark watched before held.settled
  have kept : ∃ added, u.table.committed = w.table.committed ++ added ∧ ∀ r ∈ added, index.hwm < r := by
    rcases committed_step stepped with same | ⟨grown, _⟩
    · exact ⟨[], by rw [same, List.append_nil], fun _ none => absurd none List.not_mem_nil⟩
    · exact ⟨w.table.inFlight, grown, past⟩
  refine ⟨⟨?_, held.bounded, ?_⟩, kept⟩
  · intro row present text value below key in_text
    rcases moved with ⟨rfl, lengths, rows⟩ | ⟨gone, _, rows⟩ | ⟨rows, _⟩
    · rw [rows] at present
      rcases List.mem_append.mp present with old | new
      · exact held.covered row old text value below key in_text
      · have flying : row.rowid ∈ w.table.inFlight := by
          obtain ⟨stop, open_append, _⟩ := Option.map_eq_some_iff.mp stepped
          have listed := List.mem_map_of_mem (f := BaseRow.rowid) new
          rw [committedRows_rowids, lengths, inFlight_open open_append, List.length_range'] at listed
          rw [inFlight_open open_append]
          exact listed
        exact absurd below (not_le.mpr (past row.rowid flying))
    · rw [rows] at present
      exact held.covered row (List.mem_filter.mp present).1 text value below key in_text
    · rw [rows] at present
      exact held.covered row present text value below key in_text
  · obtain ⟨added, grown, _⟩ := kept
    rcases held.settled with unset | ⟨r, present, reached⟩
    · exact Or.inl unset
    · exact Or.inr ⟨r, by rw [grown]; exact List.mem_append_left _ present, reached⟩

theorem host_step {e : TableEvent} {values : List (Option Text)} (tracked : Tracked gramKeys w)
    (step : hostStep w e values = some u) : Tracked gramKeys u ∧ Advances w u := by
  obtain ⟨stepped, guarded, index, pending, moved⟩ := hostStep_cases step
  constructor
  · constructor
    case placed => exact placed_step tracked.placed stepped
    case rowsLive => exact host_rowsLive tracked.rowsLive step
    case watched =>
      intro has_guard
      rw [guarded] at has_guard
      exact step_watched _ _ _ (tracked.watched has_guard) stepped
    case known =>
      intro has_guard r present
      rw [guarded] at has_guard
      have old := tracked.known has_guard
      rcases tableStep_cases stepped with ⟨_, _, same⟩ | ⟨_, _, _, _, _, same⟩ | ⟨_, _, _, same⟩ |
        ⟨_, same⟩ | ⟨_, _, same⟩ | ⟨_, same⟩ | ⟨_, _, _, _, _, same⟩ | ⟨_, _, _, same⟩ <;>
        rw [same] at present ⊢
      · exact old r present
      · exact old r present
      · rcases List.mem_append.mp present with standing | new
        · exact List.mem_append_left _ (old r standing)
        · exact List.mem_append_right _ new
      · exact old r present
      · exact old r (List.mem_filter.mp present).1
      · exact old r present
      · exact old r present
      · exact old r present
    case guards =>
      intro some_index
      rw [index] at some_index
      rw [guarded]
      exact tracked.guards some_index
    case mark =>
      intro options state found
      rw [index] at found
      exact tracked.mark options state found
    case indexed =>
      intro options state found trusted
      rw [index] at found
      exact (host_indexed tracked step found trusted).1
    case expanded =>
      rw [pending]
      exact tracked.expanded
  · constructor
    case mark =>
      intro options state found
      exact ⟨state, index.trans found, Int.le_refl _⟩
    case latched =>
      intro _ latched
      exact step_keeps_latched _ _ _ stepped latched
    case fresh =>
      intro options state found trusted
      exact (host_indexed tracked step found trusted).2

theorem rows_committed (tracked : Tracked gramKeys w) (guarded : w.guarded = true)
    {localRows : List (BaseRow Text)} (uncommitted : ∀ row ∈ localRows, maxRowId ≤ row.rowid)
    {row : BaseRow Text} (present : row ∈ w.rows ++ localRows) (settled : row.rowid < maxRowId) :
    row.rowid ∈ w.table.committed := by
  rcases List.mem_append.mp present with standing | of_transaction
  · exact tracked.known guarded row.rowid (rows_of_live tracked.rowsLive standing)
  · exact absurd settled (not_lt.mpr (uncommitted row of_transaction))

theorem guardReason_none {t : GuardedTable} {hwm : Int} (none_given : guardReason t hwm = none) :
    t.guard.unsafeReuse = false := by
  unfold guardReason at none_given
  split at none_given
  · exact nomatch none_given
  · split at none_given
    · exact nomatch none_given
    · rename_i unlatched
      simpa using unlatched

theorem checkPreparedMaintenance_ok [DecidableEq Options] {options : Options} {hwm : Int} {index : IndexState Key}
    (run : checkPreparedMaintenance w options hwm = .ok index) :
    w.index = some (options, index) ∧ index.hwm = hwm ∧ w.table.guard.unsafeReuse = false := by
  unfold checkPreparedMaintenance resolveMaintenanceColumn at run
  obtain ⟨⟨recorded, current⟩, resolved, run⟩ := bind_ok run
  split at resolved
  · exact nomatch resolved
  · rename_i found_options found_index found
    split at resolved
    · exact nomatch resolved
    · rename_i reason
      cases ok_inj resolved
      simp only at run
      obtain ⟨same, run⟩ := check_ok run
      cases ok_inj run
      rw [not_or, not_not, not_not] at same
      rw [← same.2]
      exact ⟨found, same.1, guardReason_none reason⟩

/-- A maintained index takes the place of the one it was computed from. -/
theorem maintained_step {options : Options} {index next : IndexState Key} (tracked : Tracked gramKeys w)
    (found : w.index = some (options, index)) (forward : index.hwm ≤ next.hwm) (space : next.hwm < maxRowId)
    (held : Indexed (gramKeys options) w.rows w.table.committed next) :
    Tracked gramKeys { w with index := some (options, next) } ∧
      Advances w { w with index := some (options, next) } := by
  have low := (tracked.mark options index found).1
  constructor
  · constructor
    case placed => exact tracked.placed
    case rowsLive => exact tracked.rowsLive
    case watched => exact tracked.watched
    case known => exact tracked.known
    case guards =>
      intro _
      exact tracked.guards (by simp [found])
    case mark =>
      intro _ _ same
      cases same
      exact ⟨low.trans forward, space⟩
    case indexed =>
      intro _ _ same _
      cases same
      exact held
    case expanded => exact tracked.expanded
  · constructor
    case mark =>
      intro other state same
      rw [found] at same
      cases same
      exact ⟨next, rfl, forward⟩
    case latched =>
      intro _ latched
      exact latched
    case fresh =>
      intro _ _ _ _
      exact ⟨[], (List.append_nil _).symm, fun _ none => absurd none List.not_mem_nil⟩

/-- The guard that creation finds or installs is safe and knows every row. -/
theorem creationGuard_ok {sharesGuard : Bool} {token : String} {table : GuardedTable}
    (tracked : Tracked gramKeys w) (run : creationGuard w sharesGuard token = .ok table) :
    Placed table ∧ table.live = w.table.live ∧ Watched table ∧ (∀ r ∈ table.live, r ∈ table.committed) := by
  unfold creationGuard at run
  obtain ⟨agreed, run⟩ := check_ok run
  have agreed : w.guarded = sharesGuard := not_not.mp agreed
  rcases branch_ok run with ⟨shares, run⟩ | ⟨_, run⟩
  · split at run
    · exact nomatch run
    · cases ok_inj run
      have guarded : w.guarded = true := agreed.trans shares
      exact ⟨tracked.placed, rfl, tracked.watched guarded, tracked.known guarded⟩
  · obtain ⟨_, run⟩ := check_ok run
    cases ok_inj run
    exact ⟨guardCreated_placed tracked.placed token, rfl,
      created_watched w.table.db token tracked.placed.distinct tracked.placed.below, fun r present => present⟩

theorem pending_step {pending : List (Prepared Options)} (tracked : Tracked gramKeys w)
    (expanded : ∀ script ∈ pending, Expanded script) :
    Tracked gramKeys { w with pending := pending } ∧ Advances w { w with pending := pending } :=
  ⟨⟨tracked.placed, tracked.rowsLive, tracked.watched, tracked.known, tracked.guards, tracked.mark,
    tracked.indexed, expanded⟩,
    (advances_refl w).mark, (advances_refl w).latched, (advances_refl w).fresh⟩

theorem prepare_step {script : Except String (Prepared Options)} (tracked : Tracked gramKeys w)
    (expanded : ∀ prepared, script = .ok prepared → Expanded prepared) :
    Tracked gramKeys (w.prepare script) ∧ Advances w (w.prepare script) := by
  unfold IndexedTable.prepare
  cases script with
  | error reason => exact ⟨tracked, advances_refl w⟩
  | ok prepared =>
    apply pending_step tracked
    intro other listed
    rcases List.mem_append.mp listed with before | added
    · exact tracked.expanded other before
    · rw [List.mem_singleton.mp added]
      exact expanded prepared rfl

theorem refresh_expanded {totalRows partitions : Nat} {maxRows : Option Int} {prepared : Prepared Options}
    (space : totalRows ≤ maxRowId)
    (run : (do
      let (options, index) ← resolveMaintenanceColumn w
      if ∃ rows ∈ maxRows, rows < 1 then .error "ngram_refresh: max_rows must be at least 1"
      else .ok (.refresh options (refreshScript index.hwm totalRows partitions maxRows))) =
        Except.ok prepared) : Expanded prepared := by
  obtain ⟨⟨options, index⟩, _, run⟩ := bind_ok run
  obtain ⟨some_row, run⟩ := check_ok run
  cases ok_inj run
  refine ⟨totalRows, partitions, maxRows, space, ?_, ?_⟩
  · intro rows bound
    by_contra fewer
    exact some_row ⟨rows, bound, by omega⟩
  · rcases refreshScript_cases index.hwm totalRows partitions maxRows with ⟨_, same⟩ | ⟨_, _, same, _⟩
    · rw [same, same]
    · rw [same, same]

theorem unindexed_tracked (db : AttachedDatabase) {nextRowId : Nat} {rows : List (BaseRow Text)}
    (distinct : (rows.map BaseRow.rowid).Nodup) (below : ∀ row ∈ rows, row.rowid < nextRowId) :
    Tracked gramKeys (unindexed db nextRowId rows : IndexedTable Options Text Key) where
  placed := by
    refine ⟨distinct, fun r present => ?_, fun _ idle => nomatch idle⟩
    obtain ⟨row, listed, rfl⟩ := List.mem_map.mp present
    exact below row listed
  rowsLive := rfl
  watched := fun unguarded => nomatch unguarded
  known := fun unguarded => nomatch unguarded
  guards := fun present => absurd rfl present
  mark := fun _ _ found => nomatch found
  indexed := fun _ _ found => nomatch found
  expanded := fun _ none => absurd none List.not_mem_nil

end Host

section Maintenance
variable [DecidableEq Key]
variable {gramKeys : Options → Text → List Key} {w u : IndexedTable Options Text Key}

/-- A refresh packs every row that its new mark covers, and nothing past it. -/
theorem refresh_indexed {options : Options} {script : RefreshScript} {index refreshed : IndexState Key}
    {localRows : List (BaseRow Text)} (tracked : Tracked gramKeys w)
    (expanded : Expanded (Prepared.refresh options script))
    (uncommitted : ∀ row ∈ localRows, maxRowId ≤ row.rowid)
    (found : w.index = some (options, index)) (recorded : index.hwm = script.hwm)
    (trusted : w.table.guard.unsafeReuse = false)
    (run : executeRefresh (gramKeys options) script (w.rows ++ localRows) index = .ok refreshed) :
    Indexed (gramKeys options) w.rows w.table.committed refreshed ∧
      index.hwm ≤ refreshed.hwm ∧ refreshed.hwm < maxRowId := by
  have held := tracked.indexed options index found trusted
  have bounds := tracked.mark options index found
  have guarded := tracked.guards (by simp [found])
  obtain ⟨totalRows, partitions, maxRows, space, some_row, same⟩ := expanded
  unfold executeRefresh at run
  obtain ⟨_, run⟩ := check_ok run
  cases passes : script.pass with
  | none =>
    rw [passes] at run
    cases ok_inj run
    exact ⟨held, Int.le_refl _, bounds.2⟩
  | some pass =>
    rw [passes] at run
    cases ok_inj run
    have expansion : refreshScript script.hwm totalRows partitions maxRows = ⟨script.hwm, some pass⟩ := by
      rw [← same, ← passes]
    have settled := @refreshedHighWaterMark_settled _ (w.rows ++ localRows) script.hwm totalRows partitions
      maxRows pass (recorded ▸ bounds.1) some_row space expansion
    have posted := fun key r => @pass_posted _ _ _ (gramKeys options) (w.rows ++ localRows) script.hwm
      totalRows partitions maxRows pass space expansion key r
    simp only [recorded]
    generalize refreshedHighWaterMark (w.rows ++ localRows) script.hwm script.hwm pass.stopsShort
      pass.boundEnd = mark at settled ⊢
    have below : mark < maxRowId := by
      rcases settled.witnessed with kept | ⟨row, _, space, reached⟩
      · omega
      · omega
    refine ⟨⟨?_, ?_, ?_⟩, settled.forward, below⟩
    · intro row present text value covered key in_text
      have covered : (row.rowid : Int) ≤ mark := covered
      show Posted (_ ++ _) key row.rowid
      rw [posted_append, posted_stamp]
      rcases le_or_gt (row.rowid : Int) script.hwm with old | new
      · exact Or.inl (held.covered row present text value (recorded ▸ old) key in_text)
      · have reached := settled.reached
        exact Or.inr ((posted key row.rowid).mpr ⟨row, List.mem_append_left _ present, text, rfl, value,
          in_text, new, by omega⟩)
    · intro key r posts
      show (r : Int) ≤ mark
      rcases posted_append.mp posts with old | new
      · have le := held.bounded key r old
        have forward := settled.forward
        omega
      · obtain ⟨row, present, _, rfl, _, _, past, reach⟩ := (posted key r).mp (posted_stamp.mp new)
        exact settled.covered row present past reach
    · rcases settled.witnessed with kept | ⟨row, present, space, reached⟩
      · have same_mark : mark = index.hwm := kept.trans recorded.symm
        show mark = -1 ∨ ∃ r ∈ w.table.committed, mark ≤ r
        rw [same_mark]
        exact held.settled
      · exact Or.inr ⟨row.rowid, rows_committed tracked guarded uncommitted present space, reached⟩

/-- A compaction loses no posting of a live row and invents none. -/
theorem compact_indexed {options : Options} {script : CompactScript} {index compacted : IndexState Key}
    {localRows : List (BaseRow Text)} (tracked : Tracked gramKeys w)
    (found : w.index = some (options, index)) (trusted : w.table.guard.unsafeReuse = false)
    (recorded : index.hwm = script.hwm)
    (run : executeCompact script (w.rows ++ localRows) index = .ok compacted) :
    Indexed (gramKeys options) w.rows w.table.committed compacted ∧ compacted.hwm = index.hwm := by
  have held := tracked.indexed options index found trusted
  have space : script.hwm < maxRowId := recorded ▸ (tracked.mark options index found).2
  obtain ⟨_, mark, posted⟩ := executeCompact_posted space run
  have same : compacted.hwm = index.hwm := mark.trans recorded.symm
  refine ⟨⟨?_, ?_, ?_⟩, same⟩
  · intro row present text value below key in_text
    rw [same] at below
    apply (posted key row.rowid).2 (held.covered row present text value below key in_text)
    intro _
    exact ⟨row, List.mem_append_left _ present, rfl, by rw [value]; rfl⟩
  · intro key r posts
    rw [same]
    exact held.bounded key r ((posted key r).1 posts)
  · rw [same]
    exact held.settled

theorem createdMark_spec (base : List (BaseRow Text)) :
    (∀ row ∈ base, row.rowid < maxRowId → (row.rowid : Int) ≤ createdMark base) ∧
      (createdMark base = -1 ∨ ∃ row ∈ base, row.rowid < maxRowId ∧ createdMark base = row.rowid) := by
  obtain ⟨above, at_top⟩ := @max_mark (committedAbove base (-1)) (-1)
  constructor
  · intro row present settled
    apply above
    exact mem_committedAbove.mpr ⟨row, present, rfl, by omega, by omega⟩
  · rcases at_top with listed | ⟨_, unset⟩
    · obtain ⟨row, present, same, _, settled⟩ := mem_committedAbove.mp listed
      exact Or.inr ⟨row, present, by omega, same.symm⟩
    · exact Or.inl unset

theorem createdIndex_indexed {options : Options} {totalRows partitions : Nat} {committed : List Nat}
    {localRows : List (BaseRow Text)} (space : totalRows ≤ maxRowId)
    (known : ∀ row ∈ w.rows ++ localRows, row.rowid < maxRowId → row.rowid ∈ committed) :
    Indexed (gramKeys options) w.rows committed
      (createdIndex (gramKeys options) (w.rows ++ localRows) totalRows partitions) := by
  obtain ⟨above, at_top⟩ := createdMark_spec (w.rows ++ localRows)
  have inside : ∀ range ∈ segmentAlignedRanges 0 (totalRows - 1) partitions true, range.2 < maxRowId := by
    intro range listed
    have bounds := (segmentAlignedRanges_inside range listed).2
    simp only [if_true] at bounds
    omega
  have posted := fun key r => @packRanges_posted _ _ _ (gramKeys options) (w.rows ++ localRows) _ inside key r
  have mark : (createdIndex (gramKeys options) (w.rows ++ localRows) totalRows partitions).hwm =
      createdMark (w.rows ++ localRows) := rfl
  refine ⟨?_, ?_, ?_⟩
  · intro row present text value below key in_text
    rw [mark] at below
    have settled : row.rowid < maxRowId := by
      rcases at_top with unset | ⟨top, _, space, same⟩
      · omega
      · omega
    show Posted ([] ++ _) key row.rowid
    rw [List.nil_append, posted_stamp]
    obtain ⟨range, listed, low, high⟩ := @segmentAlignedRanges_cover 0 (totalRows - 1) row.rowid partitions
      true (Int.natCast_nonneg _) (by simp only [if_true]; omega)
    exact (posted key row.rowid).mpr ⟨range, listed, mem_rangePairs.mpr
      ⟨row, List.mem_append_left _ present, text, rfl, value, in_text, low, high⟩⟩
  · intro key r posts
    have posts : Posted ([] ++ _) key r := posts
    rw [List.nil_append, posted_stamp] at posts
    obtain ⟨range, listed, pair⟩ := (posted key r).mp posts
    obtain ⟨row, present, _, rfl, _, _, _, high⟩ := mem_rangePairs.mp pair
    have last := inside range listed
    exact above row present (by omega)
  · rcases at_top with unset | ⟨row, present, space, same⟩
    · exact Or.inl unset
    · exact Or.inr ⟨row.rowid, known row present space, same.le⟩

theorem created_step {options : Options} {sharesGuard : Bool} {totalRows partitions : Nat} {token : String}
    {table : GuardedTable} {localRows : List (BaseRow Text)} (tracked : Tracked gramKeys w)
    (space : totalRows ≤ maxRowId)
    (uncommitted : ∀ row ∈ localRows, maxRowId ≤ row.rowid)
    (run : creationGuard w sharesGuard token = .ok table) :
    Tracked gramKeys { w with
      table := table
      guarded := true
      index := some (options,
        createdIndex (gramKeys options) (w.rows ++ localRows) totalRows partitions) } := by
  obtain ⟨placed, live, watched, known⟩ := creationGuard_ok tracked run
  have rowsLive : w.rows.map BaseRow.rowid = table.live := tracked.rowsLive.trans live.symm
  constructor
  case placed => exact placed
  case rowsLive => exact rowsLive
  case watched =>
    intro _
    exact watched
  case known =>
    intro _
    exact known
  case guards =>
    intro _
    rfl
  case mark =>
    intro _ _ same
    cases same
    obtain ⟨_, at_top⟩ := createdMark_spec (w.rows ++ localRows)
    show -1 ≤ createdMark (w.rows ++ localRows) ∧ createdMark (w.rows ++ localRows) < maxRowId
    have some_row : (0 : Int) < maxRowId := by decide
    rcases at_top with unset | ⟨row, _, settled, top⟩
    · omega
    · omega
  case indexed =>
    intro _ _ same _
    cases same
    apply createdIndex_indexed space
    intro row present settled
    rcases List.mem_append.mp present with standing | of_transaction
    · apply known
      rw [← rowsLive]
      exact List.mem_map_of_mem standing
    · exact absurd settled (not_lt.mpr (uncommitted row of_transaction))
  case expanded => exact tracked.expanded

theorem runPrepared_step [DecidableEq Options] {script : Prepared Options} {token : String}
    {localRows : List (BaseRow Text)} (tracked : Tracked gramKeys w) (expanded : Expanded script)
    (uncommitted : ∀ row ∈ localRows, maxRowId ≤ row.rowid)
    (run : runPrepared gramKeys w token localRows script = .ok u) : Tracked gramKeys u ∧ Advances w u := by
  cases script with
  | create options sharesGuard totalRows partitions =>
    obtain ⟨absent, run⟩ := check_ok run
    obtain ⟨table, guard, run⟩ := bind_ok run
    cases ok_inj run
    have nothing : w.index = none := by simpa using absent
    refine ⟨created_step tracked expanded uncommitted guard, ?_, ?_, ?_⟩
    · intro _ _ found
      rw [nothing] at found
      exact nomatch found
    · intro present
      exact absurd nothing present
    · intro _ _ found
      rw [nothing] at found
      exact nomatch found
  | refresh options script =>
    obtain ⟨index, checked, run⟩ := bind_ok run
    obtain ⟨refreshed, ran, run⟩ := bind_ok run
    cases ok_inj run
    obtain ⟨found, recorded, trusted⟩ := checkPreparedMaintenance_ok checked
    obtain ⟨held, forward, space⟩ :=
      refresh_indexed tracked expanded uncommitted found recorded trusted ran
    exact maintained_step tracked found forward space held
  | compact options script =>
    obtain ⟨index, checked, run⟩ := bind_ok run
    obtain ⟨compacted, ran, run⟩ := bind_ok run
    cases ok_inj run
    obtain ⟨found, recorded, trusted⟩ := checkPreparedMaintenance_ok checked
    obtain ⟨held, same⟩ := compact_indexed tracked found trusted recorded ran
    have space := (tracked.mark options index found).2
    exact maintained_step tracked found same.ge (same ▸ space) held

end Maintenance

section Runs
variable [DecidableEq Options] [DecidableEq Key]
variable {gramKeys : Options → Text → List Key} {w u : IndexedTable Options Text Key}

theorem index_step {e : IndexEvent Options Text} (tracked : Tracked gramKeys w)
    (step : indexStep gramKeys w e = some u) : Tracked gramKeys u ∧ Advances w u := by
  cases e with
  | host e values => exact host_step tracked step
  | indexOtherColumn token =>
    simp only [indexStep, Option.ite_none_right_eq_some, Option.some.injEq] at step
    obtain ⟨⟨unguarded, _⟩, rfl⟩ := step
    have nothing : w.index = none := by
      by_contra present
      rw [tracked.guards present] at unguarded
      exact nomatch unguarded
    have distinct := tracked.placed.distinct
    have below := tracked.placed.below
    refine ⟨⟨guardCreated_placed tracked.placed token, tracked.rowsLive,
      fun _ => created_watched w.table.db token distinct below, fun _ r present => present,
      fun _ => rfl, tracked.mark, ?_, tracked.expanded⟩, ?_, fun present => absurd nothing present, ?_⟩
    · intro _ _ found
      rw [nothing] at found
      exact nomatch found
    · intro _ _ found
      rw [nothing] at found
      exact nomatch found
    · intro _ _ found
      rw [nothing] at found
      exact nomatch found
  | prepareCreate options totalRows partitions =>
    simp only [indexStep, Option.ite_none_right_eq_some, Option.some.injEq] at step
    obtain ⟨space, rfl⟩ := step
    apply prepare_step tracked
    intro prepared run
    obtain ⟨_, run⟩ := check_ok run
    cases ok_inj run
    exact space
  | prepareRefresh totalRows partitions maxRows =>
    simp only [indexStep, Option.ite_none_right_eq_some, Option.some.injEq] at step
    obtain ⟨space, rfl⟩ := step
    apply prepare_step tracked
    intro prepared run
    exact refresh_expanded space run
  | prepareCompact purge fragmented partitions =>
    simp only [indexStep, Option.some.injEq] at step
    subst step
    apply prepare_step tracked
    intro prepared run
    obtain ⟨⟨options, index⟩, _, run⟩ := bind_ok run
    cases ok_inj run
    exact trivial
  | run handle token localRows =>
    simp only [indexStep, Option.ite_none_right_eq_some, Option.map_eq_some_iff] at step
    obtain ⟨uncommitted, script, pending, step⟩ := step
    have others : ∀ other ∈ w.pending.eraseIdx handle, Expanded other := fun other kept =>
      tracked.expanded other (List.mem_of_mem_eraseIdx kept)
    obtain ⟨taken, moved⟩ := pending_step tracked others
    have expanded := tracked.expanded script (List.mem_of_getElem? pending)
    split at step
    · subst step
      exact ⟨taken, moved⟩
    · rename_i done ran
      subst step
      obtain ⟨after, advanced⟩ := runPrepared_step taken expanded uncommitted ran
      exact ⟨after, advances_trans moved advanced⟩
  | rollback handle =>
    simp only [indexStep, Option.ite_none_right_eq_some, Option.some.injEq] at step
    obtain ⟨_, rfl⟩ := step
    apply pending_step tracked
    intro other kept
    exact tracked.expanded other (List.mem_of_mem_eraseIdx kept)

theorem run_tracked {events : List (IndexEvent Options Text)} (tracked : Tracked gramKeys w)
    (run : exec (indexStep gramKeys) w events = some u) : Tracked gramKeys u ∧ Advances w u := by
  have preserves : ∀ s e t, Tracked gramKeys s ∧ Advances w s → indexStep gramKeys s e = some t →
      Tracked gramKeys t ∧ Advances w t := by
    intro s e t held step
    obtain ⟨after, advanced⟩ := index_step held.1 step
    exact ⟨after, advances_trans held.2 advanced⟩
  exact exec_invariant preserves run ⟨tracked, advances_refl w⟩

/-- In every reachable state the index covers the live rows at or below its mark
    and posts nothing past it; from there on the mark only moves forward, and
    what is committed later lies past it, while the guard is safe. -/
theorem coverage_over_runs (gramKeys : Options → Text → List Key) (db : AttachedDatabase) {nextRowId : Nat}
    {rows : List (BaseRow Text)} (distinct : (rows.map BaseRow.rowid).Nodup)
    (below : ∀ row ∈ rows, row.rowid < nextRowId) {events : List (IndexEvent Options Text)}
    {w : IndexedTable Options Text Key} (run : exec (indexStep gramKeys) (unindexed db nextRowId rows) events = some w)
    {options : Options} {index : IndexState Key} (found : w.index = some (options, index)) :
    (w.table.guard.unsafeReuse = false →
      (∀ row ∈ w.rows, ∀ text, row.value = some text → (row.rowid : Int) ≤ index.hwm →
        ∀ key ∈ gramKeys options text, Posted index.segments key row.rowid) ∧
      (∀ key r, Posted index.segments key r → (r : Int) ≤ index.hwm) ∧
      w.table.issued.Nodup ∧ ∀ r ∈ w.table.inFlight, index.hwm < r) ∧
    ∀ later u, exec (indexStep gramKeys) w later = some u →
      (∃ next, u.index = some (options, next) ∧ index.hwm ≤ next.hwm) ∧
      (u.table.guard.unsafeReuse = false → w.table.guard.unsafeReuse = false ∧
        ∃ added, u.table.committed = w.table.committed ++ added ∧ u.table.committed.Nodup ∧
          ∀ r ∈ added, index.hwm < r) := by
  have tracked := (run_tracked (unindexed_tracked db distinct below) run).1
  have indexed_guard : w.index ≠ none := by simp [found]
  constructor
  · intro trusted
    have watched := tracked.watched (tracked.guards indexed_guard)
    have held := tracked.indexed options index found trusted
    exact ⟨held.covered, held.bounded, watched.distinct trusted,
      flight_past_mark watched trusted held.settled⟩
  · intro later u more
    obtain ⟨after, advanced⟩ := run_tracked tracked more
    refine ⟨advanced.mark options index found, fun trusted => ⟨?_, ?_⟩⟩
    · cases latched : w.table.guard.unsafeReuse with
      | false => rfl
      | true => exact absurd trusted (by simp [advanced.latched indexed_guard latched])
    · obtain ⟨added, grown, past⟩ := advanced.fresh options index found trusted
      obtain ⟨next, kept, _⟩ := advanced.mark options index found
      have watched := after.watched (after.guards (by simp [kept]))
      exact ⟨added, grown, (List.nodup_append.mp (watched.distinct trusted)).1, past⟩

/-- A refresh that runs after another commit, in a transaction with a row of its
    own, a bounded refresh that no longer fits its mark, and a purge. -/
def maintainedRun : List (IndexEvent Unit (List Nat)) :=
  [.prepareCreate () 2 1, .run 0 "guard" [],
    .host .beginAppend [], .host (.chunk (.sequence 2 1 2)) [], .host .commitAppend [some [7], some [7, 9]],
    .prepareRefresh 4 2 none, .prepareRefresh 4 1 (some 1),
    .host (.delete [0]) [], .host .beginAppend [], .host (.chunk (.flat [4])) [], .host .commitAppend [some [9]],
    .run 0 "" [⟨maxRowId, some [5]⟩], .run 0 "" [],
    .prepareCompact true true 3, .prepareCompact false true 1, .rollback 1, .run 0 "" []]

theorem purged_index_covers : ∃ w index,
    exec (indexStep fun _ text => text) (unindexed ⟨false, false, 7⟩ 2 [⟨0, some [7, 8]⟩, ⟨1, none⟩])
      maintainedRun = some w ∧ w.index = some ((), index) ∧ index.hwm = 4 ∧
    index.segments.map (fun row => (row.gramKey, row.rowids)) = [(7, [2, 3]), (9, [3, 4])] ∧
    ∀ row ∈ w.rows, ∀ text, row.value = some text → (row.rowid : Int) ≤ index.hwm →
      ∀ key ∈ text, Posted index.segments key row.rowid := by
  have ran : ((exec (indexStep fun _ text => text)
      (unindexed ⟨false, false, 7⟩ 2 [⟨0, some [7, 8]⟩, ⟨1, none⟩]) maintainedRun).bind fun w =>
        w.index.map fun index => (w.table.guard.unsafeReuse, index.2.hwm,
          index.2.segments.map fun row => (row.gramKey, row.rowids))) =
      some (false, 4, [(7, [2, 3]), (9, [3, 4])]) := by decide +kernel
  obtain ⟨w, run, described⟩ := Option.bind_eq_some_iff.mp ran
  obtain ⟨⟨_, index⟩, found, described⟩ := Option.map_eq_some_iff.mp described
  simp only [Prod.mk.injEq] at described
  obtain ⟨trusted, mark, rows⟩ := described
  exact ⟨w, index, run, found, mark, rows,
    ((coverage_over_runs _ _ (by decide) (by decide) run found).1 trusted).1⟩

end Runs
end NgramCoverage
