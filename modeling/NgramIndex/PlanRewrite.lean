import NgramIndex.LakeCandidates
import NgramIndex.LakeRowids
import NgramIndex.OperatorTrees
import NgramIndex.ReachableSearch

/- The optimizer's pass over a plan. A scan of a DuckDB table becomes a scan of one of its
   indexes, and a scan of a DuckLake table takes a filter on the rowids that an index
   proposes. Every other operator is left as it is. -/
namespace NgramPlanRewrite
open LabelledRun Fallible Utf8 OperatorTrees NgramGram NgramProbe NgramStorage NgramSearchCore NgramSearchInit
open NgramIndexedSearch NgramHealthyIndex NgramRewrite NgramReachableSearch NgramLake NgramLakeRowids
open scoped List

inductive ColumnIndex where
  | column (index : Nat)
  | rowId
  | virtual (id : Nat)
  deriving DecidableEq, Repr

structure NgramScanBindData where
  column : Nat
  needles : List RewriteNeedle
  deriving DecidableEq

inductive ScanFunction where
  | named (name : String)
  | ngramIndexScan (bind : NgramScanBindData)

/-- A scan's node in a plan. Filters are pushed on positions among the scanned columns,
    those on rowids beside the others; an empty projection outputs every scanned column. -/
structure LogicalGet where
  function : ScanFunction
  table : Option Nat
  columnIds : List ColumnIndex
  projectionIds : List Nat
  tableFilters : List FilterEntry
  rowidFilters : List (Nat × List Nat)
  sampled : Bool
  ordinality : Bool
  scanPartitions : List Nat
  atClause : Bool
  arguments : Bool
  rowGroupOrder : Bool
  projected : projectionIds.Pairwise (· < ·) ∧ ∀ i ∈ projectionIds, i < columnIds.length
  filtered : (∀ entry ∈ tableFilters, entry.column < columnIds.length) ∧
    ∀ entry ∈ rowidFilters, entry.1 < columnIds.length

/-- A row of a DuckDB table, its VARCHAR columns holding texts or NULL. -/
structure TableRow (columns : List LogicalType) where
  rowid : Nat
  values : List Value
  typed : ∀ i, columns[i]? = some .varchar → ∃ text, values.getD i .null = columnValue text
  deriving DecidableEq

def TableRow.text {columns : List LogicalType} (row : TableRow columns) (column : Nat) : Option String :=
  match row.values.getD column .null with
  | .varchar text => some text
  | _ => none

/-- A DuckDB table as a statement finds it: what its registry says of each column when the
    statement is planned, and what is read when it runs. -/
structure DuckTable (lower : Char → Nat) (mask : GramKeyMask) where
  columns : List LogicalType
  hasGeneratedColumns : Bool
  /-- Each index of a column, with the guard's reason against it. -/
  owned : Nat → Except String (List (GramOptions × String))
  settings : QuerySettings
  some_gram : 1 ≤ settings.maxGramsPerQuery
  storage : DataTable (TableRow columns)
  numbered : ∀ entry ∈ storage.visible, entry.2.rowid = entry.1
  artOnly : Bool
  localRows : List (TableRow columns)
  snapshot : Nat → TextTable
  now : Nat → TextTable
  changed : Nat → Option String
  segments : Nat → Option SegmentsTable
  reachable : ∀ column, columns[column]? = some .varchar → Reachable lower mask (snapshot column) (now column)
  stores : ∀ column, columns[column]? = some .varchar →
    Stores (fun row : TableRow columns => row.text column) storage (snapshot column).rows
  scans : ∀ column, columns[column]? = some .varchar → ∀ chunks, segments column = some chunks →
    ∀ keys, Scans (segmentRows (snapshot column)) chunks keys

/-- A row group of a DuckLake table with the least and greatest rowid it records. -/
structure LakeGroup where
  stats : Option (Int × Int)
  rows : List RowVersion
  described : ∀ low high, stats = some (low, high) → ∀ v ∈ rows, low ≤ (v.rowid : Int) ∧ (v.rowid : Int) ≤ high

/-- A DuckLake table at the snapshot of a statement, reached by inserts, updates, deletes
    and maintenance. The rows of a transaction that has written the lake may be others. -/
structure DuckLakeTable (host : LakeHost) where
  columns : List (String × LogicalType)
  events : List LakeEvent
  rows_only : ∀ e ∈ events, ∀ change ∈ e.changes, change.touches = false
  run : LakeRun
  reached : exec (lakeStep host) emptyLake events = some run
  snapshot : Nat
  writtenByTransaction : Bool
  limits : LakeProbeLimits
  statistics : LakeStatistics
  cell : RowVersion → Nat → Value
  typed : ∀ v i name, columns[i]? = some (name, .varchar) → cell v i = columnValue (v.text name)
  virtualCell : RowVersion → Nat → Value
  groups : List LakeGroup
  current : writtenByTransaction = false → ∀ group ∈ groups, ∀ v ∈ group.rows, Live run.lake snapshot v

inductive BaseTable (lower : Char → Nat) (mask : GramKeyMask) (host : LakeHost) where
  | duck (table : DuckTable lower mask)
  | lake (table : DuckLakeTable host)
  | foreign

abbrev Tuple := List Value

section Pass
variable {lower : Char → Nat} {mask : GramKeyMask} {host : LakeHost}

def LogicalGet.plain (get : LogicalGet) : Bool :=
  !get.sampled && !get.ordinality && get.scanPartitions.isEmpty &&
    get.columnIds.all fun id => match id with
      | .virtual _ => false
      | _ => true

/-- The table's column at a filter's position, where the position is of one. -/
def LogicalGet.scannedColumn (get : LogicalGet) (entry : FilterEntry) : Option Nat :=
  match get.columnIds[entry.column]? with
  | some (ColumnIndex.column column) => some column
  | _ => none

def DuckTable.probeableColumn (t : DuckTable lower mask) (get : LogicalGet) (entry : FilterEntry) :
    Option (Nat × List RewriteNeedle) :=
  match get.scannedColumn entry with
  | none => none
  | some column =>
      let needles := collectFilterNeedles entry.filter []
      if t.columns[column]? = some .varchar ∧ needles ≠ [] then some (column, needles) else none

def DuckTable.probeable (t : DuckTable lower mask) (get : LogicalGet) : List (Nat × List RewriteNeedle) :=
  get.tableFilters.filterMap (t.probeableColumn get)

/-- The first column with one index that the guard vouches for and a needle it can probe.
    A column that several indexes claim ends the search. -/
def DuckTable.chooseIndex (t : DuckTable lower mask) :
    List (Nat × List RewriteNeedle) → Except String (Option NgramScanBindData)
  | [] => .ok none
  | (column, needles) :: rest => do
      match ← t.owned column with
      | [] => t.chooseIndex rest
      | [(options, reason)] =>
          if reason ≠ "" then t.chooseIndex rest
          else
            let usable ← usableNeedles lower mask t.settings.maxProbeKeys options needles
            if usable = [] then t.chooseIndex rest else .ok (some ⟨column, usable⟩)
      | _ => .ok none

def LogicalGet.swapTo (get : LogicalGet) (bind : NgramScanBindData) : LogicalGet :=
  { get with function := .ngramIndexScan bind, rowGroupOrder := false }

def tryRewriteGet (tables : Nat → BaseTable lower mask host) (get : LogicalGet) : Except String LogicalGet :=
  match get.function, get.table.map tables with
  | .named "seq_scan", some (.duck t) =>
      if get.tableFilters.isEmpty || !get.plain || t.hasGeneratedColumns then .ok get
      else do
        match ← t.chooseIndex (t.probeable get) with
        | none => .ok get
        | some bind => .ok (get.swapTo bind)
  | _, _ => .ok get

/-- The candidates for a plan. A probe that fails leaves the scan to answer alone. -/
def DuckLakeTable.probeLakeIndex (lower : Char → Nat) (mask : GramKeyMask) (t : DuckLakeTable host)
    (columnName : String) (needles : List LakeNeedle) : LakeCandidates :=
  if t.writtenByTransaction then .scan "the transaction has written the lake"
  else if (t.run.lake.snapshots[t.snapshot]?.bind fun s => s.index.registry).isNone then .scan "no ngram index"
  else
    match probeAtSnapshot host lower mask t.run.lake t.snapshot t.limits t.statistics columnName needles with
    | .ok result => result
    | .error e => .scan ("the index could not be read: " ++ e)

def DuckLakeTable.searchedColumn (t : DuckLakeTable host) (get : LogicalGet) (entry : FilterEntry) :
    Option (String × Bool × List RewriteNeedle) :=
  match get.scannedColumn entry with
  | none => none
  | some column =>
      match t.columns[column]? with
      | some (name, LogicalType.varchar) => some (name, collectLakeNeedles entry.filter [])
      | _ => none

def rowIdPosition (ids : List ColumnIndex) : Option Nat :=
  ((ids.zipIdx.filter fun entry => decide (entry.1 = .rowId)).getLast?).map Prod.snd

theorem rowIdPosition_at {ids : List ColumnIndex} {position : Nat} (found : rowIdPosition ids = some position) :
    ids[position]? = some .rowId := by
  obtain ⟨⟨id, place⟩, last, rfl⟩ := Option.map_eq_some_iff.mp found
  obtain ⟨listed, rowid⟩ := List.mem_filter.mp (List.mem_of_getLast? last)
  rw [List.mk_mem_zipIdx_iff_getElem?] at listed
  rw [listed]
  exact congrArg some (of_decide_eq_true rowid)

def rowIdPlace (ids : List ColumnIndex) : Nat × List ColumnIndex :=
  match rowIdPosition ids with
  | some position => (position, ids)
  | none => (ids.length, ids ++ [.rowId])

theorem rowIdPlace_at (ids : List ColumnIndex) : (rowIdPlace ids).2[(rowIdPlace ids).1]? = some .rowId := by
  unfold rowIdPlace
  cases found : rowIdPosition ids with
  | none => simp
  | some position => exact rowIdPosition_at found

theorem rowIdPlace_extends (ids : List ColumnIndex) : ∃ more, (rowIdPlace ids).2 = ids ++ more := by
  unfold rowIdPlace
  cases rowIdPosition ids with
  | none => exact ⟨[.rowId], rfl⟩
  | some position => exact ⟨[], (List.append_nil ids).symm⟩

/-- Pushes a filter on the scan's rowid, scanning it without adding it to the output. -/
def pushRowidFilter (get : LogicalGet) (rowids : List Nat) : LogicalGet :=
  { get with
    columnIds := (rowIdPlace get.columnIds).2
    projectionIds :=
      -- an empty projection outputs every scanned column
      if get.projectionIds = [] ∧ rowIdPosition get.columnIds = none then List.range get.columnIds.length
      else get.projectionIds
    rowidFilters := get.rowidFilters ++ [((rowIdPlace get.columnIds).1, rowids)]
    rowGroupOrder := false
    projected := by
      obtain ⟨more, extended⟩ := rowIdPlace_extends get.columnIds
      have grows : get.columnIds.length ≤ (rowIdPlace get.columnIds).2.length := by
        rw [extended, List.length_append]
        exact Nat.le_add_right _ _
      split
      · exact ⟨List.pairwise_lt_range, fun i listed => (List.mem_range.mp listed).trans_le grows⟩
      · exact ⟨get.projected.1, fun i listed => (get.projected.2 i listed).trans_le grows⟩
    filtered := by
      obtain ⟨more, extended⟩ := rowIdPlace_extends get.columnIds
      have grows : get.columnIds.length ≤ (rowIdPlace get.columnIds).2.length := by
        rw [extended, List.length_append]
        exact Nat.le_add_right _ _
      refine ⟨fun entry listed => (get.filtered.1 entry listed).trans_le grows, fun entry listed => ?_⟩
      rcases List.mem_append.mp listed with before | pushed
      · exact (get.filtered.2 entry before).trans_le grows
      · obtain rfl := List.mem_singleton.mp pushed
        exact (List.getElem?_eq_some_iff.mp (rowIdPlace_at get.columnIds)).1 }

def DuckLakeTable.choose (lower : Char → Nat) (mask : GramKeyMask) (t : DuckLakeTable host) :
    List (String × List RewriteNeedle) → Option (List Nat)
  | [] => none
  | (name, needles) :: rest =>
      let candidates := t.probeLakeIndex lower mask name (needles.map fun needle => ⟨needle.text, needle.requiresCi⟩)
      if candidates.useIndex then candidates.rowids else t.choose lower mask rest

def tryRewriteLakeGet (tables : Nat → BaseTable lower mask host) (autoAccelerate : Bool) (get : LogicalGet) :
    LogicalGet :=
  match get.table.map tables with
  | some (.lake t) =>
      if get.tableFilters.isEmpty || get.atClause || get.sampled || get.arguments then get
      else
        let found := get.tableFilters.filterMap (t.searchedColumn get)
        let probeable := found.filterMap fun column =>
          if column.2.2.isEmpty then none else some (column.1, column.2.2)
        if probeable.isEmpty || !(autoAccelerate || found.any fun column => column.2.1) then get
        else
          match t.choose lower mask probeable with
          | none => get
          | some rowids => pushRowidFilter get rowids
  | _ => get

def rewriteGet (tables : Nat → BaseTable lower mask host) (autoAccelerate : Bool) (get : LogicalGet) :
    Except String LogicalGet := do
  let get ← if autoAccelerate then tryRewriteGet tables get else .ok get
  .ok (tryRewriteLakeGet tables autoAccelerate get)

inductive LogicalOperator (Other : Type) where
  | get (get : LogicalGet)
  | other (op : Other)

def rewriteOperator {Other : Type} (tables : Nat → BaseTable lower mask host) (autoAccelerate : Bool) :
    LogicalOperator Other → Except String (LogicalOperator Other)
  | .get get => do
      let get ← rewriteGet tables autoAccelerate get
      .ok (.get get)
  | .other op => .ok (.other op)

end Pass

section Meaning
variable {lower : Char → Nat} {mask : GramKeyMask} {host : LakeHost}

def TableRow.scanned {columns : List LogicalType} (row : TableRow columns) : ColumnIndex → Value
  | .column index => row.values.getD index .null
  | .rowId => .other row.rowid
  | .virtual _ => .null

def DuckLakeTable.scanned (t : DuckLakeTable host) (v : RowVersion) : ColumnIndex → Value
  | .column index => t.cell v index
  | .rowId => .other v.rowid
  | .virtual id => t.virtualCell v id

/-- Filter columns are removed where the projection is of fewer columns than are scanned. -/
def LogicalGet.outputIds (get : LogicalGet) : List Nat :=
  if get.projectionIds = [] ∨ get.projectionIds.length = get.columnIds.length then List.range get.columnIds.length
  else get.projectionIds

def LogicalGet.output (get : LogicalGet) (values : List Value) : Tuple :=
  get.outputIds.map fun position => values.getD position .null

/-- The filter on rowids, as its function answers a chunk of one row. -/
def rowidPasses (rowids : List Nat) : Value → Bool
  | .other rowid => decide (lakeRowidsFunction (rowids.map Int.ofNat) [some (rowid : Int)] = [some true])
  | _ => false

/-- The pushed filters on a row's scanned values. An optional filter need not be applied. -/
def LogicalGet.passes (lower : Char → Nat) (calls : String → List Value → Value) (get : LogicalGet)
    (values : List Value) : Bool :=
  (get.tableFilters.all fun entry => entry.filter.isOptional ||
      decide (entry.filter.eval lower calls (values.getD entry.column .null) = .boolean true)) &&
    get.rowidFilters.all fun entry => rowidPasses entry.2 (values.getD entry.1 .null)

def DuckTable.scannedTypes (t : DuckTable lower mask) (get : LogicalGet) : List LogicalType :=
  get.columnIds.map fun id => match id with
    | .column index => t.columns.getD index .other
    | .rowId | .virtual _ => .other

def LakeGroup.survives (get : LogicalGet) (group : LakeGroup) : Bool :=
  get.rowidFilters.all fun entry =>
    decide (lakeRowidsPrune (some (entry.2.map Int.ofNat)) group.stats ≠ .filterAlwaysFalse)

def DuckLakeTable.scannedGroups (t : DuckLakeTable host) (get : LogicalGet) : List LakeGroup :=
  if get.scanPartitions.isEmpty then t.groups else get.scanPartitions.filterMap fun partition => t.groups[partition]?

variable (calls : String → List Value → Value)

def DuckTable.seqScan (t : DuckTable lower mask) (get : LogicalGet) : List Tuple :=
  (((t.storage.visible.map Prod.snd ++ t.localRows).map fun row => get.columnIds.map row.scanned).filter
    (get.passes lower calls)).map get.output

def DuckLakeTable.scan (lower : Char → Nat) (t : DuckLakeTable host) (get : LogicalGet) : List Tuple :=
  (((((t.scannedGroups get).filter (LakeGroup.survives get)).flatMap LakeGroup.rows).map fun v =>
    get.columnIds.map (t.scanned v)).filter (get.passes lower calls)).map get.output

/-- What init makes of a swapped scan: the recheck of fetched candidates, and the core. -/
def DuckTable.initIndexScan (t : DuckTable lower mask) (get : LogicalGet) (bind : NgramScanBindData)
    (extraColumns : Bool) : Except String (Recheck × SearchCore) := do
  let recheck ← buildRecheckExpression get.tableFilters (t.scannedTypes get)
  let verdict := validateIndex (t.snapshot bind.column) (t.now bind.column) (t.changed bind.column)
  let (_, outcome) ← ngramScanInitGlobal lower mask t.settings verdict (t.segments bind.column) bind.needles
  let core ← outcome.core (segmentRows (t.snapshot bind.column)) extraColumns
  .ok (recheck, core)

/-- A run of the swapped scan's workers to their end, in any interleaving, through
    checkpoints that carry no matching row between the units begun and the others. -/
def DuckTable.IndexScans (t : DuckTable lower mask) (get : LogicalGet) (bind : NgramScanBindData)
    (outcome : Except String (List Tuple)) : Prop :=
  ∃ extraColumns, (∃ e, t.initIndexScan get bind extraColumns = .error e ∧ outcome = .error e) ∨
    ∃ recheck core filters workers events s, t.initIndexScan get bind extraColumns = .ok (recheck, core) ∧
      (∀ row, filters.passes row = recheck.keeps lower calls (get.columnIds.map row.scanned)) ∧ 0 < workers ∧
      Along (searchStep core filters) (KeepsSides filters)
        (startSearch core t.storage t.artOnly t.localRows workers) events ∧
      exec (searchStep core filters) (startSearch core t.storage t.artOnly t.localRows workers) events = some s ∧
      s.finished ∧ outcome = .ok (s.emitted.map fun row => get.output (get.columnIds.map row.scanned))

/-- What a scan may yield; those the pass never touches are the host's. Rows come in any order. -/
def getYields (tables : Nat → BaseTable lower mask host) (hostScan : Meaning LogicalGet (List Tuple) String) :
    Meaning LogicalGet (List Tuple) String := fun get inputs outcome =>
  match get.table.map tables, get.function with
  | some (.duck t), .ngramIndexScan bind => t.IndexScans calls get bind outcome
  | some (.duck t), .named name =>
      if name = "seq_scan" ∧ get.plain ∧ !t.hasGeneratedColumns then ∃ rows, outcome = .ok rows ∧ rows ~ t.seqScan calls get
      else hostScan get inputs outcome
  | some (.lake t), .named _ =>
      if get.atClause ∨ get.sampled ∨ get.arguments ∨ get.ordinality then hostScan get inputs outcome
      else ∃ rows, outcome = .ok rows ∧ rows ~ t.scan calls lower get
  | _, _ => hostScan get inputs outcome

def operatorYields {Other : Type} (tables : Nat → BaseTable lower mask host)
    (hostScan : Meaning LogicalGet (List Tuple) String) (hostOperator : Meaning Other (List Tuple) String) :
    Meaning (LogicalOperator Other) (List Tuple) String
  | .get get, inputs, outcome => getYields calls tables hostScan get inputs outcome
  | .other op, inputs, outcome => hostOperator op inputs outcome

end Meaning

section Swapped
variable {lower : Char → Nat} {mask : GramKeyMask} {calls : String → List Value → Value}
  {t : DuckTable lower mask} {get : LogicalGet} {bind : NgramScanBindData} {entry : FilterEntry}
  {recheck : Recheck} {extraColumns : Bool}

theorem usableNeedles_returns (maxKeys : Nat) (options : GramOptions) (needles : List RewriteNeedle) :
    ∃ usable, usableNeedles lower mask maxKeys options needles = .ok usable := by
  induction needles with
  | nil => exact ⟨[], rfl⟩
  | cons needle rest ih =>
    obtain ⟨others, recursive⟩ := ih
    unfold usableNeedles
    split
    · exact ⟨others, recursive⟩
    · obtain ⟨shape, keys, decomposed⟩ := @decomposeNeedle_returns lower options mask needle.text maxKeys .empty
      rw [bind_of_ok decomposed]
      exact ⟨_, bind_of_ok recursive⟩

/-- What the pass knows of a scan that it swaps in. -/
structure Swapped (t : DuckTable lower mask) (get : LogicalGet) (bind : NgramScanBindData) (entry : FilterEntry) :
    Prop where
  pushed : entry ∈ get.tableFilters
  scanned : get.columnIds[entry.column]? = some (.column bind.column)
  varchar : t.columns[bind.column]? = some .varchar
  planned : ∃ maxKeys options,
    usableNeedles lower mask maxKeys options (collectFilterNeedles entry.filter []) = .ok bind.needles

theorem chooseIndex_from {columns : List (Nat × List RewriteNeedle)} (run : t.chooseIndex columns = .ok (some bind)) :
    ∃ needles, (bind.column, needles) ∈ columns ∧ ∃ maxKeys options,
      usableNeedles lower mask maxKeys options needles = .ok bind.needles := by
  induction columns with
  | nil => cases ok_inj run
  | cons first rest ih =>
    obtain ⟨column, needles⟩ := first
    have later (run : t.chooseIndex rest = .ok (some bind)) : ∃ found, (bind.column, found) ∈
        (column, needles) :: rest ∧ ∃ maxKeys options,
          usableNeedles lower mask maxKeys options found = .ok bind.needles := by
      obtain ⟨found, listed, kept⟩ := ih run
      exact ⟨found, List.mem_cons_of_mem _ listed, kept⟩
    unfold DuckTable.chooseIndex at run
    obtain ⟨owned, _, run⟩ := bind_ok run
    split at run
    · exact later run
    · rename_i options reason _
      rcases branch_ok run with ⟨_, run⟩ | ⟨_, run⟩
      · exact later run
      · obtain ⟨usable, kept, run⟩ := bind_ok run
        rcases branch_ok run with ⟨_, run⟩ | ⟨_, run⟩
        · exact later run
        · cases ok_inj run
          exact ⟨needles, List.mem_cons_self, _, options, kept⟩
    · cases ok_inj run

theorem chooseIndex_fails (columns : List (Nat × List RewriteNeedle)) :
    FailsOnly (fun e => ∃ column, t.owned column = .error e) (t.chooseIndex columns) := by
  induction columns with
  | nil => exact fails_ok none
  | cons first rest ih =>
    obtain ⟨column, needles⟩ := first
    unfold DuckTable.chooseIndex
    refine fails_bind (fun e failed => ⟨column, failed⟩) fun owned _ => ?_
    split
    · exact ih
    · rename_i options reason _
      refine fails_branch (fun _ => ih) fun _ => ?_
      obtain ⟨usable, kept⟩ := @usableNeedles_returns lower mask t.settings.maxProbeKeys options needles
      rw [bind_of_ok kept]
      exact fails_branch (fun _ => ih) fun _ => fails_ok _
    · exact fails_ok none

theorem scannedColumn_at {column : Nat} (scanned : get.scannedColumn entry = some column) :
    get.columnIds[entry.column]? = some (.column column) := by
  unfold LogicalGet.scannedColumn at scanned
  split at scanned
  · rename_i found
    cases scanned
    exact found
  · cases scanned

theorem chosen_swapped (run : t.chooseIndex (t.probeable get) = .ok (some bind)) : ∃ entry, Swapped t get bind entry := by
  obtain ⟨needles, listed, kept⟩ := chooseIndex_from run
  obtain ⟨entry, pushed, probed⟩ := List.mem_filterMap.mp listed
  unfold DuckTable.probeableColumn at probed
  split at probed
  · cases probed
  · rename_i column scanned
    obtain ⟨⟨varchar, _⟩, same⟩ := Option.ite_none_right_eq_some.mp probed
    cases same
    exact ⟨entry, pushed, scannedColumn_at scanned, varchar, kept⟩

theorem text_value {columns : List LogicalType} {column : Nat} (varchar : columns[column]? = some .varchar)
    (row : TableRow columns) : row.values.getD column .null = columnValue (row.text column) := by
  obtain ⟨text, typed⟩ := row.typed column varchar
  unfold TableRow.text
  rw [typed]
  cases text <;> rfl

theorem scanned_getD {α : Type} {ids : List α} {position : Nat} {id : α} (found : ids[position]? = some id)
    (value : α → Value) : (ids.map value).getD position .null = value id := by
  rw [List.getD_eq_getElem?_getD, List.getElem?_map, found]
  rfl

theorem recheck_built (filters : List FilterEntry) (types : List LogicalType)
    (inside : ∀ entry ∈ filters, entry.column < types.length) :
    ∃ recheck, buildRecheckExpression filters types = .ok recheck := by
  have each : ∀ built : Recheck, ∃ recheck, filters.foldlM (Recheck.add types) built = .ok recheck := by
    induction filters with
    | nil => exact fun built => ⟨built, rfl⟩
    | cons entry rest ih =>
      intro built
      obtain ⟨first, others⟩ := List.forall_mem_cons.mp inside
      have added : ∃ next, built.add types entry = .ok next := by
        unfold Recheck.add
        rw [check_of_not (Nat.not_le_of_lt first)]
        split
        · exact ⟨built, rfl⟩
        · cases built.expr <;> exact ⟨_, rfl⟩
      obtain ⟨next, step⟩ := added
      rw [List.foldlM_cons, bind_of_ok step]
      exact ih others next
  exact each ⟨none, []⟩

theorem recheck_passes {types : List LogicalType} (built : buildRecheckExpression get.tableFilters types = .ok recheck)
    (unpushed : get.rowidFilters = []) (values : List Value) :
    recheck.keeps lower calls values = get.passes lower calls values := by
  have same := @recheck_exact lower calls _ _ _ built values
  rw [Bool.eq_iff_iff, same, LogicalGet.passes, unpushed, List.all_nil, Bool.and_true, List.all_eq_true]
  refine forall_congr' fun entry => imp_congr_right fun _ => ?_
  cases entry.filter.isOptional <;> simp

theorem tryProbeIndex_fails (varchar : t.columns[bind.column]? = some .varchar) :
    Overflows (tryProbeIndex lower mask t.settings
      (validateIndex (t.snapshot bind.column) (t.now bind.column) (t.changed bind.column)) (t.segments bind.column)
      bind.needles) := by
  unfold tryProbeIndex
  refine fails_branch (fun _ => fails_ok _) fun silent => fails_bind ?_ fun found _ => ?_
  · refine fails_foldlM _ _ fun state needle _ => ?_
    unfold addNeedle
    refine fails_branch (fun _ => fails_ok _) fun _ => ?_
    obtain ⟨shape, own, decomposed⟩ := @decomposeNeedle_returns lower
      (validateIndex (t.snapshot bind.column) (t.now bind.column) (t.changed bind.column)).options mask needle.text
      t.settings.maxProbeKeys .empty
    rw [bind_of_ok decomposed]
    exact fails_branch (fun _ => fails_ok _) fun _ => fails_ok _
  · refine fails_branch (fun _ => fails_ok _) fun _ => ?_
    exact probeKeys_accepts (reachable_reached (t.reachable _ varchar)) (t.scans _ varchar) (not_not.mp silent) found.1

def swappedScan (t : DuckTable lower mask) (swapped : Swapped t get bind entry)
    (built : buildRecheckExpression get.tableFilters (t.scannedTypes get) = .ok recheck) {mode : NgramScanMode}
    {outcome : ProbeOutcome} (init : ngramScanInitGlobal lower mask t.settings
      (validateIndex (t.snapshot bind.column) (t.now bind.column) (t.changed bind.column)) (t.segments bind.column)
      bind.needles = .ok (mode, outcome)) (filters : ScanFilters (TableRow t.columns))
    (applied : ∀ row, filters.passes row = recheck.keeps lower calls (get.columnIds.map row.scanned)) :
    TransparentScan lower calls mask (TableRow t.columns) where
  table := t.storage
  value row := row.text bind.column
  scanned row := get.columnIds.map row.scanned
  scannedTypes := t.scannedTypes get
  pushed := get.tableFilters
  indexed := entry
  indexed_pushed := swapped.pushed
  layout row := (scanned_getD swapped.scanned row.scanned).trans (text_value swapped.varchar row)
  needles := bind.needles
  planned := swapped.planned
  recheck := recheck
  built := built
  filters := filters
  applied := applied
  settings := t.settings
  some_gram := t.some_gram
  verdict := validateIndex (t.snapshot bind.column) (t.now bind.column) (t.changed bind.column)
  segments := t.segments bind.column
  visible := segmentRows (t.snapshot bind.column)
  index usable := reached_covering (reachable_reached (t.reachable _ swapped.varchar)) (t.stores _ swapped.varchar)
    (t.scans _ swapped.varchar) usable
  mode := mode
  outcome := outcome
  init := init

/-- What init hands over covers the rows that pass; it fails on its own arithmetic alone. -/
theorem initIndexScan_spec (keeps : LowerKeepsWildcards lower) (swapped : Swapped t get bind entry) :
    Overflows (t.initIndexScan get bind extraColumns) ∧
    ∀ recheck core, t.initIndexScan get bind extraColumns = .ok (recheck, core) →
      buildRecheckExpression get.tableFilters (t.scannedTypes get) = .ok recheck ∧
      ∀ filters : ScanFilters (TableRow t.columns),
        (∀ row, filters.passes row = recheck.keeps lower calls (get.columnIds.map row.scanned)) →
        Probed filters core t.storage := by
  have inside : ∀ entry ∈ get.tableFilters, entry.column < (t.scannedTypes get).length := by
    intro entry listed
    rw [DuckTable.scannedTypes, List.length_map]
    exact get.filtered.1 entry listed
  obtain ⟨recheck, built⟩ := recheck_built get.tableFilters (t.scannedTypes get) inside
  have hands : ∀ mode outcome, ngramScanInitGlobal lower mask t.settings
      (validateIndex (t.snapshot bind.column) (t.now bind.column) (t.changed bind.column)) (t.segments bind.column)
      bind.needles = .ok (mode, outcome) → ∀ filters : ScanFilters (TableRow t.columns),
      (∀ row, filters.passes row = recheck.keeps lower calls (get.columnIds.map row.scanned)) →
      ∃ core, outcome.core (segmentRows (t.snapshot bind.column)) extraColumns = .ok core ∧
        Probed filters core t.storage := by
    intro mode outcome init filters applied
    exact scan_probed keeps (swappedScan t swapped built init filters applied) extraColumns
  unfold DuckTable.initIndexScan
  rw [bind_of_ok built]
  constructor
  · refine fails_bind ?_ fun found init => ?_
    · unfold ngramScanInitGlobal
      exact fails_bind (tryProbeIndex_fails swapped.varchar) fun _ _ => fails_ok _
    · obtain ⟨core, handed, _⟩ := hands found.1 found.2 init
        (unprunedFilters fun row => recheck.keeps lower calls (get.columnIds.map row.scanned)) fun _ => rfl
      simp only [bind_of_ok handed]
      exact fails_ok _
  · intro recheck' core run
    obtain ⟨⟨mode, outcome⟩, init, run⟩ := bind_ok run
    obtain ⟨core', handed, run⟩ := bind_ok run
    obtain ⟨rfl, rfl⟩ := Prod.mk.inj (ok_inj run)
    refine ⟨built, fun filters applied => ?_⟩
    obtain ⟨core', handed', probed⟩ := hands mode outcome init filters applied
    cases ok_inj (handed.symm.trans handed')
    exact probed

theorem index_scan_within (keeps : LowerKeepsWildcards lower) (swapped : Swapped t get bind entry)
    (unpushed : get.rowidFilters = []) {outcome : Except String (List Tuple)}
    (yielded : t.IndexScans calls get bind outcome) :
    (∃ rows, outcome = .ok rows ∧ rows ~ t.seqScan calls get) ∨ outcome = .error overflow := by
  obtain ⟨extraColumns, ⟨e, failed, rfl⟩ | ⟨recheck, core, filters, workers, events, s, init, applied, some_worker,
    keeps_sides, run, finished, rfl⟩⟩ := yielded
  · exact .inr (congrArg _ ((@initIndexScan_spec _ _ calls _ _ _ _ _ keeps swapped).1 e failed))
  · obtain ⟨built, covers⟩ := (@initIndexScan_spec _ _ calls _ _ _ _ _ keeps swapped).2 recheck core init
    have exact_search := search_exact_along (covers filters applied) some_worker keeps_sides run
    refine .inl ⟨_, rfl, ?_⟩
    have passes : filters.passes = get.passes lower calls ∘ fun row => get.columnIds.map row.scanned := by
      funext row
      rw [applied, recheck_passes built unpushed]
      rfl
    have emitted := (exact_search.complete finished).map fun row => get.output (get.columnIds.map row.scanned)
    rw [SearchState.matches, passes] at emitted
    refine emitted.trans (List.Perm.of_eq ?_)
    rw [DuckTable.seqScan, List.filter_map, List.map_map]
    rfl

/-- Some run of a swapped scan comes to its end. -/
theorem index_scan_some (keeps : LowerKeepsWildcards lower) (swapped : Swapped t get bind entry) :
    ∃ outcome, t.IndexScans calls get bind outcome := by
  cases init : t.initIndexScan get bind false with
  | error e => exact ⟨.error e, false, .inl ⟨e, init, rfl⟩⟩
  | ok handed =>
    obtain ⟨recheck, core⟩ := handed
    obtain ⟨_, covers⟩ := (@initIndexScan_spec _ _ calls _ _ _ _ _ keeps swapped).2 recheck core init
    have probed := covers (unprunedFilters fun row => recheck.keeps lower calls (get.columnIds.map row.scanned))
      fun _ => rfl
    have live := @search_live_along _ core _ _ (startSearch core t.storage t.artOnly t.localRows 1) t.storage
      t.artOnly t.localRows 1 probed [] trivial rfl
    obtain ⟨events, s, own, run, finished⟩ := live.finishes
    refine ⟨_, false, .inr ⟨recheck, core, _, 1, events, s, init, fun _ => rfl, Nat.one_pos, ?_, run, finished, rfl⟩⟩
    apply along_of_forall
    intro e listed s
    have owned := own e listed
    cases e with
    | checkpoint => exact owned.elim
    | finalize | run | commit => trivial

end Swapped

section Pushed
variable {lower : Char → Nat} {mask : GramKeyMask} {host : LakeHost} {calls : String → List Value → Value}
  {t : DuckLakeTable host} {get : LogicalGet} {rowids : List Nat}

theorem probed_rows (reports : ReportsInsertions host) (folds : FoldsPerCodepoint lower host)
    (keyed : host.gramKeys = storedKeys lower mask) {columnName : String} {needles : List LakeNeedle}
    {result : LakeCandidates} (probe : probeAtSnapshot host lower mask t.run.lake t.snapshot t.limits t.statistics
      columnName needles = .ok result) (used : result.useIndex = true) :
    ∃ rowids, result.rowids = some rowids ∧ AscendingLists.Ascending rowids ∧
      ∀ v, Live t.run.lake t.snapshot v → (∀ needle ∈ needles, Held lower (v.text columnName) needle.rewrite) →
        v.rowid ∈ rowids := by
  obtain ⟨_, covered⟩ := lake_covered reports t.rows_only t.reached
  obtain ⟨index, posted, tail, probed, rowids, _, _⟩ := probe_used probe used
  obtain ⟨indexes, registry, listed⟩ := probed.listed
  obtain ⟨s, row, here, stored_row, rfl⟩ := (readLakeRegistry_ok registry).1 index listed
  have from_row := readIndexRow_from (fresh_cases probed.fresh).1
  have same_column := probed.column
  rw [from_row.columnName] at same_column
  refine ⟨_, rowids, AscendingLists.sortUnique_ascending _, ?_⟩
  intro v live held
  obtain ⟨maxKeys, keys, texts, chosen, s', segments, folded, some_key, some_chosen, subset, here', stored,
    intersected, tailed⟩ := probed.searched
  obtain rfl := Option.some.inj (here.symm.trans here')
  have valid := readGramOptions_valid from_row.options
  obtain ⟨text, value, keys_stored, contained⟩ := lake_needles_held valid folds folded some_key held
  rw [AscendingLists.mem_sortUnique, List.mem_append]
  rcases Nat.lt_or_ge row.coveredSnapshot v.snapshotId with after | upto
  · rw [from_row.covered] at tailed
    exact .inr (later_in_tail reports covered.only tailed live after value contained)
  · have own : row ∈ (s.index.entry row.indexRef).rows := List.mem_filter.mpr ⟨stored_row, beq_self_eq_true _⟩
    obtain ⟨options, list, read, entry_stored, posted_of⟩ :=
      (covered.sound t.snapshot s here row.indexRef).covers row own
    cases ok_inj (read.symm.trans from_row.options)
    rw [from_row.indexRef] at stored
    obtain rfl : list = segments := Option.some.inj (entry_stored.symm.trans stored)
    refine .inl (covered_posted some_chosen intersected fun key wanted => ?_)
    refine posted_of v live upto text ((text_alike same_column v).trans value) key ?_
    rw [keyed]
    exact keys_stored key (subset wanted)

theorem probeLakeIndex_used {columnName : String} {needles : List LakeNeedle}
    (used : (t.probeLakeIndex lower mask columnName needles).useIndex = true) : t.writtenByTransaction = false ∧
      probeAtSnapshot host lower mask t.run.lake t.snapshot t.limits t.statistics columnName needles =
        .ok (t.probeLakeIndex lower mask columnName needles) := by
  unfold DuckLakeTable.probeLakeIndex at used ⊢
  split at used
  · cases used
  · rename_i unwritten
    rw [if_neg unwritten]
    split at used
    · cases used
    · rename_i registered
      rw [if_neg registered]
      split at used
      · rename_i result probe
        rw [probe]
        exact ⟨eq_false_of_ne_true unwritten, rfl⟩
      · cases used

/-- The column whose candidates a scan takes. -/
theorem choose_spec {columns : List (String × List RewriteNeedle)}
    (chosen : t.choose lower mask columns = some rowids) : ∃ name needles result, (name, needles) ∈ columns ∧
      t.writtenByTransaction = false ∧
      probeAtSnapshot host lower mask t.run.lake t.snapshot t.limits t.statistics name
        (needles.map fun needle => ⟨needle.text, needle.requiresCi⟩) = .ok result ∧
      result.useIndex = true ∧ result.rowids = some rowids := by
  induction columns with
  | nil => cases chosen
  | cons first rest ih =>
    obtain ⟨name, needles⟩ := first
    simp only [DuckLakeTable.choose] at chosen
    split at chosen
    · rename_i used
      obtain ⟨unwritten, probe⟩ := probeLakeIndex_used used
      exact ⟨name, needles, _, List.mem_cons_self, unwritten, probe, used, chosen⟩
    · obtain ⟨name', needles', result, listed, facts⟩ := ih chosen
      exact ⟨name', needles', result, List.mem_cons_of_mem _ listed, facts⟩

/-- The rows of a scan before they are projected, group by group. -/
def DuckLakeTable.kept (lower : Char → Nat) (calls : String → List Value → Value) (t : DuckLakeTable host)
    (get : LogicalGet) (v : RowVersion) : Bool := get.passes lower calls (get.columnIds.map (t.scanned v))

theorem lake_scan_eq : t.scan calls lower get =
    (((t.scannedGroups get).filter (LakeGroup.survives get)).flatMap fun group =>
      group.rows.filter (t.kept lower calls get)).map fun v => get.output (get.columnIds.map (t.scanned v)) := by
  rw [DuckLakeTable.scan, List.filter_map, List.map_map, List.filter_flatMap]
  rfl

theorem rowidPasses_iff (ascending : AscendingLists.Ascending rowids) (rowid : Nat) :
    rowidPasses rowids (.other rowid) = decide (rowid ∈ rowids) := by
  have sorted : AscendingLists.Ascending (rowids.map Int.ofNat) :=
    List.pairwise_map.mpr (ascending.imp fun lt => Int.ofNat_lt.mpr lt)
  have listed : (rowid : Int) ∈ rowids.map Int.ofNat ↔ rowid ∈ rowids := by
    rw [List.mem_map]
    constructor
    · rintro ⟨_, present, same⟩
      cases same
      exact present
    · exact fun present => ⟨rowid, present, rfl⟩
  have answer : lakeRowidsFunction (rowids.map Int.ofNat) [some (rowid : Int)] =
      [some (decide (rowid ∈ rowids))] := by
    rw [lakeRowidsFunction, lakeRowidsFrom_exact sorted _ (Nat.zero_le _)]
    simp only [List.map_cons, List.map_nil, Option.map_some, listed]
  simp [rowidPasses, answer]

theorem projected_range (get : LogicalGet) : get.projectionIds <+ List.range get.columnIds.length := by
  obtain ⟨ascending, inside⟩ := get.projected
  have listed : get.projectionIds ⊆ List.range get.columnIds.length :=
    fun i present => List.mem_range.mpr (inside i present)
  exact List.sublist_of_subperm_of_pairwise (ascending.nodup.subperm listed) ascending List.pairwise_lt_range

/-- The rowid is scanned beside the output, whether or not it was scanned before. -/
theorem pushed_outputIds (some_column : get.columnIds ≠ []) :
    (pushRowidFilter get rowids).outputIds = get.outputIds := by
  have short := (projected_range get).length_le
  rw [List.length_range] at short
  have filled := List.length_pos_of_ne_nil some_column
  have ids : (pushRowidFilter get rowids).columnIds = (rowIdPlace get.columnIds).2 := rfl
  have projection : (pushRowidFilter get rowids).projectionIds =
      if get.projectionIds = [] ∧ rowIdPosition get.columnIds = none then List.range get.columnIds.length
      else get.projectionIds := rfl
  unfold LogicalGet.outputIds
  cases found : rowIdPosition get.columnIds with
  | some position =>
    have scanned : ¬ (get.projectionIds = [] ∧ rowIdPosition get.columnIds = none) := by
      rintro ⟨_, absent⟩
      rw [found] at absent
      cases absent
    rw [projection, if_neg scanned, ids, rowIdPlace, found]
  | none =>
    have longer : (pushRowidFilter get rowids).columnIds.length = get.columnIds.length + 1 := by
      rw [ids, rowIdPlace, found, List.length_append, List.length_singleton]
    by_cases whole : get.projectionIds = []
    · have filled_in : (pushRowidFilter get rowids).projectionIds = List.range get.columnIds.length := by
        rw [projection, if_pos ⟨whole, found⟩]
      have narrower : ¬ (List.range get.columnIds.length = [] ∨ get.columnIds.length = get.columnIds.length + 1) := by
        rw [List.range_eq_nil]
        omega
      rw [filled_in, longer, List.length_range, if_neg narrower, if_pos (.inl whole)]
    · have kept : (pushRowidFilter get rowids).projectionIds = get.projectionIds := by
        rw [projection, if_neg fun both => whole both.1]
      rw [kept, longer, if_neg (not_or.mpr ⟨whole, by omega⟩)]
      by_cases all : get.projectionIds.length = get.columnIds.length
      · rw [if_pos (.inr all)]
        exact (projected_range get).eq_of_length (by rw [List.length_range, all])
      · rw [if_neg (not_or.mpr ⟨whole, all⟩)]

theorem outputIds_inside : ∀ position ∈ get.outputIds, position < get.columnIds.length := by
  intro position listed
  unfold LogicalGet.outputIds at listed
  split at listed
  · exact List.mem_range.mp listed
  · exact get.projected.2 position listed

theorem pushed_values (value : ColumnIndex → Value) {position : Nat} (inside : position < get.columnIds.length) :
    ((pushRowidFilter get rowids).columnIds.map value).getD position .null =
      (get.columnIds.map value).getD position .null := by
  obtain ⟨more, extended⟩ := rowIdPlace_extends get.columnIds
  have longer : (pushRowidFilter get rowids).columnIds = get.columnIds ++ more := extended
  rw [longer, List.map_append]
  exact List.getD_append _ _ _ _ (by rwa [List.length_map])

theorem pushed_output (some_column : get.columnIds ≠ []) (value : ColumnIndex → Value) :
    (pushRowidFilter get rowids).output ((pushRowidFilter get rowids).columnIds.map value) =
      get.output (get.columnIds.map value) := by
  rw [LogicalGet.output, LogicalGet.output, pushed_outputIds some_column]
  apply List.map_congr_left
  intro position listed
  exact pushed_values value (outputIds_inside position listed)

theorem pushed_passes (value : ColumnIndex → Value) :
    (pushRowidFilter get rowids).passes lower calls ((pushRowidFilter get rowids).columnIds.map value) =
      (get.passes lower calls (get.columnIds.map value) && rowidPasses rowids (value .rowId)) := by
  have tables : (pushRowidFilter get rowids).tableFilters = get.tableFilters := rfl
  have candidates : (pushRowidFilter get rowids).rowidFilters =
      get.rowidFilters ++ [((rowIdPlace get.columnIds).1, rowids)] := rfl
  have place : ((pushRowidFilter get rowids).columnIds.map value).getD (rowIdPlace get.columnIds).1 .null =
      value .rowId := scanned_getD (rowIdPlace_at get.columnIds) value
  rw [LogicalGet.passes, LogicalGet.passes, tables, candidates, List.all_append, List.all_cons, List.all_nil, place,
    Bool.and_true, Bool.and_assoc]
  congr 1
  · rw [Bool.eq_iff_iff, List.all_eq_true, List.all_eq_true]
    refine forall₂_congr fun entry listed => ?_
    rw [pushed_values value (get.filtered.1 entry listed)]
  · congr 1
    rw [Bool.eq_iff_iff, List.all_eq_true, List.all_eq_true]
    refine forall₂_congr fun entry listed => ?_
    rw [pushed_values value (get.filtered.2 entry listed)]

theorem pushed_survives (group : LakeGroup) : (pushRowidFilter get rowids).rowidFilters.all (fun entry =>
      decide (lakeRowidsPrune (some (entry.2.map Int.ofNat)) group.stats ≠ .filterAlwaysFalse)) =
    (group.survives get && decide (lakeRowidsPrune (some (rowids.map Int.ofNat)) group.stats ≠ .filterAlwaysFalse)) := by
  have candidates : (pushRowidFilter get rowids).rowidFilters =
      get.rowidFilters ++ [((rowIdPlace get.columnIds).1, rowids)] := rfl
  rw [candidates, List.all_append, List.all_cons, List.all_nil, Bool.and_true]
  rfl

/-- A group without room for a candidate has none of them among its rows. -/
theorem pruned_rows (ascending : AscendingLists.Ascending rowids) {group : LakeGroup}
    (pruned : lakeRowidsPrune (some (rowids.map Int.ofNat)) group.stats = .filterAlwaysFalse) :
    ∀ v ∈ group.rows, v.rowid ∉ rowids := by
  intro v present candidate
  have sorted : AscendingLists.Ascending (rowids.map Int.ofNat) :=
    List.pairwise_map.mpr (ascending.imp fun lt => Int.ofNat_lt.mpr lt)
  cases stats : group.stats with
  | none =>
    rw [stats] at pruned
    cases pruned
  | some range =>
    obtain ⟨low, high⟩ := range
    rw [stats] at pruned
    apply (lakeRowidsPrune_exact sorted low high).mp pruned
    exact ⟨v.rowid, List.mem_map.mpr ⟨v.rowid, candidate, rfl⟩, group.described low high stats v present⟩

theorem scannedGroups_listed : ∀ group ∈ t.scannedGroups get, group ∈ t.groups := by
  intro group scanned
  unfold DuckLakeTable.scannedGroups at scanned
  split at scanned
  · exact scanned
  · obtain ⟨partition, _, found⟩ := List.mem_filterMap.mp scanned
    exact List.mem_of_getElem? found

/-- Where each row that passes is a candidate, the candidates' filter leaves the scan as it is. -/
theorem pushed_scan (ascending : AscendingLists.Ascending rowids) (some_column : get.columnIds ≠ [])
    (covers : ∀ group ∈ t.groups, ∀ v ∈ group.rows, t.kept lower calls get v = true → v.rowid ∈ rowids) :
    t.scan calls lower (pushRowidFilter get rowids) = t.scan calls lower get := by
  have rows : ∀ group ∈ t.groups, group.rows.filter (t.kept lower calls (pushRowidFilter get rowids)) =
      group.rows.filter (t.kept lower calls get) := by
    intro group listed
    apply List.filter_congr
    intro v present
    have passes : t.kept lower calls (pushRowidFilter get rowids) v =
        (t.kept lower calls get v && rowidPasses rowids (.other v.rowid)) := pushed_passes (t.scanned v)
    rw [passes, rowidPasses_iff ascending]
    cases kept : t.kept lower calls get v with
    | false => rfl
    | true => exact decide_eq_true (covers group listed v present kept)
  have each : ∀ groups : List LakeGroup, (∀ group ∈ groups, group ∈ t.groups) →
      (groups.filter (LakeGroup.survives (pushRowidFilter get rowids))).flatMap (fun group =>
        group.rows.filter (t.kept lower calls (pushRowidFilter get rowids))) =
      (groups.filter (LakeGroup.survives get)).flatMap fun group => group.rows.filter (t.kept lower calls get) := by
    intro groups listed
    induction groups with
    | nil => rfl
    | cons group rest ih =>
      obtain ⟨first, others⟩ := List.forall_mem_cons.mp listed
      have survives : group.survives (pushRowidFilter get rowids) = _ := pushed_survives group
      rw [List.filter_cons, List.filter_cons, survives]
      cases standing : group.survives get with
      | false => simpa using ih others
      | true =>
        by_cases pruned : lakeRowidsPrune (some (rowids.map Int.ofNat)) group.stats = .filterAlwaysFalse
        · have nothing : group.rows.filter (t.kept lower calls get) = [] := by
            apply List.filter_eq_nil_iff.mpr
            intro v present kept
            exact pruned_rows ascending pruned v present (covers group first v present kept)
          simp [pruned, ih others, nothing]
        · simp [pruned, ih others, rows group first]
  have groups : t.scannedGroups (pushRowidFilter get rowids) = t.scannedGroups get := rfl
  rw [lake_scan_eq, lake_scan_eq, groups, each _ scannedGroups_listed]
  apply List.map_congr_left
  exact fun v _ => pushed_output some_column (t.scanned v)

end Pushed

section Plans
variable {lower : Char → Nat} {mask : GramKeyMask} {host : LakeHost} {calls : String → List Value → Value}
  {tables : Nat → BaseTable lower mask host} {autoAccelerate : Bool} {get : LogicalGet}

/-- A scan as the pass finds it. A search call on a DuckLake table searches the column itself. -/
structure Planned (tables : Nat → BaseTable lower mask host) (get : LogicalGet) : Prop where
  named : ∃ name, get.function = .named name
  unpushed : get.rowidFilters = []
  searches : ∀ t, get.table.map tables = some (.lake t) → get.ordinality = false ∧
    ∀ entry ∈ get.tableFilters, SearchesColumn entry.filter

inductive RewrittenGet (tables : Nat → BaseTable lower mask host) (get : LogicalGet) : LogicalGet → Prop where
  | kept : RewrittenGet tables get get
  | swapped {t : DuckTable lower mask} {bind : NgramScanBindData} {entry : FilterEntry}
      (duck : get.table.map tables = some (.duck t)) (scan : get.function = .named "seq_scan")
      (plain : get.plain = true) (stored : t.hasGeneratedColumns = false) (swapped : Swapped t get bind entry) :
      RewrittenGet tables get (get.swapTo bind)
  | pushed {t : DuckLakeTable host} {rowids : List Nat} (lake : get.table.map tables = some (.lake t))
      (table : (get.atClause || get.sampled || get.arguments) = false) {entry : FilterEntry} {column : Nat}
      {name : String} (filtered : entry ∈ get.tableFilters) (scanned : get.columnIds[entry.column]? = some (.column column))
      (varchar : t.columns[column]? = some (name, .varchar)) (some_needle : (collectLakeNeedles entry.filter []).2 ≠ [])
      {result : LakeCandidates} (current : t.writtenByTransaction = false)
      (probe : probeAtSnapshot host lower mask t.run.lake t.snapshot t.limits t.statistics name
        ((collectLakeNeedles entry.filter []).2.map fun needle => ⟨needle.text, needle.requiresCi⟩) = .ok result)
      (used : result.useIndex = true) (candidates : result.rowids = some rowids) :
      RewrittenGet tables get (pushRowidFilter get rowids)

theorem tryRewriteGet_cases {new : LogicalGet} (run : tryRewriteGet tables get = .ok new) :
    new = get ∨ ∃ t bind entry, get.table.map tables = some (.duck t) ∧ get.function = .named "seq_scan" ∧
      get.plain = true ∧ t.hasGeneratedColumns = false ∧ Swapped t get bind entry ∧
      new = get.swapTo bind := by
  unfold tryRewriteGet at run
  split at run
  · rename_i t function table
    rcases branch_ok run with ⟨_, run⟩ | ⟨fits, run⟩
    · exact .inl (ok_inj run).symm
    · simp only [Bool.or_eq_true, Bool.not_eq_true', not_or, Bool.not_eq_true] at fits
      obtain ⟨⟨_, plain⟩, stored⟩ := fits
      obtain ⟨chosen, choice, run⟩ := bind_ok run
      cases chosen with
      | none => exact .inl (ok_inj run).symm
      | some bind =>
        obtain ⟨entry, swapped⟩ := chosen_swapped choice
        exact .inr ⟨t, bind, entry, table, function, by simpa using plain, stored, swapped, (ok_inj run).symm⟩
  · exact .inl (ok_inj run).symm

theorem tryRewriteLakeGet_duck {t : DuckTable lower mask} (duck : get.table.map tables = some (.duck t)) :
    tryRewriteLakeGet tables autoAccelerate get = get := by
  unfold tryRewriteLakeGet
  rw [duck]

theorem tryRewriteLakeGet_cases : RewrittenGet tables get (tryRewriteLakeGet tables autoAccelerate get) := by
  unfold tryRewriteLakeGet
  split
  · rename_i t lake
    split
    · exact .kept
    · rename_i fits
      simp only [Bool.or_eq_true, not_or, Bool.not_eq_true] at fits
      obtain ⟨⟨⟨_, atClause⟩, sampled⟩, arguments⟩ := fits
      dsimp only
      split
      · exact .kept
      · split
        · exact .kept
        · rename_i rowids chosen
          obtain ⟨name, needles, result, listed, current, probe, used, candidates⟩ := choose_spec chosen
          obtain ⟨found, searched, probeable⟩ := List.mem_filterMap.mp listed
          obtain ⟨entry, filtered, read⟩ := List.mem_filterMap.mp searched
          unfold DuckLakeTable.searchedColumn at read
          split at read
          · cases read
          · rename_i column scanned
            split at read
            · rename_i name' varchar
              cases read
              obtain ⟨some_needle, same⟩ := Option.ite_none_left_eq_some.mp probeable
              cases same
              have some_needle : (collectLakeNeedles entry.filter []).2 ≠ [] := by simpa using some_needle
              exact .pushed lake (by rw [atClause, sampled, arguments]; rfl) filtered (scannedColumn_at scanned) varchar
                some_needle current probe used candidates
            · cases read
  · exact .kept

theorem rewriteGet_cases {new : LogicalGet} (run : rewriteGet tables autoAccelerate get = .ok new) :
    RewrittenGet tables get new := by
  unfold rewriteGet at run
  cases autoAccelerate with
  | false =>
    obtain rfl := ok_inj run
    exact tryRewriteLakeGet_cases
  | true =>
    obtain ⟨between, native, run⟩ := bind_ok run
    obtain rfl := ok_inj run
    rcases tryRewriteGet_cases native with rfl | ⟨t, bind, entry, duck, scan, plain, stored, swapped, rfl⟩
    · exact tryRewriteLakeGet_cases
    · have duck_still : (get.swapTo bind).table.map tables = some (.duck t) := duck
      rw [tryRewriteLakeGet_duck duck_still]
      exact .swapped duck scan plain stored swapped

theorem passed_held (keeps : LowerKeepsWildcards lower) {t : DuckLakeTable host} {entry : FilterEntry} {column : Nat}
    {name : String} (filtered : entry ∈ get.tableFilters) (scanned : get.columnIds[entry.column]? = some (.column column))
    (varchar : t.columns[column]? = some (name, .varchar)) (some_needle : (collectLakeNeedles entry.filter []).2 ≠ [])
    (searches : SearchesColumn entry.filter) {v : RowVersion} (kept : t.kept lower calls get v = true) :
    ∀ needle ∈ (collectLakeNeedles entry.filter []).2, Held lower (v.text name) needle := by
  have required : entry.filter.isOptional = false := by
    cases filter : entry.filter with
    | optional child =>
      rw [filter] at some_needle
      exact absurd rfl some_needle
    | conjunctionAnd | conjunctionOr | expression | other => rfl
  obtain ⟨passed, _⟩ := Bool.and_eq_true_iff.mp kept
  have holds := List.all_eq_true.mp passed entry filtered
  rw [required, Bool.false_or, decide_eq_true_eq, scanned_getD scanned] at holds
  have value : t.scanned v (.column column) = columnValue (v.text name) := t.typed v column name varchar
  rw [value] at holds
  exact lake_needle_held keeps searches holds

theorem columns_filled {entry : FilterEntry} (filtered : entry ∈ get.tableFilters) : get.columnIds ≠ [] :=
  List.ne_nil_of_length_pos (Nat.zero_lt_of_lt (get.filtered.1 entry filtered))

theorem lake_yields {hostScan : Meaning LogicalGet (List Tuple) String} {t : DuckLakeTable host} {function : String}
    (lake : get.table.map tables = some (.lake t)) (named : get.function = .named function)
    (atClause : get.atClause = false) (sampled : get.sampled = false) (arguments : get.arguments = false)
    (ordinality : get.ordinality = false) (inputs : List (List Tuple)) (outcome : Except String (List Tuple)) :
    getYields calls tables hostScan get inputs outcome ↔
      ∃ rows, outcome = .ok rows ∧ rows ~ t.scan calls lower get := by
  simp [getYields, lake, named, atClause, sampled, arguments, ordinality]

/-- Each scan that the pass returns yields what the planned one may, or fails on its probe's arithmetic. -/
theorem rewritten_refines (keeps : LowerKeepsWildcards lower) (reports : ReportsInsertions host)
    (folds : FoldsPerCodepoint lower host) (keyed : host.gramKeys = storedKeys lower mask)
    (hostScan : Meaning LogicalGet (List Tuple) String) (planned : Planned tables get) {new : LogicalGet}
    (rewritten : RewrittenGet tables get new) :
    Refines (getYields calls tables hostScan) (· = overflow) get new := by
  cases rewritten with
  | kept => exact refines_refl _ _ _
  | @swapped t bind entry duck scan plain stored swapped =>
    have before : ∀ inputs outcome, getYields calls tables hostScan get inputs outcome ↔
        ∃ rows, outcome = .ok rows ∧ rows ~ t.seqScan calls get := by
      intro inputs outcome
      simp [getYields, duck, scan, plain, stored]
    have after : ∀ inputs outcome, getYields calls tables hostScan (get.swapTo bind) inputs outcome ↔
        t.IndexScans calls get bind outcome := by
      intro inputs outcome
      simp only [getYields, LogicalGet.swapTo, duck]
      rfl
    constructor
    case within =>
      intro inputs outcome yielded
      rcases index_scan_within keeps swapped planned.unpushed ((after inputs outcome).mp yielded) with found | failed
      · exact .inl ((before inputs outcome).mpr found)
      · exact .inr ⟨overflow, failed, rfl⟩
    case answers =>
      intro _ inputs
      obtain ⟨outcome, scans⟩ := @index_scan_some _ _ calls _ _ _ _ keeps swapped
      exact ⟨outcome, (after inputs outcome).mpr scans⟩
  | @pushed t rowids lake table entry column name filtered scanned varchar some_needle result current probe used
      candidates =>
    obtain ⟨ordinality, searches⟩ := planned.searches t lake
    obtain ⟨function, named⟩ := planned.named
    have probed := probed_rows reports folds keyed probe used
    obtain ⟨listed, same, ascending, proposed⟩ := probed
    obtain rfl := Option.some.inj (candidates.symm.trans same)
    have covers : ∀ group ∈ t.groups, ∀ v ∈ group.rows, t.kept lower calls get v = true → v.rowid ∈ rowids := by
      intro group standing v present kept
      apply proposed v (t.current current group standing v present)
      exact List.forall_mem_map.mpr
        (passed_held keeps filtered scanned varchar some_needle (searches entry filtered) kept)
    have scans : t.scan calls lower (pushRowidFilter get rowids) = t.scan calls lower get :=
      pushed_scan ascending (columns_filled filtered) covers
    simp only [Bool.or_eq_false_iff] at table
    obtain ⟨⟨atClause, sampled⟩, arguments⟩ := table
    have same : ∀ inputs outcome, getYields calls tables hostScan (pushRowidFilter get rowids) inputs outcome ↔
        getYields calls tables hostScan get inputs outcome := by
      intro inputs outcome
      have before := @lake_yields _ _ _ calls tables get hostScan t _ lake named atClause sampled arguments ordinality
        inputs outcome
      have after := @lake_yields _ _ _ calls tables (pushRowidFilter get rowids) hostScan t _ lake named atClause
        sampled arguments ordinality inputs outcome
      rw [before, after, scans]
    constructor
    case within =>
      intro inputs outcome yielded
      exact .inl ((same inputs outcome).mp yielded)
    case answers =>
      intro total inputs
      obtain ⟨outcome, yielded⟩ := total inputs
      exact ⟨outcome, (same inputs outcome).mpr yielded⟩

theorem rewriteGet_fails : FailsOnly (fun e => ∃ table t column, tables table = .duck t ∧ t.owned column = .error e)
    (rewriteGet tables autoAccelerate get) := by
  have native : FailsOnly (fun e => ∃ table t column, tables table = .duck t ∧ t.owned column = .error e)
      (tryRewriteGet tables get) := by
    unfold tryRewriteGet
    split
    · rename_i t function found
      obtain ⟨table, _, duck⟩ := Option.map_eq_some_iff.mp found
      refine fails_branch (fun _ => fails_ok _) fun _ => fails_bind ?_ fun chosen _ => ?_
      · intro e failed
        obtain ⟨column, unread⟩ := chooseIndex_fails _ e failed
        exact ⟨table, t, column, duck, unread⟩
      · cases chosen <;> exact fails_ok _
    · exact fails_ok _
  unfold rewriteGet
  cases autoAccelerate with
  | false => exact fails_ok _
  | true => exact fails_bind native fun _ _ => fails_ok _

variable {Other : Type} {hostScan : Meaning LogicalGet (List Tuple) String}
  {hostOperator : Meaning Other (List Tuple) String} {old new : LogicalOperator Other}

def OperatorPlanned (tables : Nat → BaseTable lower mask host) : LogicalOperator Other → Prop
  | .get get => Planned tables get
  | .other _ => True

theorem rewriteOperator_refines (keeps : LowerKeepsWildcards lower) (reports : ReportsInsertions host)
    (folds : FoldsPerCodepoint lower host) (keyed : host.gramKeys = storedKeys lower mask)
    (planned : OperatorPlanned tables old) (run : rewriteOperator tables autoAccelerate old = .ok new) :
    Refines (operatorYields calls tables hostScan hostOperator) (· = overflow) old new := by
  cases old with
  | get get =>
    obtain ⟨rewritten, found, same⟩ := bind_ok run
    cases ok_inj same
    have refined := @rewritten_refines _ _ _ calls _ _ keeps reports folds keyed hostScan planned _ (rewriteGet_cases found)
    exact ⟨refined.within, refined.answers⟩
  | other op =>
    cases ok_inj run
    exact refines_refl _ _ _

end Plans

def textRow (rowid : Nat) (text : Option String) : TableRow [.varchar] where
  rowid := rowid
  values := [columnValue text]
  typed i varchar := by
    cases i with
    | zero => exact ⟨text, rfl⟩
    | succ i => cases varchar

theorem only_column {column : Nat} (varchar : [LogicalType.varchar][column]? = some .varchar) : column = 0 := by
  cases column with
  | zero => rfl
  | succ column => cases varchar

def animals : DuckTable NgramIndexedSearch.asciiLower wholeMask where
  columns := [.varchar]
  hasGeneratedColumns := false
  owned _ := .ok [(foldingOptions, "")]
  settings := zebraSettings
  some_gram := by decide
  storage :=
    { rowGroups := [⟨0, [some (textRow 0 "Zebra"), some (textRow 1 none), some (textRow 2 "a zebu")]⟩]
      nextRowId := 3
      rowGroupSize := 2048
      ascending := by decide
      allocated := by decide }
  numbered := by decide
  artOnly := false
  localRows := [textRow 3 "ZEBRa", textRow 4 none]
  snapshot _ := zebuSnapshot
  now _ := zebuNow
  changed _ := none
  segments _ := some zebuChunks
  reachable _ _ := zebu_reachable
  stores column varchar := by
    obtain rfl := only_column varchar
    have rows : zebuSnapshot.rows = [⟨0, some "Zebra"⟩, ⟨1, none⟩, ⟨2, some "a zebu"⟩] := by decide +kernel
    rw [rows]
    exact List.Perm.refl _
  scans _ _ chunks same keys key _ := by
    cases same
    simp [zebuChunks]

def foldingHost : LakeHost :=
  { asciiHost with
    sqlLower := fun text => String.ofList (foldText NgramIndexedSearch.asciiLower text)
    gramKeys := storedKeys NgramIndexedSearch.asciiLower wholeMask }

def logsRun : LakeRun := (exec (lakeStep foldingHost) emptyLake uncoveredRows).getD emptyLake

theorem logs_reached : exec (lakeStep foldingHost) emptyLake uncoveredRows = some logsRun := by
  have runs : (exec (lakeStep foldingHost) emptyLake uncoveredRows).isSome := by decide +kernel
  obtain ⟨run, reached⟩ := Option.isSome_iff_exists.mp runs
  rw [logsRun, reached]
  rfl

def rowsAt (lake : Lake) (snapshot : Nat) : List RowVersion :=
  ((lake.snapshots[snapshot]?.bind Snapshot.table).map LakeTable.rows).getD []

theorem rowsAt_live {lake : Lake} {snapshot : Nat} : ∀ v ∈ rowsAt lake snapshot, Live lake snapshot v := by
  intro v listed
  unfold rowsAt at listed
  cases here : lake.snapshots[snapshot]? with
  | none =>
    rw [here] at listed
    cases listed
  | some s =>
    rw [here, Option.bind_some] at listed
    cases tabled : s.table with
    | none =>
      rw [tabled] at listed
      cases listed
    | some t =>
      rw [tabled] at listed
      exact ⟨s, t, here, tabled, listed⟩

def logs : DuckLakeTable foldingHost where
  columns := [("body", .varchar)]
  events := uncoveredRows
  rows_only := by decide
  run := logsRun
  reached := logs_reached
  snapshot := 6
  writtenByTransaction := false
  limits := ⟨100, 1, 1000, fun _ _ => false⟩
  statistics := ⟨[], some 3, fun _ _ => ""⟩
  cell v i := if i = 0 then columnValue (v.text "body") else .null
  typed v i name varchar := by
    cases i with
    | zero =>
      cases varchar
      rfl
    | succ i => cases varchar
  virtualCell _ _ := .null
  groups := (rowsAt logsRun.lake 6).map fun v =>
    { stats := some (v.rowid, v.rowid)
      rows := [v]
      described := by
        intro low high same u listed
        cases same
        obtain rfl := List.mem_singleton.mp listed
        exact ⟨le_refl _, le_refl _⟩ }
  current _ group listed v present := by
    obtain ⟨u, live, rfl⟩ := List.mem_map.mp listed
    obtain rfl := List.mem_singleton.mp present
    exact rowsAt_live v live

def zebuTables : Nat → BaseTable NgramIndexedSearch.asciiLower wholeMask foldingHost
  | 0 => .duck animals
  | 1 => .lake logs
  | _ => .foreign

def columnScan (function : String) (table : Nat) (filter : TableFilter) : LogicalGet where
  function := .named function
  table := some table
  columnIds := [.column 0]
  projectionIds := []
  tableFilters := [⟨0, filter⟩]
  rowidFilters := []
  sampled := false
  ordinality := false
  scanPartitions := []
  atClause := false
  arguments := false
  rowGroupOrder := false
  projected := by simp
  filtered := by simp

/-- The rows of both tables. -/
def unionPlan : OperatorTree (LogicalOperator Unit) :=
  .node (.other ()) [.node (.get (columnScan "seq_scan" 0 zebraFilter)) [],
    .node (.get (columnScan "ducklake_scan" 1 bodyFilter)) []]

def unionYields : Meaning (LogicalOperator Unit) (List Tuple) String :=
  operatorYields textHost zebuTables (fun _ _ _ => False) fun _ inputs outcome => outcome = .ok inputs.flatten

def LogicalGet.describe (get : LogicalGet) : Option NgramScanBindData × List (Nat × List Nat) :=
  (match get.function with
    | .named _ => none
    | .ngramIndexScan bind => some bind, get.rowidFilters)

end NgramPlanRewrite
