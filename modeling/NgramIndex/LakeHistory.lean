import NgramIndex.IndexRegistry
import NgramIndex.ProbeExact

/- A DuckLake catalog as an index of one of its tables sees it: the snapshots in
   commit order, the table and the __ngram tables in each of them, the registry
   rows, and whether an index still describes the table. -/
namespace NgramLake
open Fallible NgramGram NgramProbe NgramIndexRegistry

def lakeRegistryVersion : Int := 1
def lakeFormatVersion : Int := 1

/-- DuckLake numbers the rows of an uncommitted transaction from here on. -/
def lakeProvisionalRowid : Nat := 1000000000000000000

/-- A row of a segments table; DuckLake's own row id of it is never read. -/
abbrev PostingRow := SegmentRow Uhugeint

/-- One version of a row of the indexed table: an update leaves a new version
    under the same rowid. A column without an entry is NULL. -/
structure RowVersion where
  rowid : Nat
  snapshotId : Nat
  texts : List (String × String)
  deriving DecidableEq, Repr

def RowVersion.text (v : RowVersion) (columnName : String) : Option String :=
  (v.texts.find? fun entry => ciEquals entry.1 columnName).map Prod.snd

structure LakeTable where
  tableId : Nat
  columns : List String
  rows : List RowVersion
  nextRowId : Nat
  deriving DecidableEq, Repr

structure LakeRegistryRow where
  registryVersion : Int
  indexRef : String
  schemaName : String
  tableName : String
  columnName : String
  tableId : Nat
  formatVersion : Int
  tokenizer : String
  minGram : Int
  maxGram : Int
  caseInsensitive : Bool
  coveredSnapshot : Nat
  schemaVersion : Option Nat
  deriving DecidableEq, Repr

/-- The registry's lock rows, by DuckLake row id, and its index rows. -/
structure LakeRegistry where
  locks : List Nat
  rows : List LakeRegistryRow
  deriving DecidableEq, Repr

/-- The __ngram schema: the registry once it was created, and the segments tables. -/
structure IndexTables where
  registry : Option LakeRegistry
  segments : List (String × List PostingRow)
  deriving DecidableEq

def IndexTables.rows (tables : IndexTables) : List LakeRegistryRow :=
  (tables.registry.map LakeRegistry.rows).getD []

def IndexTables.locks (tables : IndexTables) : List Nat :=
  (tables.registry.map LakeRegistry.locks).getD []

def IndexTables.postings (tables : IndexTables) (indexRef : String) : Option (List PostingRow) :=
  tables.segments.lookup indexRef

/-- A snapshot: the changes its commit lists, the tables it altered or dropped,
    what DuckLake checks later commits against, and the state it left. -/
structure Snapshot where
  schemaVersion : Nat
  tablesAltered : List String
  tablesDropped : List String
  touched : List Nat
  deletedLocks : List Nat
  createsSchema : Bool
  table : Option LakeTable
  nextTableId : Nat
  /-- Another schema holds a table of the same name. -/
  nameShared : Bool
  index : IndexTables
  deriving DecidableEq

/-- The commits so far, numbered from 0, and the snapshots that were expired. -/
structure Lake where
  snapshots : List Snapshot
  expired : List Nat
  deriving DecidableEq

def Lake.schemaVersionAt (lake : Lake) (snapshot : Nat) : Nat :=
  (lake.snapshots[snapshot]?.map Snapshot.schemaVersion).getD 0

/-- What ducklake_snapshots lists. -/
def Lake.listed (lake : Lake) : List (Nat × Snapshot) :=
  (lake.snapshots.zipIdx.map Prod.swap).filter fun entry => decide (entry.1 ∉ lake.expired)

/-- What a read AT (VERSION => snapshot) finds; an expired one cannot be read. -/
def Lake.readAt (lake : Lake) (snapshot : Nat) (what : String) : Except String Snapshot :=
  if snapshot ∈ lake.expired then .error s!"ngram: reading {what} failed"
  else
    match lake.snapshots[snapshot]? with
    | none => .error s!"ngram: reading {what} failed"
    | some s => .ok s

/-- A registry row as the extension reads it; the names are the stored ones. -/
structure LakeIndex where
  indexRef : String
  schemaName : String
  tableName : String
  columnName : String
  tableId : Int
  formatVersion : Int
  options : GramOptions
  coveredSnapshot : Int
  schemaVersion : Int
  error : String
  deriving DecidableEq

def defaultOptions : GramOptions := ⟨.ngram, 3, 3, true⟩

def castError : String := "Information loss on integer cast"

def readGramOptions (row : LakeRegistryRow) : Except String GramOptions := do
  let tokenizer ← parseTokenizer row.tokenizer "ngram"
  if row.minGram < 0 ∨ row.maxGram < 0 then .error castError
  let options : GramOptions := ⟨tokenizer, row.minGram.toNat, row.maxGram.toNat, row.caseInsensitive⟩
  validateGramOptions options "ngram"
  .ok options

def readIndexRow (row : LakeRegistryRow) : LakeIndex :=
  let index : LakeIndex :=
    ⟨row.indexRef, row.schemaName, row.tableName, row.columnName, row.tableId, row.formatVersion,
      defaultOptions, -1, -1, ""⟩
  if row.registryVersion ≠ lakeRegistryVersion ∨ row.formatVersion ≠ lakeFormatVersion then
    { index with error := s!"registry version {row.registryVersion}, format {row.formatVersion}; " ++
      s!"this extension reads registry version {lakeRegistryVersion}, format {lakeFormatVersion}; " ++
      "rebuild the index" }
  else
    let index := { index with
      coveredSnapshot := row.coveredSnapshot
      schemaVersion := (row.schemaVersion.map Int.ofNat).getD (-1) }
    match readGramOptions row with
    | .error e => { index with error := "unreadable gram options: " ++ e }
    | .ok options => { index with options := options }

/-- What the lake's scripts and probes call: SQL's lower(), ngram_gram_keys,
    ducklake_table_insertions from one snapshot to another (none where the feed
    cannot be read), and the names of the lake and of the indexed table. -/
structure LakeHost where
  sqlLower : String → String
  gramKeys : GramOptions → String → List Uhugeint
  insertions : Lake → Nat → Nat → Option (List RowVersion)
  catalogName : String
  target : Target

variable (host : LakeHost)

def LakeRegistryRow.belongsTo (row : LakeRegistryRow) : Bool :=
  host.sqlLower row.schemaName == host.sqlLower host.target.schemaName &&
    host.sqlLower row.tableName == host.sqlLower host.target.tableName

def orderedByRef (rows : List LakeRegistryRow) : List LakeRegistryRow :=
  rows.mergeSort fun a b => a.indexRef ≤ b.indexRef

def readLakeRegistry (lake : Lake) (snapshot : Nat) (ofTable : Bool) :
    Except String (List LakeIndex) :=
  match (lake.snapshots[snapshot]?).bind fun s => s.index.registry with
  | none => .ok []
  | some _ => do
      let s ← lake.readAt snapshot "the ngram registry"
      let rows := if ofTable then s.index.rows.filter (·.belongsTo host) else s.index.rows
      .ok ((orderedByRef rows).map readIndexRow)

def coversLater : String := "the index covers a later snapshot than the transaction reads"
def tableAltered : String := "the table was altered after the index's last refresh; rebuild the index"
def snapshotsExpired : String :=
  "snapshots after the index's last refresh were expired before a refresh; rebuild the index"

/-- The snapshot's change list names the table among the altered or dropped. -/
def Snapshot.names (s : Snapshot) (tableId : Int) : Bool :=
  s.tablesAltered.contains (toString tableId) || s.tablesDropped.contains (toString tableId)

def historyAfter (lake : Lake) (covered : Int) (snapshot : Nat) : List (Nat × Snapshot) :=
  lake.listed.filter fun entry => decide (covered < entry.1 ∧ entry.1 ≤ snapshot)

/-- Empty when the index still describes its table at the reader's snapshot. -/
def lakeStaleReason (lake : Lake) (snapshot : Nat) (index : LakeIndex) : String :=
  if index.error ≠ "" then index.error
  else if index.coveredSnapshot > snapshot then coversLater
  else if index.schemaVersion ≥ 0 ∧ index.schemaVersion = lake.schemaVersionAt snapshot then ""
  else
    let history := historyAfter lake index.coveredSnapshot snapshot
    if history.any fun entry => entry.2.names index.tableId then tableAltered
    else if (history.length : Int) ≠ snapshot - index.coveredSnapshot then snapshotsExpired
    else ""

/-- A relation of row versions that a script or a probe reads. -/
inductive LakeSource where
  | base
  | feed (first last : Nat)
  | fallback (snapshot : Nat) (covered : Int)
  deriving DecidableEq, Repr

/-- The change feed after the covered snapshot where it can be read, else the
    table filtered on the snapshot each row carries. -/
def lakeTailSource (lake : Lake) (snapshot : Nat) (covered : Int) : LakeSource :=
  match host.insertions lake (covered + 1).toNat snapshot with
  | some _ => .feed (covered + 1).toNat snapshot
  | none => .fallback snapshot covered

def tableMissing : String := "Catalog Error: Table does not exist"
def columnMissing : String := "Binder Error: Referenced column not found"
def feedMissing : String := "Invalid Input Error: no snapshot found at the specified version"

/-- The rows of a source, for a transaction whose snapshot is `reading`, when it
    has the column that is read. -/
def readSource (lake : Lake) (reading : Nat) (columnName : String) (source : LakeSource) :
    Except String (List RowVersion) := do
  let snapshot := match source with
    | .base => reading
    | .feed _ last => last
    | .fallback snapshot _ => snapshot
  match lake.snapshots[snapshot]?.bind Snapshot.table with
  | none => .error tableMissing
  | some table =>
      if ¬ table.columns.any (ciEquals · columnName) then .error columnMissing
      match source with
      | .base => .ok table.rows
      | .feed first last =>
          match host.insertions lake first last with
          | none => .error feedMissing
          | some rows => .ok rows
      | .fallback snapshot covered =>
          if snapshot ∈ lake.expired then .error feedMissing
          else .ok (table.rows.filter fun v => decide (covered < v.snapshotId))

end NgramLake
