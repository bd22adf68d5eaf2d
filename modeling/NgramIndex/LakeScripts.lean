import NgramIndex.LakeHistory
import NgramIndex.Maintenance

/- The scripts of the maintenance calls on a DuckLake table. A call is expanded
   at one snapshot; its script runs later, in a transaction of another snapshot,
   and leaves the writes that DuckLake commits or refuses. -/
namespace NgramLake
open AscendingLists Fallible NgramGram NgramPostings NgramProbe NgramIndexRegistry NgramMaintenance

/-- What one transaction does to the __ngram tables: row by row, as DuckLake
    records it. -/
inductive LakeWrite where
  | createRegistry
  | deleteLocks (rowids : List Nat)
  | insertLock (rowid : Nat)
  | deleteRows (rows : List LakeRegistryRow)
  | insertRow (row : LakeRegistryRow)
  | createSegments (indexRef : String)
  | dropSegments (indexRef : String)
  | deletePostings (indexRef : String) (rows : List PostingRow)
  | insertPostings (indexRef : String) (rows : List PostingRow)
  deriving DecidableEq

def IndexTables.withRegistry (tables : IndexTables) (f : LakeRegistry → LakeRegistry) : IndexTables :=
  { tables with registry := tables.registry.map f }

def IndexTables.withPostings (tables : IndexTables) (indexRef : String)
    (f : List PostingRow → List PostingRow) : IndexTables :=
  { tables with segments := tables.segments.map fun entry =>
      if entry.1 = indexRef then (entry.1, f entry.2) else entry }

def applyWrite (tables : IndexTables) : LakeWrite → IndexTables
  | .createRegistry => { tables with registry := some (tables.registry.getD ⟨[], []⟩) }
  | .deleteLocks rowids => tables.withRegistry fun r =>
      { r with locks := r.locks.filter fun lock => decide (lock ∉ rowids) }
  | .insertLock rowid => tables.withRegistry fun r => { r with locks := r.locks ++ [rowid] }
  | .deleteRows rows => tables.withRegistry fun r =>
      { r with rows := r.rows.filter fun row => decide (row ∉ rows) }
  | .insertRow row => tables.withRegistry fun r => { r with rows := r.rows ++ [row] }
  | .createSegments indexRef => { tables with segments := tables.segments ++ [(indexRef, [])] }
  | .dropSegments indexRef =>
      { tables with segments := tables.segments.filter fun entry => entry.1 != indexRef }
  | .deletePostings indexRef rows => tables.withPostings indexRef fun postings =>
      postings.filter fun row => decide (row ∉ rows)
  | .insertPostings indexRef rows => tables.withPostings indexRef fun postings => postings ++ rows

def applyWrites (writes : List LakeWrite) (tables : IndexTables) : IndexTables :=
  writes.foldl applyWrite tables

inductive LakeCheck where
  | noIndex (columnName : String)
  | indexRow (indexRef : String) (covered : Int)
  | lockOnly
  deriving DecidableEq, Repr

inductive LakeStatement where
  | bootstrap
  | check (condition : LakeCheck) (message : String)
  | lock
  | createSegments (indexRef : String)
  | pack (source : LakeSource) (columnName : String) (options : GramOptions) (ranges : List (Int × Int))
  | repack (indexRef : String) (ranges : List (Int × Int)) (purge : Bool)
  | writePacked (indexRef : String) (asNewGeneration : Bool)
  | deleteSegments (indexRef : String)
  | deleteIndexRow (indexRef : String)
  | insertCreated (indexRef columnName : String) (options : GramOptions)
  | insertMaintained (index : LakeIndex) (covered : Int) (schemaVersion : Nat)
  | dropSegments (indexRef : String)
  deriving DecidableEq

/-- A script's transaction: the __ngram tables with its own writes, those writes,
    and its temporary table of packed rows. -/
structure LakeTransaction where
  view : IndexTables
  writes : List LakeWrite
  packed : List PostingRow
  deriving DecidableEq

def LakeTransaction.write (t : LakeTransaction) (writes : List LakeWrite) : LakeTransaction :=
  { t with view := applyWrites writes t.view, writes := t.writes ++ writes }

/-- The rows of one packed group, under the segment number they came with. -/
def repackedRow (key : Uhugeint) (segmentNo : Int) (rowids : List Nat) : PostingRow :=
  { writtenRow 0 key 0 0 rowids with segmentNo := segmentNo }

/-- ngram_unpack_postings without its descriptor checks. -/
def unpackSegments (rows : List PostingRow) : Except String (List (Uhugeint × Int × Nat)) := do
  let lists ← rows.mapM fun row => do
    let rowids ← decodePostings row.postings
    .ok (rowids.map fun r => (row.gramKey, row.segmentNo, r))
  .ok lists.flatten

def packUnpacked (postings : List (Uhugeint × Int × Nat)) : List PostingRow :=
  (postings.map fun p => (p.1, p.2.1)).dedup.map fun group =>
    repackedRow group.1 group.2 (sortUnique ((postings.filter fun p =>
      decide ((p.1, p.2.1) = group)).map fun p => p.2.2))

/-- One range of a compaction, where a purge keeps the rowids of `live`. -/
def repackRange (segments : List PostingRow) (live : Option (List Nat)) (range : Int × Int) :
    Except String (List PostingRow) := do
  let postings ← unpackSegments (segments.filter fun row =>
    decide (range.1 / segmentRows ≤ row.segmentNo ∧ row.segmentNo ≤ range.2 / segmentRows))
  match live with
  | none => .ok (packUnpacked postings)
  | some live => .ok (packUnpacked (postings.filter fun p =>
      decide (p.2.2 ∈ live ∧ range.1 ≤ p.2.2 ∧ (p.2.2 : Int) ≤ range.2)))

def nextLakeGeneration (segments : List PostingRow) : Int :=
  ((segments.map SegmentRow.generation).max?.getD (-1)) + 1

def ofGeneration (generation : Int) (rows : List PostingRow) : List PostingRow :=
  rows.map fun row => { row with generation := generation }

def segmentsMissing : String := "Catalog Error: Table with name segments does not exist"
def segmentsExist : String := "Catalog Error: Table with name segments already exists"

def registryRow (target : Target) (indexRef columnName : String) (options : GramOptions)
    (tableId covered : Nat) (schemaVersion : Option Nat) : LakeRegistryRow where
  registryVersion := lakeRegistryVersion
  indexRef := indexRef
  schemaName := target.schemaName
  tableName := target.tableName
  columnName := columnName
  tableId := tableId
  formatVersion := lakeFormatVersion
  tokenizer := tokenizerName options.tokenizer
  minGram := options.minGram
  maxGram := options.maxGram
  caseInsensitive := options.caseInsensitive
  coveredSnapshot := covered
  schemaVersion := schemaVersion

section Scripts
variable (host : LakeHost)

def changedMessage (fn : String) : String :=
  s!"{fn}: the ngram registry of {host.catalogName} changed since this call was planned; run it again"

/-- The id of the table, which no other schema may hold a table of the same name as. -/
def tableIdExpression (s : Snapshot) : Except String Nat :=
  let refusal := s!"create_ngram_index: DuckLake catalog {host.catalogName} holds "
  match s.table with
  | none => .error (refusal ++ s!"no table named {host.target.tableName}")
  | some table =>
      if s.nameShared then .error (refusal ++
        s!"several tables named {host.target.tableName}; ngram indexes need a table name unique within the lake")
      else .ok table.tableId

def lockCheck (tables : IndexTables) : Bool := tables.locks.length == 1

def LakeCheck.holds (tables : IndexTables) : LakeCheck → Bool
  | .noIndex columnName => lockCheck tables && !tables.rows.any fun row =>
      row.belongsTo host && host.sqlLower row.columnName == host.sqlLower columnName
  | .indexRow indexRef covered => lockCheck tables &&
      (tables.rows.filter fun row => row.indexRef == indexRef && (row.coveredSnapshot : Int) == covered).length == 1
  | .lockOnly => lockCheck tables

def baseRows (columnName : String) (rows : List RowVersion) : List (BaseRow String) :=
  rows.map fun v => ⟨v.rowid, v.text columnName⟩

/-- The schema version of a snapshot as ducklake_snapshots lists it. -/
def listedVersion (lake : Lake) (snapshot : Nat) : Option Nat :=
  if snapshot ∈ lake.expired then none else (lake.snapshots[snapshot]?).map Snapshot.schemaVersion

/-- One statement of a script whose transaction reads `snapshot` and would commit
    as `number`. -/
def runStatement (lake : Lake) (snapshot number : Nat) (s : Snapshot) (t : LakeTransaction) :
    LakeStatement → Except String LakeTransaction
  | .bootstrap =>
      let created := if t.view.registry = none then [.createRegistry] else []
      .ok (t.write (created ++ if t.view.locks = [] then [.insertLock number] else []))
  | .check condition message =>
      if condition.holds host t.view then .ok t else .error message
  | .lock => .ok (t.write [.deleteLocks t.view.locks, .insertLock number])
  | .createSegments indexRef =>
      if t.view.postings indexRef ≠ none then .error segmentsExist
      else .ok (t.write [.createSegments indexRef])
  | .pack source columnName options ranges => do
      let rows ← readSource host lake snapshot columnName source
      .ok { t with packed := packRanges (host.gramKeys options) (baseRows columnName rows) ranges }
  | .repack indexRef ranges purge =>
      match t.view.postings indexRef with
      | none => .error segmentsMissing
      | some segments => do
          let live := if purge then (s.table.map fun table => table.rows.map RowVersion.rowid) else none
          if purge ∧ live = none then .error tableMissing
          let parts ← ranges.mapM (repackRange segments live)
          .ok { t with packed := parts.flatten }
  | .writePacked indexRef asNewGeneration =>
      match t.view.postings indexRef with
      | none => .error segmentsMissing
      | some segments =>
          let generation := if asNewGeneration then nextLakeGeneration segments else 0
          .ok { t.write [.insertPostings indexRef (ofGeneration generation t.packed)] with packed := [] }
  | .deleteSegments indexRef =>
      match t.view.postings indexRef with
      | none => .error segmentsMissing
      | some segments => .ok (t.write [.deletePostings indexRef segments])
  | .deleteIndexRow indexRef =>
      .ok (t.write [.deleteRows (t.view.rows.filter fun row => row.indexRef == indexRef)])
  | .insertCreated indexRef columnName options => do
      let tableId ← tableIdExpression host s
      .ok (t.write [.insertRow (registryRow host.target indexRef columnName options tableId snapshot
        ((listedVersion lake snapshot).map (· + 1)))])
  | .insertMaintained index covered schemaVersion =>
      .ok (t.write [.insertRow (registryRow host.target index.indexRef index.columnName index.options
        index.tableId.toNat covered.toNat (some schemaVersion))])
  | .dropSegments indexRef => .ok (t.write [.dropSegments indexRef])

def runScript (lake : Lake) (snapshot number : Nat) (statements : List LakeStatement) :
    Except String LakeTransaction :=
  match lake.snapshots[snapshot]? with
  | none => .error feedMissing
  | some s => statements.foldlM (runStatement host lake snapshot number s)
      ⟨s.index, [], []⟩

/-- The indexes a call works on; each must still describe the table. -/
def maintainedIndexes (lake : Lake) (snapshot : Nat) (fn onlyColumn : String) :
    Except String (List LakeIndex) := do
  let indexes ← readLakeRegistry host lake snapshot true
  let chosen := indexes.filter fun index => onlyColumn == "" || ciEquals index.columnName onlyColumn
  let result ← chosen.mapM fun index =>
    let reason := lakeStaleReason lake snapshot index
    if reason ≠ "" then
      .error (s!"{fn}: the ngram index on {host.target.tableName}.{index.columnName} cannot be maintained: " ++
        s!"{reason}; drop it and create it again")
    else .ok index
  if result = [] then
    .error (if onlyColumn == "" then s!"{fn}: no ngram index exists on {host.target.tableName}"
      else s!"{fn}: no ngram index exists on {host.target.tableName}.{onlyColumn}")
  .ok result

/-- Ranges over all committed row ids: the last runs up to the provisional ones. -/
def lakeRanges (lo hi : Int) (partitions : Nat) : List (Int × Int) :=
  let ranges := segmentAlignedRanges lo (max hi lo) partitions false
  ranges.dropLast ++ (ranges.getLast?.map fun range =>
    (range.1, (lakeProvisionalRowid : Int) - 1)).toList

def highestRowid (rows : List RowVersion) : Int := ((rows.map fun v => (v.rowid : Int)).max?).getD (-1)
def lowestRowid (rows : List RowVersion) : Int := ((rows.map fun v => (v.rowid : Int)).min?).getD 0

/-- The expansion of create_ngram_index, which is given the new index's identity. -/
def lakeCreateIndexScript (lake : Lake) (snapshot : Nat) (columnName indexRef : String)
    (options : GramOptions) (partitions : Nat) : Except String (List LakeStatement) := do
  let existing ← readLakeRegistry host lake snapshot true
  match existing.find? fun index => ciEquals index.columnName columnName with
  | some index =>
      .error (s!"An ngram index already exists on {host.target.tableName}.{columnName} ({index.indexRef}); " ++
        "use drop_ngram_index first")
  | none => do
      let s ← lake.readAt snapshot "the table's row ids"
      let rows ← readSource host lake snapshot columnName .base
      let committed := rows.filter fun v => decide (v.rowid < lakeProvisionalRowid)
      let bootstrap := if s.index.registry = none then [.bootstrap] else []
      .ok (bootstrap ++ [.check (.noIndex columnName) (changedMessage host "create_ngram_index"), .lock,
        .createSegments indexRef,
        .pack .base columnName options (lakeRanges 0 (highestRowid committed) partitions),
        .writePacked indexRef false,
        .insertCreated indexRef columnName options])

def refreshBody (lake : Lake) (snapshot : Nat) (partitions : String → Nat) (index : LakeIndex) :
    Except String (List LakeStatement) :=
  if index.coveredSnapshot = snapshot then .ok []
  else do
    let feed := lakeTailSource host lake snapshot index.coveredSnapshot
    let rows ← readSource host lake snapshot index.columnName feed
    let packing := if rows = [] then []
      else [.pack feed index.columnName index.options (segmentAlignedRanges (lowestRowid rows)
        (highestRowid rows) (partitions index.indexRef) false), .writePacked index.indexRef true]
    .ok (packing ++ [.deleteIndexRow index.indexRef,
      .insertMaintained index snapshot (lake.schemaVersionAt snapshot)])

def rowCheck (fn : String) (index : LakeIndex) : LakeStatement :=
  .check (.indexRow index.indexRef index.coveredSnapshot) (changedMessage host fn)

def checkedScript (fn : String) (indexes : List LakeIndex) (bodies : List (List LakeStatement)) :
    List LakeStatement :=
  indexes.map (rowCheck host fn) ++ if bodies.flatten = [] then [] else .lock :: bodies.flatten

def lakeRefreshScript (lake : Lake) (snapshot : Nat) (onlyColumn : String) (partitions : String → Nat) :
    Except String (List LakeStatement) := do
  let indexes ← maintainedIndexes host lake snapshot "ngram_refresh" onlyColumn
  let bodies ← indexes.mapM (refreshBody host lake snapshot partitions)
  .ok (checkedScript host "ngram_refresh" indexes bodies)

def compactBody (lake : Lake) (snapshot : Nat) (purge : Bool) (partitions : String → Nat)
    (index : LakeIndex) : Except String (List LakeStatement) := do
  let s ← lake.readAt snapshot "the segments table"
  match s.index.postings index.indexRef with
  | none => .error segmentsMissing
  | some segments =>
      let generations := (segments.map SegmentRow.generation).dedup.length
      if generations ≤ 1 ∧ ¬ purge then .ok []
      else
        let first := ((segments.map SegmentRow.segmentNo).min?).getD 0
        let last := ((segments.map SegmentRow.segmentNo).max?).getD (-1)
        let ranges := segmentAlignedRanges (first * segmentRows) ((last + 1) * segmentRows - 1)
          (partitions index.indexRef) false
        .ok [.repack index.indexRef ranges purge, .deleteSegments index.indexRef,
          .writePacked index.indexRef false, .deleteIndexRow index.indexRef,
          .insertMaintained index index.coveredSnapshot (lake.schemaVersionAt snapshot)]

def lakeCompactScript (lake : Lake) (snapshot : Nat) (onlyColumn : String) (purge : Bool)
    (partitions : String → Nat) : Except String (List LakeStatement) := do
  let indexes ← maintainedIndexes host lake snapshot "ngram_compact" onlyColumn
  let bodies ← indexes.mapM (compactBody lake snapshot purge partitions)
  .ok (checkedScript host "ngram_compact" indexes bodies)

def dropScript (index : LakeIndex) : List LakeStatement :=
  [rowCheck host "drop_ngram_index" index, .lock, .deleteIndexRow index.indexRef,
    .dropSegments index.indexRef]

def lakeDropIndexScript (lake : Lake) (snapshot : Nat) (columnName : String) :
    Except String (List LakeStatement) := do
  let indexes ← readLakeRegistry host lake snapshot true
  match indexes.find? fun index => ciEquals index.columnName columnName with
  | some index => .ok (dropScript host index)
  | none => .error s!"No ngram index exists on {host.target.tableName}.{columnName}"

def lakeDropIndexByReference (lake : Lake) (snapshot : Nat) (indexRef : String) :
    Except String (List LakeStatement) := do
  let indexes ← readLakeRegistry host lake snapshot false
  match indexes.find? fun index => index.indexRef == indexRef with
  | some index => .ok (dropScript host index)
  | none => .error s!"ngram: index {indexRef} does not exist in catalog {host.catalogName}"

end Scripts
end NgramLake
