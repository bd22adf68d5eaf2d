import NgramIndex.LakeEntries
import NgramIndex.LakeIntersection
import NgramIndex.SearchInit

/- ProbeAtSnapshot: the candidates of a query over a DuckLake table. Registry,
   postings and change feed are all read at the snapshot of the query. -/
namespace NgramLake
open AscendingLists Fallible NgramGram NgramProbe NgramIndexRegistry NgramSearchInit Utf8

structure LakeNeedle where
  text : String
  requiresCi : Bool
  deriving DecidableEq, Repr

structure LakeProbeLimits where
  maxKeys : Nat
  maxGrams : Nat
  maxRowids : Nat
  /-- Whether the row groups hit are too large a share of the table's; never when
      the gate is off. -/
  exceedsFraction : Nat → Nat → Bool

/-- A row of ducklake_options for the row-group size. -/
structure LakeOption where
  scope : String
  entry : Option String
  value : Int
  deriving DecidableEq, Repr

/-- What the host knows of the table beside its rows. -/
structure LakeStatistics where
  options : List LakeOption
  cardinality : Option Nat
  percentage : Nat → Nat → String

/-- The row groups that the candidates touch, and those of the table, stand for
    the fraction. -/
structure LakeCandidates where
  useIndex : Bool
  reason : String
  rowids : Option (List Nat)
  tokenizer : String
  gramsProbed : Nat
  postingCandidates : Nat
  tailCandidates : Nat
  groupsHit : Nat
  tableGroups : Nat
  deriving DecidableEq, Repr

def LakeCandidates.scan (reason : String) : LakeCandidates := ⟨false, reason, none, "", 0, 0, 0, 0, 0⟩

def tokenizerSpec (options : GramOptions) : String :=
  match options.tokenizer with
  | .ngram => s!"ngram({options.minGram})"
  | .sparse => s!"sparse({options.minGram}, {options.maxGram})"

def noLakeNeedle : String := "no needle the index can probe"
def lakeWorkBudget : String := "decoded-rowid work budget exceeded"

def defaultLakeRowGroupRows : Int := 122880

section Probe
variable (host : LakeHost) (lower : Char → Nat) (mask : GramKeyMask)

/-- The last option of a scope that names its entry, or -1. -/
def optionValue (options : List LakeOption) (applies : LakeOption → Bool) : Int :=
  ((options.filter applies).getLast?.map LakeOption.value).getD (-1)

def names (entry : Option String) (name : String) : Bool := entry.any fun text => ciEquals text name

/-- The rows that the table's Parquet writer puts in a row group. -/
def lakeRowGroupRows (options : List LakeOption) : Int :=
  let table := optionValue options fun o => o.scope == "TABLE" &&
    names o.entry (host.target.schemaName ++ "." ++ host.target.tableName)
  let schema := optionValue options fun o => o.scope == "SCHEMA" && names o.entry host.target.schemaName
  let all := optionValue options fun o => o.scope == "GLOBAL"
  ([table, schema, all].find? fun value => decide (0 < value)).getD defaultLakeRowGroupRows

def groupsHit (groupRows : Int) (rowids : List Nat) : Nat :=
  (rowids.foldl (fun (state : Nat × Int) rowid =>
    if (rowid : Int) / groupRows ≠ state.2 then (state.1 + 1, rowid / groupRows) else state) (0, -1)).1

/-- At least what the live rows fill and what the row ids span. -/
def tableGroups (groupRows : Int) (cardinality : Option Nat) (rowids : List Nat) : Nat :=
  let spanGroups := match rowids.getLast? with
    | none => 1
    | some last => (last : Int) / groupRows + 1
  (max ((((cardinality.getD 0 : Nat) : Int) + groupRows - 1) / groupRows) spanGroups).toNat

def addLakeNeedle (maxKeys : Nat) (options : GramOptions) (state : NeedleKeys × List String)
    (needle : LakeNeedle) : Except String (NeedleKeys × List String) :=
  if needle.requiresCi && !options.caseInsensitive then .ok state
  else do
    let (shape, own) ← decomposeNeedle lower mask (bytes needle.text) options maxKeys .empty
    if shape = .probeable then .ok ((state.1.addAll maxKeys own.keys).2, state.2 ++ [needle.text]) else .ok state

def unreadable (what : String) : String := s!"ngram: reading {what} failed"

/-- The rows of a segments table that the key filter lets through. No list of no
    keys can be written in SQL. -/
def readPostings (lake : Lake) (snapshot : Nat) (index : LakeIndex) (what : String) (keys : List Uhugeint) :
    Except String (List PostingRow) := do
  if keys = [] then .error (unreadable what)
  let s ← lake.readAt snapshot what
  match s.index.postings index.indexRef with
  | none => .error (unreadable what)
  | some segments => .ok (segments.filter (keyFilter keys))

def totalOf (rows : List PostingRow) (key : Uhugeint) : Int :=
  ((rows.filter fun row => decide (row.gramKey = key)).map SegmentRow.rowidCount).sum

/-- The rarest keys, ties broken by their order in the needles. -/
def chooseKeys (lake : Lake) (snapshot : Nat) (index : LakeIndex) (maxGrams : Nat) (keys : List Uhugeint) :
    Except String (List Uhugeint) :=
  if maxGrams < keys.length then do
    let rows ← readPostings lake snapshot index "the index manifest" keys
    let totals := (keys.map fun key => (totalOf rows key, key)).mergeSort fun a b => decide (a.1 ≤ b.1)
    .ok ((totals.take maxGrams).map Prod.snd)
  else .ok keys

/-- SQL's contains(lower(column), lower(needle)) for every probed needle. -/
def tailMatches (columnName : String) (probed : List String) (v : RowVersion) : Bool :=
  match v.text columnName with
  | none => false
  | some text => probed.all fun needle => decide (bytes (host.sqlLower needle) <:+: bytes (host.sqlLower text))

/-- Rows inserted after the covered snapshot, an update's new version among them. -/
def tailRowids (lake : Lake) (snapshot : Nat) (columnName : String) (probed : List String) (covered : Int) :
    Except String (List Nat) :=
  if covered < snapshot then do
    let rows ← readSource host lake snapshot columnName (lakeTailSource host lake snapshot covered)
    .ok ((rows.filter (tailMatches host columnName probed)).map RowVersion.rowid)
  else .ok []

/-- The rowids that the postings decode to, of counts that are not negative. -/
def postingRowids (rows : List PostingRow) : Except String Nat :=
  if rows.any fun row => decide (row.rowidCount < 0) then .error castError
  else .ok (rows.map SegmentRow.rowidCount).sum.toNat

/-- The candidates, unless they fall in too many of the row groups. -/
def gateRowGroups (limits : LakeProbeLimits) (statistics : LakeStatistics) (result : LakeCandidates)
    (rowids : List Nat) : LakeCandidates :=
  let groupRows := lakeRowGroupRows host statistics.options
  let hit := groupsHit groupRows rowids
  let groups := tableGroups groupRows statistics.cardinality rowids
  let result := { result with groupsHit := hit, tableGroups := groups }
  if limits.exceedsFraction hit groups then
    { result with reason := s!"candidates fall in {statistics.percentage hit groups}% of the row groups" }
  else { result with rowids := some rowids, useIndex := true, reason := "" }

/-- The probe of an index that still describes its table. -/
def probeIndex (lake : Lake) (snapshot : Nat) (limits : LakeProbeLimits) (statistics : LakeStatistics)
    (columnName : String) (needles : List LakeNeedle) (index : LakeIndex) : Except String LakeCandidates := do
  let (keys, probed) ← needles.foldlM (addLakeNeedle lower mask limits.maxKeys index.options) (.empty, [])
  let result := { LakeCandidates.scan noLakeNeedle with tokenizer := tokenizerSpec index.options }
  if keys.keys = [] then .ok result
  else
    let chosen ← chooseKeys lake snapshot index limits.maxGrams keys.keys
    let rows ← readPostings lake snapshot index "the index postings" chosen
    let decoded ← postingRowids rows
    if limits.maxRowids < decoded then
      .ok { result with gramsProbed := chosen.length, reason := lakeWorkBudget }
    else
      let posted ← intersectPostings rows chosen
      let tail ← tailRowids host lake snapshot columnName probed index.coveredSnapshot
      .ok (gateRowGroups host limits statistics { result with
        gramsProbed := chosen.length
        postingCandidates := posted.length
        tailCandidates := tail.length } (sortUnique (posted ++ tail)))

def probeAtSnapshot (lake : Lake) (snapshot : Nat) (limits : LakeProbeLimits) (statistics : LakeStatistics)
    (columnName : String) (needles : List LakeNeedle) : Except String LakeCandidates := do
  let indexes ← readLakeRegistry host lake snapshot true
  match (indexes.filter fun index => ciEquals index.columnName columnName).getLast? with
  | none => .ok (.scan ("no ngram index on " ++ columnName))
  | some index =>
      let stale := lakeStaleReason lake snapshot index
      if stale ≠ "" then .ok (.scan stale)
      else probeIndex host lower mask lake snapshot limits statistics columnName needles index

end Probe

/-- What a probe that uses an index did on the way. -/
structure Probed (host : LakeHost) (lower : Char → Nat) (mask : GramKeyMask) (lake : Lake) (snapshot : Nat)
    (columnName : String) (needles : List LakeNeedle) (index : LakeIndex) (posted tail : List Nat) : Prop where
  listed : ∃ indexes, readLakeRegistry host lake snapshot true = .ok indexes ∧ index ∈ indexes
  column : ciEquals index.columnName columnName = true
  fresh : lakeStaleReason lake snapshot index = ""
  searched : ∃ maxKeys keys probed chosen s segments,
    needles.foldlM (addLakeNeedle lower mask maxKeys index.options) (.empty, []) = .ok (keys, probed) ∧
    keys.keys ≠ [] ∧ chosen ≠ [] ∧ chosen ⊆ keys.keys ∧ lake.snapshots[snapshot]? = some s ∧
    s.index.postings index.indexRef = some segments ∧
    intersectPostings (segments.filter (keyFilter chosen)) chosen = .ok posted ∧
    tailRowids host lake snapshot columnName probed index.coveredSnapshot = .ok tail

section Inversion
variable {host : LakeHost} {lower : Char → Nat} {mask : GramKeyMask} {lake : Lake} {snapshot : Nat}
  {limits : LakeProbeLimits} {statistics : LakeStatistics} {columnName : String} {needles : List LakeNeedle}
  {index : LakeIndex} {result : LakeCandidates}

theorem readPostings_ok {what : String} {keys : List Uhugeint} {rows : List PostingRow}
    (read : readPostings lake snapshot index what keys = .ok rows) :
    keys ≠ [] ∧ ∃ s segments, lake.snapshots[snapshot]? = some s ∧
      s.index.postings index.indexRef = some segments ∧ rows = segments.filter (keyFilter keys) := by
  unfold readPostings at read
  obtain ⟨some_key, read⟩ := check_ok read
  obtain ⟨s, at_snapshot, read⟩ := bind_ok read
  split at read
  · cases read
  · rename_i segments stored
    exact ⟨some_key, s, segments, (readAt_ok at_snapshot).2, stored, (ok_inj read).symm⟩

theorem chooseKeys_subset {maxGrams : Nat} {keys chosen : List Uhugeint}
    (run : chooseKeys lake snapshot index maxGrams keys = .ok chosen) : chosen ⊆ keys := by
  unfold chooseKeys at run
  rcases branch_ok run with ⟨_, run⟩ | ⟨_, run⟩
  · obtain ⟨rows, _, run⟩ := bind_ok run
    obtain rfl := ok_inj run
    intro key selected
    obtain ⟨entry, taken, rfl⟩ := List.mem_map.mp selected
    obtain ⟨source, present, rfl⟩ := List.mem_map.mp (List.mem_mergeSort.mp (List.mem_of_mem_take taken))
    exact present
  · obtain rfl := ok_inj run
    exact fun key present => present

theorem gate_used {found : LakeCandidates} {rowids : List Nat} (unused : found.useIndex = false)
    (used : (gateRowGroups host limits statistics found rowids).useIndex = true) :
    (gateRowGroups host limits statistics found rowids).rowids = some rowids ∧
      (gateRowGroups host limits statistics found rowids).postingCandidates = found.postingCandidates ∧
      (gateRowGroups host limits statistics found rowids).tailCandidates = found.tailCandidates := by
  unfold gateRowGroups at used ⊢
  simp only at used ⊢
  split at used
  · rw [unused] at used
    cases used
  · rename_i within
    rw [if_neg within]
    exact ⟨rfl, rfl, rfl⟩

theorem probe_used (probe : probeAtSnapshot host lower mask lake snapshot limits statistics columnName needles =
      .ok result) (used : result.useIndex = true) :
    ∃ index posted tail, Probed host lower mask lake snapshot columnName needles index posted tail ∧
      result.rowids = some (sortUnique (posted ++ tail)) ∧ result.postingCandidates = posted.length ∧
      result.tailCandidates = tail.length := by
  unfold probeAtSnapshot at probe
  obtain ⟨indexes, registry, probe⟩ := bind_ok probe
  split at probe
  · obtain rfl := ok_inj probe
    cases used
  · rename_i index last
    obtain ⟨listed, column⟩ := List.mem_filter.mp (List.mem_of_getLast? last)
    rcases branch_ok probe with ⟨_, probe⟩ | ⟨fresh, probe⟩
    · obtain rfl := ok_inj probe
      cases used
    · unfold probeIndex at probe
      obtain ⟨⟨keys, probed⟩, folded, probe⟩ := bind_ok probe
      rcases branch_ok probe with ⟨_, probe⟩ | ⟨some_key, probe⟩
      · obtain rfl := ok_inj probe
        cases used
      · obtain ⟨chosen, choice, probe⟩ := bind_ok probe
        obtain ⟨rows, read, probe⟩ := bind_ok probe
        obtain ⟨decoded, _, probe⟩ := bind_ok probe
        rcases branch_ok probe with ⟨_, probe⟩ | ⟨_, probe⟩
        · obtain rfl := ok_inj probe
          cases used
        · obtain ⟨posted, intersected, probe⟩ := bind_ok probe
          obtain ⟨tail, tailed, probe⟩ := bind_ok probe
          obtain ⟨some_chosen, s, segments, here, stored, filtered⟩ := readPostings_ok read
          rw [filtered] at intersected
          have searched : Probed host lower mask lake snapshot columnName needles index posted tail :=
            ⟨⟨indexes, registry, listed⟩, column, not_not.mp fresh, ⟨limits.maxKeys, keys, probed, chosen, s,
              segments, folded, some_key, some_chosen, chooseKeys_subset choice, here, stored, intersected, tailed⟩⟩
          obtain rfl := ok_inj probe
          exact ⟨index, posted, tail, searched, gate_used rfl used⟩

end Inversion
end NgramLake
