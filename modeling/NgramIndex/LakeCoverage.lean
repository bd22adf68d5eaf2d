import NgramIndex.LakeStaleness
import NgramIndex.LakePostings

/- Coverage of a lake's indexes over whole runs. Whatever calls were expanded and
   executed between each other, every version up to the covered snapshot that is
   still live is posted under each of its gram keys. -/
namespace NgramLake
open LabelledRun Fallible NgramGram NgramProbe NgramIndexRegistry NgramMaintenance

section Rows

/-- The table within a commit that only writes rows. -/
structure WrittenFrom (number : Nat) (start : Option LakeTable) (s : TableState) : Prop where
  versions : ∀ t, s.table = some t → ∀ v ∈ t.rows,
    v.snapshotId = number ∨ ∃ u, start = some u ∧ v ∈ u.rows
  numbered : ∀ t, s.table = some t → ∀ v ∈ t.rows, v.rowid < t.nextRowId
  untouched : s.touched = []

theorem mem_numberRows {number first : Nat} {inserts : List (List (String × String))} {v : RowVersion}
    (listed : v ∈ numberRows number first inserts) :
    v.snapshotId = number ∧ first ≤ v.rowid ∧ v.rowid < first + inserts.length := by
  obtain ⟨i, inside, rfl⟩ := List.mem_mapIdx.mp listed
  exact ⟨rfl, Nat.le_add_right _ _, Nat.add_lt_add_left inside _⟩

theorem updateRow_version (number : Nat) (changes : RowChanges) (v : RowVersion) :
    (updateRow number changes v).rowid = v.rowid ∧
      ((updateRow number changes v).snapshotId = number ∨ updateRow number changes v = v) := by
  unfold updateRow
  split
  · exact ⟨rfl, Or.inl rfl⟩
  · exact ⟨rfl, Or.inr rfl⟩

theorem changeTable_written {number : Nat} {start : Option LakeTable} {s t : TableState} {change : TableChange}
    (written : WrittenFrom number start s) (rows_only : change.touches = false)
    (run : changeTable number s change = some t) : WrittenFrom number start t := by
  cases change with
  | create columns inserts =>
    simp only [changeTable] at run
    split at run
    · cases run
    · obtain rfl := Option.some.inj run
      refine ⟨fun u same v listed => ?_, fun u same v listed => ?_, written.untouched⟩
      · obtain rfl := Option.some.inj same
        exact Or.inl (mem_numberRows listed).1
      · obtain rfl := Option.some.inj same
        have bounds := mem_numberRows listed
        simp only at bounds ⊢
        omega
  | alter columns texts => cases rows_only
  | remove => cases rows_only
  | write changes =>
    obtain ⟨table, here, rfl⟩ := Option.map_eq_some_iff.mp run
    refine ⟨fun u same v listed => ?_, fun u same v listed => ?_, written.untouched⟩
    · obtain rfl := Option.some.inj same
      rcases List.mem_append.mp listed with kept | inserted
      · obtain ⟨old, present, rfl⟩ := List.mem_map.mp kept
        rcases (updateRow_version number changes old).2 with updated | same_row
        · exact Or.inl updated
        · rw [same_row]
          exact written.versions table here old (List.mem_filter.mp present).1
      · exact Or.inl (mem_numberRows inserted).1
    · obtain rfl := Option.some.inj same
      simp only [LakeTable.write]
      rcases List.mem_append.mp listed with kept | inserted
      · obtain ⟨old, present, rfl⟩ := List.mem_map.mp kept
        have below := written.numbered table here old (List.mem_filter.mp present).1
        rw [(updateRow_version number changes old).1]
        omega
      · exact (mem_numberRows inserted).2.2

theorem changeTables_written {number : Nat} {start : Option LakeTable} {changes : List TableChange}
    {s t : TableState} (written : WrittenFrom number start s)
    (rows_only : ∀ change ∈ changes, change.touches = false)
    (run : changeTables number s changes = some t) : WrittenFrom number start t := by
  induction changes generalizing s with
  | nil =>
    obtain rfl := Option.some.inj run
    exact written
  | cons change rest ih =>
    obtain ⟨own, others⟩ := List.forall_mem_cons.mp rows_only
    obtain ⟨u, first, later⟩ := Option.bind_eq_some_iff.mp ((List.foldlM_cons ..).symm.trans run)
    exact ih (changeTable_written written own first) others later

/-- Every version a snapshot holds was inserted by its commit or held before, and no
    table was ever altered or dropped. -/
structure OnlyWrites (lake : Lake) : Prop where
  versions : ∀ (k : Nat) (a b : Snapshot), lake.snapshots[k]? = some a → lake.snapshots[k + 1]? = some b →
    ∀ t, b.table = some t → ∀ v ∈ t.rows, v.snapshotId = k + 1 ∨ ∃ u, a.table = some u ∧ v ∈ u.rows
  untouched : ∀ (k : Nat) (s : Snapshot), lake.snapshots[k]? = some s → s.touched = []
  numbered : ∀ (k : Nat) (s : Snapshot), lake.snapshots[k]? = some s → ∀ t, s.table = some t →
    t.nextRowId ≤ lakeProvisionalRowid ∧ ∀ v ∈ t.rows, v.rowid < t.nextRowId ∧ v.snapshotId ≤ k

def Live (lake : Lake) (k : Nat) (v : RowVersion) : Prop :=
  ∃ s t, lake.snapshots[k]? = some s ∧ s.table = some t ∧ v ∈ t.rows

theorem live_back {lake : Lake} (only : OnlyWrites lake) {i j : Nat} (order : i ≤ j) {v : RowVersion}
    (live : Live lake j v) (inserted : v.snapshotId ≤ i) : Live lake i v := by
  induction j, order using Nat.le_induction with
  | base => exact live
  | succ j order ih =>
    obtain ⟨s, t, here, tabled, listed⟩ := live
    obtain ⟨inside, _⟩ := List.getElem?_eq_some_iff.mp here
    have before : lake.snapshots[j]? = some lake.snapshots[j] := List.getElem?_eq_getElem (by omega)
    rcases only.versions j _ s before here t tabled v listed with new | ⟨u, earlier, present⟩
    · omega
    · exact ih ⟨_, u, before, earlier, present⟩

theorem live_committed {lake : Lake} (only : OnlyWrites lake) {k : Nat} {v : RowVersion} (live : Live lake k v) :
    v.rowid < lakeProvisionalRowid ∧ v.snapshotId ≤ k := by
  obtain ⟨s, t, here, tabled, listed⟩ := live
  obtain ⟨bound, each⟩ := only.numbered k s here t tabled
  exact ⟨(each v listed).1.trans_le bound, (each v listed).2⟩

theorem only_writes_append {lake : Lake} {latest b : Snapshot} (only : OnlyWrites lake)
    (last : lake.snapshots.getLast? = some latest) (untouched : b.touched = [])
    (versions : ∀ t, b.table = some t → ∀ v ∈ t.rows,
      v.snapshotId = lake.snapshots.length ∨ ∃ u, latest.table = some u ∧ v ∈ u.rows)
    (numbered : ∀ t, b.table = some t → t.nextRowId ≤ lakeProvisionalRowid ∧
      ∀ v ∈ t.rows, v.rowid < t.nextRowId) : OnlyWrites (lake.append b) := by
  refine ⟨fun k x y here next t tabled v listed => ?_, fun k s here => ?_, fun k s here t tabled => ?_⟩
  · rcases append_pair last here next with ⟨before, after⟩ | ⟨newest, rfl, rfl⟩
    · exact only.versions k x y before after t tabled v listed
    · exact newest ▸ versions t tabled v listed
  · rcases append_cases here with before | ⟨_, rfl⟩
    · exact only.untouched k s before
    · exact untouched
  · rcases append_cases here with before | ⟨rfl, rfl⟩
    · exact only.numbered k s before t tabled
    · refine ⟨(numbered t tabled).1, fun v listed => ⟨(numbered t tabled).2 v listed, ?_⟩⟩
      rcases versions t tabled v listed with new | ⟨u, earlier, present⟩
      · omega
      · have dated := ((only.numbered _ latest (last_at last).2 u earlier).2 v present).2
        omega

theorem only_writes_change {host : LakeHost} {run next : LakeRun} {event : LakeEvent}
    (only : OnlyWrites run.lake) (rows_only : ∀ change ∈ event.changes, change.touches = false)
    (change : LakeChange host run next event) : OnlyWrites next.lake := by
  obtain ⟨lake, pending⟩ := next
  cases change with
  | quiet same =>
    change lake.snapshots = run.lake.snapshots at same
    refine ⟨?_, ?_, ?_⟩
    · simpa only [same] using only.versions
    · simpa only [same] using only.untouched
    · simpa only [same] using only.numbered
  | committed latest b last append by_client =>
    obtain rfl := append
    have numbered := only.numbered _ latest (last_at last).2
    have start : WrittenFrom run.lake.snapshots.length latest.table ⟨latest.table, latest.nextTableId, []⟩ :=
      ⟨fun t tabled v listed => Or.inr ⟨t, tabled, listed⟩,
        fun t tabled v listed => ((numbered t tabled).2 v listed).1, rfl⟩
    have written := changeTables_written start rows_only by_client.tables
    exact only_writes_append only last written.untouched written.versions
      fun t tabled => ⟨by_client.numbered t tabled, written.numbered t tabled⟩
  | maintained origin expanded snapshot s latest b last append by_script =>
    obtain rfl := append
    have numbered := only.numbered _ latest (last_at last).2
    refine only_writes_append only last by_script.untouched ?_ ?_
    · rw [by_script.table]
      exact fun t tabled v listed => Or.inr ⟨t, tabled, listed⟩
    · rw [by_script.table]
      exact fun t tabled => ⟨(numbered t tabled).1, fun v listed => ((numbered t tabled).2 v listed).1⟩

theorem only_writes_start : OnlyWrites emptyLake.lake := by
  refine ⟨?_, ?_, ?_⟩
  · intro k a b _ next t tabled
    rw [(emptyLake_only next).2] at tabled
    cases tabled
  · intro k s here
    rw [(emptyLake_only here).2]
    rfl
  · intro k s here t tabled
    rw [(emptyLake_only here).2] at tabled
    cases tabled

theorem only_writes_earlier {a b : Lake} (longer : a.snapshots <+: b.snapshots) (only : OnlyWrites b) :
    OnlyWrites a :=
  ⟨fun k x y here next => only.versions k x y (prefix_at longer here) (prefix_at longer next),
    fun k s here => only.untouched k s (prefix_at longer here),
    fun k s here => only.numbered k s (prefix_at longer here)⟩

end Rows

section Feed

/-- The change feed reports every version that a snapshot of its range inserted, as
    long as no commit of the range altered or dropped a table. -/
def ReportsInsertions (host : LakeHost) : Prop :=
  ∀ (lake : Lake) (first last : Nat) (rows : List RowVersion), host.insertions lake first last = some rows →
    (∀ (k : Nat) (s : Snapshot), first ≤ k → k ≤ last → lake.snapshots[k]? = some s → s.touched = []) →
    ∀ v, first ≤ v.snapshotId → v.snapshotId ≤ last → Live lake v.snapshotId v → v ∈ rows

theorem readSource_table {host : LakeHost} {lake : Lake} {reading : Nat} {columnName : String}
    {source : LakeSource} {rows : List RowVersion}
    (read : readSource host lake reading columnName source = .ok rows) :
    match source with
    | .base => ∃ s t, lake.snapshots[reading]? = some s ∧ s.table = some t ∧ rows = t.rows
    | .feed first last => host.insertions lake first last = some rows
    | .fallback snapshot covered => ∃ s t, lake.snapshots[snapshot]? = some s ∧ s.table = some t ∧
        rows = t.rows.filter fun v => decide (covered < v.snapshotId) := by
  simp only [readSource] at read
  split at read
  · cases read
  next table found =>
    obtain ⟨_, read⟩ := check_ok read
    obtain ⟨s, here, tabled⟩ := Option.bind_eq_some_iff.mp found
    cases source with
    | base => exact ⟨s, table, here, tabled, (ok_inj read).symm⟩
    | feed first last =>
      simp only at read ⊢
      split at read
      · cases read
      next reported => rw [reported, ok_inj read]
    | fallback snapshot covered =>
      obtain ⟨_, read⟩ := check_ok read
      exact ⟨s, table, here, tabled, (ok_inj read).symm⟩

theorem lakeTailSource_cases (host : LakeHost) (lake : Lake) (snapshot : Nat) (covered : Int) :
    lakeTailSource host lake snapshot covered = .feed (covered + 1).toNat snapshot ∨
      lakeTailSource host lake snapshot covered = .fallback snapshot covered := by
  unfold lakeTailSource
  split
  · exact Or.inl rfl
  · exact Or.inr rfl

theorem tail_lists {host : LakeHost} (reports : ReportsInsertions host) {origin lake : Lake}
    (only : OnlyWrites lake) {expanded reading covered : Nat} {columnName : String} {rows : List RowVersion}
    (read : readSource host lake reading columnName (lakeTailSource host origin expanded covered) = .ok rows)
    {v : RowVersion} {j : Nat} (later : expanded ≤ j) (live : Live lake j v) (after : covered < v.snapshotId)
    (upto : v.snapshotId ≤ expanded) : v ∈ rows := by
  rcases lakeTailSource_cases host origin expanded covered with feed | fallback
  · rw [feed] at read
    refine reports lake _ _ rows (readSource_table read) (fun k s _ _ here => only.untouched k s here) v
      (by omega) upto ?_
    exact live_back only (by omega) live (Nat.le_refl _)
  · rw [fallback] at read
    obtain ⟨s, t, here, tabled, rfl⟩ := readSource_table read
    obtain ⟨_, _, there, same_table, present⟩ := live_back only later live upto
    obtain rfl := Option.some.inj (here.symm.trans there)
    obtain rfl := Option.some.inj (tabled.symm.trans same_table)
    exact List.mem_filter.mpr ⟨present, decide_eq_true (by exact_mod_cast after)⟩

end Feed

section Entries

theorem readGramOptions_valid {row : LakeRegistryRow} {options : GramOptions}
    (read : readGramOptions row = .ok options) : validateGramOptions options "ngram" = .ok () := by
  obtain ⟨tokenizer, _, read⟩ := bind_ok read
  obtain ⟨_, read⟩ := check_ok read
  obtain ⟨_, valid, read⟩ := bind_ok read
  obtain rfl := ok_inj read
  exact valid

theorem registryRow_options {options : GramOptions} {fn : String}
    (valid : validateGramOptions options fn = .ok ()) (target : Target) (indexRef columnName : String)
    (tableId covered : Nat) (schemaVersion : Option Nat) :
    readGramOptions (registryRow target indexRef columnName options tableId covered schemaVersion) =
      .ok options := by
  have sizes : ¬ ((options.minGram : Int) < 0 ∨ (options.maxGram : Int) < 0) := by omega
  refine (bind_of_ok (parse_tokenizerName options.tokenizer "ngram")).trans ?_
  refine (check_of_not sizes).trans ?_
  exact bind_of_ok (validate_any_fn valid "ngram")

def SameDescription (a b : LakeRegistryRow) : Prop :=
  a.columnName = b.columnName ∧ readGramOptions a = readGramOptions b

def Covers (host : LakeHost) (live : RowVersion → Prop) (row : LakeRegistryRow)
    (postings : Option (List PostingRow)) : Prop :=
  ∃ options list, readGramOptions row = .ok options ∧ postings = some list ∧
    ∀ v, live v → v.snapshotId ≤ row.coveredSnapshot → ∀ text, v.text row.columnName = some text →
      ∀ key ∈ host.gramKeys options text, Stored list key v.rowid

structure EntrySound (host : LakeHost) (lake : Lake) (k : Nat) (entry : IndexEntry) : Prop where
  reached : ∀ row ∈ entry.rows, row.coveredSnapshot ≤ k
  covers : ∀ row ∈ entry.rows, Covers host (Live lake k) row entry.postings
  located : ∀ list, entry.postings = some list → ∀ row ∈ list, Located row

/-- From one snapshot to a later one an index's covered snapshot never moves back, and
    while it stays no description changes and no segment is added. -/
structure Advances (a b : IndexEntry) : Prop where
  order : ∀ r ∈ a.rows, ∀ t ∈ b.rows, r.coveredSnapshot ≤ t.coveredSnapshot
  same : ∀ r ∈ a.rows, ∀ t ∈ b.rows, r.coveredSnapshot = t.coveredSnapshot → SameDescription r t ∧
    ∀ old new, a.postings = some old → b.postings = some new →
      ∀ row ∈ new, ∃ source ∈ old, source.segmentNo = row.segmentNo

theorem entry_alone {entry : IndexEntry} (well : EntryWell entry) {row : LakeRegistryRow}
    (present : row ∈ entry.rows) : entry.rows = [row] := by
  have few := well.one
  obtain ⟨first, rest, rows⟩ := List.exists_cons_of_ne_nil (List.ne_nil_of_mem present)
  rw [rows, List.length_cons] at few
  obtain rfl : rest = [] := List.eq_nil_of_length_eq_zero (by omega)
  rw [rows, List.mem_singleton] at present
  rw [rows, present]

theorem advances_refl {entry : IndexEntry} (well : EntryWell entry) : Advances entry entry := by
  have one (r t : LakeRegistryRow) (left : r ∈ entry.rows) (right : t ∈ entry.rows) : t = r := by
    rw [entry_alone well left, List.mem_singleton] at right
    exact right
  constructor
  · intro r left t right
    rw [one r t left right]
  · intro r left t right _
    obtain rfl := one r t left right
    refine ⟨⟨rfl, rfl⟩, fun old new here there row listed => ?_⟩
    obtain rfl := Option.some.inj (here.symm.trans there)
    exact ⟨row, listed, rfl⟩

theorem advances_trans {a b c : IndexEntry} (well : EntryWell b) (some_row : b.rows ≠ [])
    (first : Advances a b) (second : Advances b c) : Advances a c := by
  obtain ⟨m, middle⟩ := List.exists_mem_of_ne_nil b.rows some_row
  refine ⟨fun r left t right => (first.order r left m middle).trans (second.order m middle t right),
    fun r left t right level => ?_⟩
  have lower := first.order r left m middle
  have upper := second.order m middle t right
  obtain ⟨described, segments⟩ := first.same r left m middle (by omega)
  obtain ⟨described_later, segments_later⟩ := second.same m middle t right (by omega)
  refine ⟨⟨described.1.trans described_later.1, described.2.trans described_later.2⟩,
    fun old new here there row listed => ?_⟩
  obtain ⟨list, stored⟩ := Option.ne_none_iff_exists'.mp (well.stored some_row)
  obtain ⟨source, between, same⟩ := segments_later list new stored there row listed
  obtain ⟨origin, first_listed, equal⟩ := segments old list here stored source between
  exact ⟨origin, first_listed, equal.trans same⟩

theorem sound_later {host : LakeHost} {lake : Lake} (only : OnlyWrites lake) {i j : Nat} (order : i ≤ j)
    {entry : IndexEntry} (sound : EntrySound host lake i entry) : EntrySound host lake j entry := by
  refine ⟨fun row listed => (sound.reached row listed).trans order, fun row listed => ?_, sound.located⟩
  obtain ⟨options, list, read, stored, covered⟩ := sound.covers row listed
  refine ⟨options, list, read, stored, fun v live upto => ?_⟩
  have reached := sound.reached row listed
  exact covered v (live_back only order live (upto.trans reached)) upto

structure EntryChanged (host : LakeHost) (lake : Lake) (snapshot : Nat) (before after : IndexEntry) : Prop where
  sound : EntrySound host lake snapshot after
  advances : Advances before after
  fresh : before.rows = [] → ∀ row ∈ after.rows, row.coveredSnapshot = snapshot
  keeps : ∀ old, before.postings = some old → after.postings = none ∨ ∃ new, after.postings = some new ∧
    ∀ v, Live lake snapshot v → ∀ key, Stored old key v.rowid → Stored new key v.rowid

structure CheckedRow (origin : Lake) (expanded : Nat) (index : LakeIndex) (before : IndexEntry) : Prop where
  replaced : ∃ planned row, before.rows = [row] ∧ ReadFrom planned index ∧
    planned.coveredSnapshot = row.coveredSnapshot ∧ SameDescription planned row ∧
    planned.coveredSnapshot ≤ expanded
  segments : ∀ p old new, origin.snapshots[expanded]? = some p → p.index.postings index.indexRef = some old →
    before.postings = some new → ∀ row ∈ new, ∃ source ∈ old, source.segmentNo = row.segmentNo

theorem checked_row {host : LakeHost} {origin : Lake} {expanded : Nat} {index : LakeIndex} {before : IndexEntry}
    (planned : Planned host origin expanded index) (checked : RowChecked index before) (well : EntryWell before)
    (advances : ∀ p, origin.snapshots[expanded]? = some p →
      Advances (p.index.entry index.indexRef) before) : CheckedRow origin expanded index before := by
  obtain ⟨⟨s, planned_row, here, listed, rfl⟩, fresh⟩ := planned
  obtain ⟨readable, reached, _⟩ := fresh_cases fresh
  have from_row := readIndexRow_from readable
  have own : planned_row ∈ (s.index.entry (readIndexRow planned_row).indexRef).rows :=
    List.mem_filter.mpr ⟨listed, beq_iff_eq.mpr from_row.indexRef.symm⟩
  obtain ⟨row, only, level⟩ : ∃ row, before.rows = [row] ∧
      (row.coveredSnapshot : Int) = (readIndexRow planned_row).coveredSnapshot := by
    obtain ⟨row, filtered⟩ := List.length_eq_one_iff.mp checked
    obtain ⟨present, level⟩ := List.mem_filter.mp (filtered ▸ List.mem_singleton_self row)
    exact ⟨row, entry_alone well present, beq_iff_eq.mp level⟩
  rw [from_row.covered] at level reached
  have same_covered : planned_row.coveredSnapshot = row.coveredSnapshot := by omega
  have step := (advances s here).same planned_row own row (only ▸ List.mem_singleton_self row) same_covered
  refine ⟨⟨planned_row, row, only, from_row, same_covered, step.1, by omega⟩, fun p old new there => ?_⟩
  obtain rfl := Option.some.inj (here.symm.trans there)
  exact step.2 old new

theorem maintained_covers {host : LakeHost} {index : LakeIndex} {planned row : LakeRegistryRow}
    (from_row : ReadFrom planned index) (described : SameDescription planned row) {live : RowVersion → Prop}
    {before : Option (List PostingRow)} (covers : Covers host live row before) (covered : Int) (version : Nat) :
    readGramOptions (maintainedRow host index covered version) = .ok index.options ∧
      (maintainedRow host index covered version).columnName = row.columnName ∧
      ∃ list, before = some list ∧ ∀ v, live v → v.snapshotId ≤ row.coveredSnapshot → ∀ text,
        v.text row.columnName = some text → ∀ key ∈ host.gramKeys index.options text,
          Stored list key v.rowid := by
  obtain ⟨options, list, read, stored, covered_rows⟩ := covers
  obtain rfl : index.options = options := by
    have same := from_row.options.symm.trans (described.2.trans read)
    exact ok_inj same
  refine ⟨registryRow_options (readGramOptions_valid from_row.options) .., ?_, list, stored, covered_rows⟩
  exact from_row.columnName.trans described.1

theorem mem_baseRows {columnName : String} {rows : List RowVersion} {v : RowVersion} (listed : v ∈ rows) :
    (⟨v.rowid, v.text columnName⟩ : BaseRow String) ∈ baseRows columnName rows :=
  List.mem_map_of_mem listed

theorem refresh_ranges_cover {planned : List RowVersion} {v : RowVersion} (listed : v ∈ planned)
    (partitions : Nat) :
    ∃ range ∈ segmentAlignedRanges (lowestRowid planned) (highestRowid planned) partitions false,
      range.1 ≤ (v.rowid : Int) ∧ (v.rowid : Int) ≤ range.2 := by
  have present : (v.rowid : Int) ∈ planned.map fun v => (v.rowid : Int) := List.mem_map_of_mem listed
  exact segmentAlignedRanges_cover (least_le present 0) (le_greatest present (-1))

section Changes
variable {host : LakeHost} {origin lake : Lake} {expanded snapshot : Nat} {s : Snapshot}
  {before after : IndexEntry}

/-- After a refresh the old versions are posted by the old rows, the new ones by
    those packed from the feed. -/
theorem refreshed_covers (reports : ReportsInsertions host) (only : OnlyWrites lake)
    (earlier : origin.snapshots <+: lake.snapshots) (inside : expanded < origin.snapshots.length)
    (order : expanded ≤ snapshot) {index : LakeIndex} {row : LakeRegistryRow}
    (level : index.coveredSnapshot = row.coveredSnapshot) (named : index.columnName = row.columnName)
    (appended : FeedAppended host origin lake expanded snapshot index before after) {list : List PostingRow}
    (stored : before.postings = some list) :
    ∃ new, after.postings = some new ∧ (∀ key r, Stored list key r → Stored new key r) ∧
      ∀ v, Live lake snapshot v → row.coveredSnapshot < v.snapshotId → v.snapshotId ≤ expanded → ∀ text,
        v.text row.columnName = some text → ∀ key ∈ host.gramKeys index.options text, Stored new key v.rowid := by
  unfold FeedAppended at appended
  rw [level] at appended
  have planned_lists {rows : List RowVersion} (read : readSource host origin expanded index.columnName
      (lakeTailSource host origin expanded row.coveredSnapshot) = .ok rows) {v : RowVersion}
      (live : Live lake snapshot v) (after_covered : row.coveredSnapshot < v.snapshotId)
      (upto : v.snapshotId ≤ expanded) : v ∈ rows := by
    have here : Live origin expanded v := by
      obtain ⟨t, table, there, tabled, listed⟩ := live_back only order live upto
      exact ⟨t, table, earlier_at earlier inside there, tabled, listed⟩
    exact tail_lists reports (only_writes_earlier earlier only) read (Nat.le_refl _) here after_covered upto
  rcases appended with ⟨nothing, kept⟩ | ⟨planned, rows, old, generation, partitions, plan, read, here, filled⟩
  · refine ⟨list, kept.trans stored, fun _ _ posted => posted, fun v live after_covered upto => ?_⟩
    cases planned_lists nothing live after_covered upto
  · obtain rfl := Option.some.inj (stored.symm.trans here)
    refine ⟨_, filled, fun key r posted => stored_append.mpr (Or.inl posted),
      fun v live after_covered upto text value key keyed => stored_append.mpr (Or.inr ?_)⟩
    have in_feed := tail_lists reports only read order live after_covered upto
    refine stored_ofGeneration.mpr (packRanges_stored (mem_baseRows in_feed) ?_ keyed
      (live_committed only live).1 (refresh_ranges_cover (planned_lists plan live after_covered upto) _))
    rw [named]
    exact value

theorem refreshed_changed (reports : ReportsInsertions host) (only : OnlyWrites lake)
    (earlier : origin.snapshots <+: lake.snapshots) (inside : expanded < origin.snapshots.length)
    (order : expanded ≤ snapshot) {index : LakeIndex} (sound : EntrySound host lake snapshot before)
    (checked : CheckedRow origin expanded index before) (behind : index.coveredSnapshot ≠ expanded) {version : Nat}
    (rows : after.rows = [maintainedRow host index expanded version])
    (appended : FeedAppended host origin lake expanded snapshot index before after) :
    EntryChanged host lake snapshot before after := by
  obtain ⟨planned, row, alone, from_row, level, described, reached⟩ := checked.replaced
  have present : row ∈ before.rows := alone ▸ List.mem_singleton_self row
  obtain ⟨read, named, list, stored, covered⟩ :=
    maintained_covers from_row described (sound.covers row present) expanded version
  have index_level : index.coveredSnapshot = row.coveredSnapshot := by rw [from_row.covered, level]
  have advanced : row.coveredSnapshot < expanded := by omega
  obtain ⟨new, filled, kept, fed⟩ := refreshed_covers reports only earlier inside order index_level named
    appended stored
  have located : ∀ row ∈ new, Located row := by
    unfold FeedAppended at appended
    rcases appended with ⟨_, same⟩ | ⟨_, _, old, _, _, _, _, here, appended⟩
    · exact sound.located new (same ▸ filled)
    · obtain rfl := Option.some.inj (filled.symm.trans appended)
      exact located_append (sound.located old here) (located_ofGeneration packRanges_located)
  refine ⟨⟨?_, ?_, ?_⟩, ⟨?_, ?_⟩, ?_, ?_⟩
  · simpa [rows, maintainedRow, registryRow] using order
  · simp only [rows, List.forall_mem_singleton]
    refine ⟨index.options, new, read, filled, fun v live upto text value key keyed => ?_⟩
    rw [named] at value
    by_cases old : v.snapshotId ≤ row.coveredSnapshot
    · exact kept key v.rowid (covered v live old text value key keyed)
    · exact fed v live (by omega) upto text value key keyed
  · intro other same
    obtain rfl := Option.some.inj (filled.symm.trans same)
    exact located
  · simpa [rows, alone, maintainedRow, registryRow] using advanced.le
  · simp only [rows, alone, List.forall_mem_singleton]
    intro same
    exact absurd same (by simpa [maintainedRow, registryRow] using advanced.ne)
  · intro empty
    exact absurd present (by simp [empty])
  · intro old here
    obtain rfl := Option.some.inj (stored.symm.trans here)
    exact Or.inr ⟨new, filled, fun v _ key posted => kept key v.rowid posted⟩

/-- A compaction's ranges were read at the expansion, yet hold every segment there is:
    a refresh in between would have moved the covered snapshot. -/
theorem compacted_changed (only : OnlyWrites lake) (here : lake.snapshots[snapshot]? = some s)
    {index : LakeIndex} {purge : Bool} (sound : EntrySound host lake snapshot before)
    (checked : CheckedRow origin expanded index before) {version : Nat}
    (rows : after.rows = [maintainedRow host index index.coveredSnapshot version])
    (repacked : Repacked origin expanded s purge index before after) :
    EntryChanged host lake snapshot before after := by
  obtain ⟨planned, row, alone, from_row, level, described, reached⟩ := checked.replaced
  have present : row ∈ before.rows := alone ▸ List.mem_singleton_self row
  obtain ⟨read, named, list, stored, covered⟩ :=
    maintained_covers from_row described (sound.covers row present) index.coveredSnapshot version
  have index_level : index.coveredSnapshot = row.coveredSnapshot := by rw [from_row.covered, level]
  obtain ⟨p, segments, old, parts, partitions, there, planned_segments, same_list, tabled, packed, filled⟩ :=
    repacked
  obtain rfl := Option.some.inj (stored.symm.trans same_list)
  obtain ⟨keeps, located, in_old⟩ := repacked_all (sound.located list stored) packed
  have alive (v : RowVersion) (live : Live lake snapshot v) : ∀ kept ∈ purgeLive purge s, v.rowid ∈ kept := by
    intro kept same
    unfold purgeLive at same
    split at same
    · obtain ⟨t, table, found, held, listed⟩ := live
      obtain rfl := Option.some.inj (here.symm.trans found)
      obtain ⟨other, is_table, rfl⟩ := Option.map_eq_some_iff.mp same
      obtain rfl := Option.some.inj (held.symm.trans is_table)
      exact List.mem_map_of_mem listed
    · cases same
  have kept (v : RowVersion) (live : Live lake snapshot v) (key : Uhugeint) (posted : Stored list key v.rowid) :
      Stored (ofGeneration 0 parts.flatten) key v.rowid := by
    have ⟨posting, listed, _, in_segment, _⟩ := posted
    obtain ⟨source, planned_source, same⟩ := checked.segments p segments list there planned_segments stored posting listed
    refine stored_ofGeneration.mpr (keeps key v.rowid posted (live_committed only live).1 (alive v live) ?_)
    exact compaction_ranges_cover planned_source (same.trans in_segment) partitions
  refine ⟨⟨?_, ?_, ?_⟩, ⟨?_, ?_⟩, ?_, ?_⟩
  · have bound := sound.reached row present
    simpa [rows, maintainedRow, registryRow, index_level] using bound
  · simp only [rows, List.forall_mem_singleton]
    refine ⟨index.options, _, read, filled, fun v live upto text value key keyed => ?_⟩
    rw [named] at value
    have upto_row : v.snapshotId ≤ row.coveredSnapshot := by
      simpa [maintainedRow, registryRow, index_level] using upto
    exact kept v live key (covered v live upto_row text value key keyed)
  · intro new same
    obtain rfl := Option.some.inj (filled.symm.trans same)
    exact located_ofGeneration located
  · simp [rows, alone, maintainedRow, registryRow, index_level]
  · simp only [rows, alone, List.forall_mem_singleton]
    refine fun _ => ⟨⟨named.symm, ?_⟩, fun from_list new first second posting listed => ?_⟩
    · exact described.2.symm.trans (from_row.options.trans read.symm)
    · obtain rfl := Option.some.inj (stored.symm.trans first)
      obtain rfl := Option.some.inj (filled.symm.trans second)
      obtain ⟨source, in_parts, rfl⟩ := mem_ofGeneration.mp listed
      exact in_old source in_parts
  · intro empty
    exact absurd present (by simp [empty])
  · intro from_list first
    obtain rfl := Option.some.inj (stored.symm.trans first)
    exact Or.inr ⟨_, filled, kept⟩

theorem created_changed (only : OnlyWrites lake) {indexRef columnName : String}
    {options : GramOptions} {hi : Int} {partitions tableId : Nat} {table_rows : List RowVersion}
    {version : Option Nat} (well : EntryWell before)
    (valid : validateGramOptions options "create_ngram_index" = .ok ()) (absent : before.postings = none)
    (read : readSource host lake snapshot columnName .base = .ok table_rows)
    (inserted : after.rows = before.rows ++ [registryRow host.target indexRef columnName options tableId
      snapshot version])
    (packed : after.postings = some (ofGeneration 0 (packRanges (host.gramKeys options)
      (baseRows columnName table_rows) (lakeRanges 0 hi partitions)))) :
    EntryChanged host lake snapshot before after := by
  have no_row : before.rows = [] := by
    by_contra some_row
    exact well.stored some_row absent
  rw [no_row, List.nil_append] at inserted
  obtain ⟨s, table, here, tabled, rfl⟩ := readSource_table read
  refine ⟨⟨?_, ?_, ?_⟩, ⟨by simp [no_row], by simp [no_row]⟩, fun _ => ?_, fun old some_old => ?_⟩
  · simp [inserted, registryRow]
  · simp only [inserted, List.forall_mem_singleton]
    refine ⟨options, _, registryRow_options valid .., packed, fun v live _ text value key keyed => ?_⟩
    obtain ⟨t, other, found, is_table, listed⟩ := live
    obtain rfl := Option.some.inj (here.symm.trans found)
    obtain rfl := Option.some.inj (tabled.symm.trans is_table)
    have committed := (live_committed only ⟨s, table, here, tabled, listed⟩).1
    refine stored_ofGeneration.mpr (packRanges_stored (mem_baseRows listed) value keyed committed ?_)
    exact lakeRanges_cover partitions (Int.natCast_nonneg _) (by exact_mod_cast committed)
  · intro list same
    obtain rfl := Option.some.inj (packed.symm.trans same)
    exact located_ofGeneration packRanges_located
  · simp [inserted, registryRow]
  · rw [absent] at some_old
    cases some_old

theorem entry_changed (reports : ReportsInsertions host) (only : OnlyWrites lake)
    (earlier : origin.snapshots <+: lake.snapshots) (inside : expanded < origin.snapshots.length)
    (order : expanded ≤ snapshot) (here : lake.snapshots[snapshot]? = some s) {indexRef : String}
    (well : EntryWell before) (sound : EntrySound host lake snapshot before)
    (advances : ∀ p, origin.snapshots[expanded]? = some p → Advances (p.index.entry indexRef) before)
    (change : EntryChange host origin lake expanded snapshot s indexRef before after) :
    EntryChanged host lake snapshot before after := by
  cases change with
  | refreshed index planned named checked behind rows appended =>
    subst named
    exact refreshed_changed reports only earlier inside order sound (checked_row planned checked well advances)
      behind rows appended
  | compacted index purge planned named checked rows repacked =>
    subst named
    exact compacted_changed only here sound (checked_row planned checked well advances) rows repacked
  | created columnName options hi partitions tableId rows valid absent identified read inserted packed =>
    exact created_changed only well valid absent read inserted packed
  | dropped rows postings =>
    refine ⟨⟨?_, ?_, ?_⟩, ⟨?_, ?_⟩, ?_, fun _ _ => Or.inl postings⟩
    · simp [rows]
    · simp [rows]
    · simp [postings]
    · simp [rows]
    · simp [rows]
    · simp [rows]

end Changes
end Entries

section Runs
variable {host : LakeHost}

structure Covered (host : LakeHost) (run : LakeRun) : Prop where
  only : OnlyWrites run.lake
  sound : ∀ (k : Nat) (s : Snapshot), run.lake.snapshots[k]? = some s →
    ∀ indexRef, EntrySound host run.lake k (s.index.entry indexRef)
  advances : ∀ (j k : Nat) (x y : Snapshot), j ≤ k → run.lake.snapshots[j]? = some x →
    run.lake.snapshots[k]? = some y → ∀ indexRef, Advances (x.index.entry indexRef) (y.index.entry indexRef)

theorem sound_longer {a b : Lake} (longer : a.snapshots <+: b.snapshots) {k : Nat}
    (inside : k < a.snapshots.length) {entry : IndexEntry} (sound : EntrySound host a k entry) :
    EntrySound host b k entry := by
  refine ⟨sound.reached, fun row listed => ?_, sound.located⟩
  obtain ⟨options, list, read, stored, covered⟩ := sound.covers row listed
  refine ⟨options, list, read, stored, fun v live => covered v ?_⟩
  obtain ⟨s, t, here, tabled, present⟩ := live
  exact ⟨s, t, earlier_at longer inside here, tabled, present⟩

theorem covered_append {run : LakeRun} {b : Snapshot} {pending : List Plan} (covered : Covered host run)
    (only : OnlyWrites (run.lake.append b)) (well : ∀ indexRef, EntryWell (b.index.entry indexRef))
    (sound : ∀ indexRef, EntrySound host (run.lake.append b) run.lake.snapshots.length (b.index.entry indexRef))
    (advances : ∀ (j : Nat) (x : Snapshot), run.lake.snapshots[j]? = some x →
      ∀ indexRef, Advances (x.index.entry indexRef) (b.index.entry indexRef)) :
    Covered host ⟨run.lake.append b, pending⟩ := by
  refine ⟨only, fun k s here indexRef => ?_, fun j k x y order here there indexRef => ?_⟩
  · rcases append_cases here with before | ⟨rfl, rfl⟩
    · obtain ⟨inside, _⟩ := List.getElem?_eq_some_iff.mp before
      exact @sound_longer host run.lake (run.lake.append b) (List.prefix_append _ _) k inside _
        (covered.sound k s before indexRef)
    · exact sound indexRef
  · rcases append_cases there with before | ⟨rfl, rfl⟩
    · obtain ⟨inside, _⟩ := List.getElem?_eq_some_iff.mp before
      exact covered.advances j k x y order
        (@earlier_at run.lake (run.lake.append b) (List.prefix_append _ _) j (by omega) x here) before indexRef
    · rcases append_cases here with before | ⟨_, rfl⟩
      · exact advances j x before indexRef
      · exact advances_refl (well indexRef)

theorem covered_maintained {run : LakeRun} {pending : List Plan} {origin : Lake} {expanded snapshot : Nat}
    {s latest b : Snapshot} (reports : ReportsInsertions host) (held : Sound host run) (covered : Covered host run)
    (only : OnlyWrites (run.lake.append b)) (last : run.lake.snapshots.getLast? = some latest)
    (by_script : MaintainedBy host run.lake origin expanded snapshot s latest b) :
    Covered host ⟨run.lake.append b, pending⟩ := by
  obtain ⟨some_snapshot, newest⟩ := last_at last
  obtain ⟨read, _⟩ := List.getElem?_eq_some_iff.mp by_script.here
  have same_index : latest.index = s.index := by_script.unchanged _ latest (by omega) newest
  have sound_at (indexRef : String) := covered.sound snapshot s by_script.here indexRef
  have advances_at (j : Nat) (x : Snapshot) (here : run.lake.snapshots[j]? = some x) (indexRef : String) :
      Advances (x.index.entry indexRef) (s.index.entry indexRef) := by
    obtain ⟨inside, _⟩ := List.getElem?_eq_some_iff.mp here
    exact same_index ▸ covered.advances j _ x latest (by omega) here newest indexRef
  have changed (indexRef : String) (change : EntryChange host origin run.lake expanded snapshot s indexRef
      (s.index.entry indexRef) (b.index.entry indexRef)) :
      EntryChanged host run.lake snapshot (s.index.entry indexRef) (b.index.entry indexRef) := by
    refine entry_changed reports covered.only by_script.earlier by_script.inside by_script.order by_script.here
      (held.entries snapshot s by_script.here indexRef) (sound_at indexRef) (fun p there => ?_) change
    exact covered.advances expanded snapshot p s by_script.order (prefix_at by_script.earlier there)
      by_script.here indexRef
  have later {entry : IndexEntry} (sound : EntrySound host run.lake snapshot entry) :
      EntrySound host (run.lake.append b) run.lake.snapshots.length entry :=
    sound_later only (by omega) (@sound_longer host run.lake (run.lake.append b) (List.prefix_append _ _)
      snapshot read entry sound)
  refine covered_append covered only (fun indexRef => ?_) (fun indexRef => ?_) (fun j x here indexRef => ?_)
  · have well := held.entries snapshot s by_script.here indexRef
    rcases by_script.changes indexRef with kept | change
    · exact kept ▸ well
    · exact changed_well well change
  · rcases by_script.changes indexRef with kept | change
    · exact later (kept ▸ sound_at indexRef)
    · exact later (changed indexRef change).sound
  · rcases by_script.changes indexRef with kept | change
    · exact kept ▸ advances_at j x here indexRef
    · have result := changed indexRef change
      by_cases some_row : (s.index.entry indexRef).rows = []
      · -- a new index covers the snapshot it was read at, a dropped one of its name less
        have below : ∀ r ∈ (x.index.entry indexRef).rows, r.coveredSnapshot < snapshot := by
          intro r listed
          by_cases early : j < snapshot
          · exact ((covered.sound j x here indexRef).reached r listed).trans_lt early
          · rw [by_script.unchanged j x (by omega) here, some_row] at listed
            cases listed
        refine ⟨fun r left t right => ?_, fun r left t right same => ?_⟩
        · exact result.fresh some_row t right ▸ (below r left).le
        · exact absurd (same.trans (result.fresh some_row t right)) (below r left).ne
      · exact advances_trans (held.entries snapshot s by_script.here indexRef) some_row
          (advances_at j x here indexRef) result.advances

theorem covered_step {run next : LakeRun} {event : LakeEvent} (reports : ReportsInsertions host)
    (held : Sound host run) (covered : Covered host run)
    (rows_only : ∀ change ∈ event.changes, change.touches = false)
    (change : LakeChange host run next event) : Covered host next := by
  have only := only_writes_change covered.only rows_only change
  obtain ⟨lake, pending⟩ := next
  cases change with
  | quiet same =>
    change lake.snapshots = run.lake.snapshots at same
    refine ⟨only, fun k s here indexRef => ?_, fun j k x y order here there => ?_⟩
    · have before : run.lake.snapshots[k]? = some s := same ▸ here
      obtain ⟨inside, _⟩ := List.getElem?_eq_some_iff.mp before
      exact @sound_longer host run.lake lake (same ▸ List.prefix_refl _) k inside _
        (covered.sound k s before indexRef)
    · exact covered.advances j k x y order (same ▸ here) (same ▸ there)
  | committed latest b last append by_client =>
    obtain rfl := append
    obtain ⟨some_snapshot, newest⟩ := last_at last
    have sound_at (indexRef : String) := covered.sound _ latest newest indexRef
    refine covered_append covered only (fun indexRef => ?_) (fun indexRef => ?_) (fun j x here indexRef => ?_)
    · rw [by_client.index]
      exact held.entries _ latest newest indexRef
    · rw [by_client.index]
      exact sound_later only (Nat.sub_le _ 1) (@sound_longer host run.lake _ (List.prefix_append _ _) _
        (by omega) _ (sound_at indexRef))
    · rw [by_client.index]
      obtain ⟨inside, _⟩ := List.getElem?_eq_some_iff.mp here
      exact covered.advances j _ x latest (by omega) here newest indexRef
  | maintained origin expanded snapshot s latest b last append by_script =>
    obtain rfl := append
    exact covered_maintained reports held covered only last by_script

theorem covered_start : Covered host emptyLake := by
  have no_row (indexRef : String) : emptySnapshot.index.entry indexRef = ⟨[], none⟩ := rfl
  refine ⟨only_writes_start, fun k s here indexRef => ?_, fun j k x y _ here there indexRef => ?_⟩
  · rw [(emptyLake_only here).2, no_row]
    exact ⟨by simp, by simp, by simp⟩
  · rw [(emptyLake_only here).2, (emptyLake_only there).2, no_row]
    exact ⟨by simp, by simp⟩

theorem lake_covered (reports : ReportsInsertions host) {events : List LakeEvent} {run : LakeRun}
    (rows_only : ∀ e ∈ events, ∀ change ∈ e.changes, change.touches = false)
    (reached : exec (lakeStep host) emptyLake events = some run) : Sound host run ∧ Covered host run :=
  @lake_invariant host (Covered host) (fun e => ∀ change ∈ e.changes, change.touches = false)
    (fun _ _ _ held covered only _ change => covered_step reports held covered only change) _ _ rows_only reached
    covered_start

/-- Every live version up to the covered snapshot of a registry row has its rowid in
    the postings of each of its gram keys. -/
def CoversSnapshot (host : LakeHost) (s : Snapshot) : Prop :=
  ∀ row ∈ s.index.rows, ∃ options postings, readGramOptions row = .ok options ∧
    s.index.postings row.indexRef = some postings ∧ ∀ table, s.table = some table → ∀ v ∈ table.rows,
      v.snapshotId ≤ row.coveredSnapshot → ∀ text, v.text row.columnName = some text →
        ∀ key ∈ host.gramKeys options text, Posted postings key v.rowid

theorem covers_snapshot {run : LakeRun} (covered : Covered host run) {k : Nat} {s : Snapshot}
    (here : run.lake.snapshots[k]? = some s) : CoversSnapshot host s := by
  intro row listed
  have own : row ∈ (s.index.entry row.indexRef).rows := List.mem_filter.mpr ⟨listed, beq_self_eq_true _⟩
  obtain ⟨options, postings, read, stored, posted⟩ := (covered.sound k s here row.indexRef).covers row own
  exact ⟨options, postings, read, stored, fun table tabled v present upto text value key keyed =>
    stored_posted (posted v ⟨s, table, here, tabled, present⟩ upto text value key keyed)⟩

/-- A commit that puts the result of a script in place of the tables the script read:
    none was committed since, and the postings of live rows stay, but for a dropped index. -/
structure Replaces (host : LakeHost) (run next : LakeRun) (plan : Plan) (snapshot : Nat) (s b : Snapshot)
    (t : LakeTransaction) : Prop where
  read : run.lake.snapshots[snapshot]? = some s
  ran : runScript host run.lake snapshot run.lake.snapshots.length plan.statements = .ok t
  committed : next.lake = run.lake.append b
  result : b.index = t.view
  unchanged : ∀ (k : Nat) (a : Snapshot), snapshot ≤ k → run.lake.snapshots[k]? = some a → a.index = s.index
  kept : ∀ indexRef old, s.index.postings indexRef = some old → b.index.postings indexRef = none ∨
    ∃ new, b.index.postings indexRef = some new ∧
      ∀ v, Live run.lake snapshot v → ∀ key, Stored old key v.rowid → Stored new key v.rowid

theorem maintained_keeps {run : LakeRun} {origin : Lake} {expanded snapshot : Nat} {s latest b : Snapshot}
    (reports : ReportsInsertions host) (held : Sound host run) (covered : Covered host run)
    (by_script : MaintainedBy host run.lake origin expanded snapshot s latest b) (indexRef : String)
    {old : List PostingRow} (stored : s.index.postings indexRef = some old) :
    b.index.postings indexRef = none ∨ ∃ new, b.index.postings indexRef = some new ∧
      ∀ v, Live run.lake snapshot v → ∀ key, Stored old key v.rowid → Stored new key v.rowid := by
  rcases by_script.changes indexRef with kept | change
  · refine Or.inr ⟨old, ?_, fun _ _ _ posted => posted⟩
    exact (congrArg IndexEntry.postings kept).trans stored
  · refine (entry_changed reports covered.only by_script.earlier by_script.inside by_script.order by_script.here
      (held.entries snapshot s by_script.here indexRef) (covered.sound snapshot s by_script.here indexRef)
      (fun p there => ?_) change).keeps old stored
    exact covered.advances expanded snapshot p s by_script.order (prefix_at by_script.earlier there)
      by_script.here indexRef

theorem check_fails {lake : Lake} {snapshot : Nat} {s : Snapshot} (here : lake.snapshots[snapshot]? = some s)
    {front rest : List LakeStatement} {condition : LakeCheck} {message : String} {t : LakeTransaction}
    (ran : front.foldlM (runStatement host lake snapshot lake.snapshots.length s) ⟨s.index, [], []⟩ = .ok t)
    (fails : condition.holds host t.view = false) :
    runScript host lake snapshot lake.snapshots.length (front ++ .check condition message :: rest) =
      .error message := by
  simp only [runScript, here, List.foldlM_append, List.foldlM_cons]
  refine (bind_of_ok ran).trans ?_
  simp only [runStatement, fails, Bool.false_eq_true, if_false]
  rfl

theorem lock_fails {tables : IndexTables} {condition : LakeCheck} (unlocked : lockCheck tables = false) :
    condition.holds host tables = false := by
  by_contra holds
  rw [holds_lock (Bool.not_eq_false _ ▸ holds)] at unlocked
  cases unlocked

/-- Two compactions and a refresh that cross: the first compaction finds another covered
    snapshot, of the other two the later one is refused. -/
def crossedMaintenance : List LakeEvent :=
  [.commit [.create ["body"] [[("body", "abcd")], [("body", "cdef")]]] false ⟨1, [], []⟩,
    .expand 1 false (.create "body" "r" trigrams 2),
    .execute 0 1 ⟨1, [], []⟩,
    .commit [.write ⟨[1], [(0, [("body", "bcde")])], [[("body", "bcdx")]]⟩] false ⟨0, [], []⟩,
    .expand 3 false (.compact "" true fun _ => 1),
    .expand 3 false (.refresh "" fun _ => 1),
    .execute 1 3 ⟨0, [], []⟩,
    .execute 0 4 ⟨0, [], []⟩,
    .expand 4 false (.compact "" true fun _ => 2),
    .expand 4 false (.compact "" false fun _ => 1),
    .execute 0 4 ⟨0, [], []⟩,
    .execute 0 4 ⟨0, [], []⟩]

theorem asciiHost_reports : ReportsInsertions asciiHost := by
  intro lake first last rows read _ v after upto live
  simp only [asciiHost, insertedBetween] at read
  split at read
  · cases read
  · obtain rfl := Option.some.inj read
    obtain ⟨s, t, here, tabled, listed⟩ := live
    refine List.mem_flatMap.mpr ⟨v.snapshotId, List.mem_range'_1.mpr (by omega), ?_⟩
    simpa [here, tabled] using listed

end Runs
end NgramLake
