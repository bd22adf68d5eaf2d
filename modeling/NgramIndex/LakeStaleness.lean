import NgramIndex.LakeFence
import NgramIndex.GramSuperset
import Mathlib.Data.Int.Interval

/- Whether an index still describes its table. A registry row records a schema
   version; while it is the reader's, nothing touched the table since the covered
   snapshot, and otherwise the change lists of all snapshots after it are read. -/
namespace NgramLake
open LabelledRun Fallible NgramGram NgramIndexRegistry

/-- No commit after one snapshot and up to another altered or dropped the table. -/
def Untouched (lake : Lake) (tableId covered : Int) (snapshot : Nat) : Prop :=
  ∀ (k : Nat) (s : Snapshot), covered < k → k ≤ snapshot → lake.snapshots[k]? = some s →
    ∀ touched ∈ s.touched, (touched : Int) ≠ tableId

section Reading

structure ReadFrom (row : LakeRegistryRow) (index : LakeIndex) : Prop where
  indexRef : index.indexRef = row.indexRef
  columnName : index.columnName = row.columnName
  tableId : index.tableId = row.tableId
  covered : index.coveredSnapshot = row.coveredSnapshot
  version : index.schemaVersion = (row.schemaVersion.map Int.ofNat).getD (-1)
  options : readGramOptions row = .ok index.options

theorem unreadable_error (e : String) : "unreadable gram options: " ++ e ≠ "" := by
  intro same
  have := congrArg String.length same
  simp [String.length_append] at this

theorem readIndexRow_from {row : LakeRegistryRow} (readable : (readIndexRow row).error = "") :
    ReadFrom row (readIndexRow row) := by
  unfold readIndexRow at readable ⊢
  dsimp only at readable ⊢
  split at readable
  next =>
    have := congrArg String.length readable
    simp [String.length_append] at this
  next known =>
    rw [if_neg known]
    cases options : readGramOptions row with
    | error e =>
      rw [options] at readable
      exact absurd readable (unreadable_error e)
    | ok read => exact ⟨rfl, rfl, rfl, rfl, rfl, options⟩

/-- The three ways in which an index passes the check. -/
theorem fresh_cases {lake : Lake} {snapshot : Nat} {index : LakeIndex}
    (fresh : lakeStaleReason lake snapshot index = "") :
    index.error = "" ∧ index.coveredSnapshot ≤ snapshot ∧
      (0 ≤ index.schemaVersion ∧ index.schemaVersion = lake.schemaVersionAt snapshot ∨
        (∀ entry ∈ historyAfter lake index.coveredSnapshot snapshot, entry.2.names index.tableId = false) ∧
          ((historyAfter lake index.coveredSnapshot snapshot).length : Int) =
            snapshot - index.coveredSnapshot) := by
  unfold lakeStaleReason at fresh
  split at fresh
  next failed => exact absurd fresh failed
  next readable =>
    refine ⟨not_not.mp readable, ?_⟩
    split at fresh
    next => exact absurd fresh (by decide)
    next reached =>
      refine ⟨by omega, ?_⟩
      split at fresh
      next same => exact Or.inl ⟨same.1, same.2⟩
      next =>
        dsimp only at fresh
        split at fresh
        next => exact absurd fresh (by decide)
        next unnamed =>
          split at fresh
          next => exact absurd fresh (by decide)
          next counted =>
            refine Or.inr ⟨fun entry listed => ?_, not_not.mp counted⟩
            by_contra named
            exact unnamed (List.any_eq_true.mpr ⟨entry, listed, Bool.not_eq_false _ ▸ named⟩)

theorem listed_iff {lake : Lake} {k : Nat} {s : Snapshot} :
    (k, s) ∈ lake.listed ↔ lake.snapshots[k]? = some s ∧ k ∉ lake.expired := by
  simp [Lake.listed, List.mem_zipIdx_iff_getElem?]

theorem listed_keys (lake : Lake) : (lake.listed.map Prod.fst).Nodup := by
  have ids : (lake.snapshots.zipIdx.map Prod.swap).map Prod.fst = List.range lake.snapshots.length := by
    rw [List.map_map, List.range_eq_range']
    exact List.zipIdx_map_snd 0 lake.snapshots
  have sub : (lake.listed.map Prod.fst).Sublist ((lake.snapshots.zipIdx.map Prod.swap).map Prod.fst) :=
    List.filter_sublist.map _
  exact (ids ▸ List.nodup_range).sublist sub

/-- As many listed snapshots as there are ids after the covered one: none expired. -/
theorem history_full {lake : Lake} {covered : Int} {snapshot : Nat}
    (full : ((historyAfter lake covered snapshot).length : Int) = snapshot - covered) {k : Nat}
    (after : covered < k) (upto : k ≤ snapshot) : k ∉ lake.expired := by
  let ids : List Int := (historyAfter lake covered snapshot).map fun entry => (entry.1 : Int)
  have apart : ids.Nodup := by
    have cast : ids = ((historyAfter lake covered snapshot).map Prod.fst).map Nat.cast := by simp [ids]
    rw [cast]
    exact ((listed_keys lake).sublist (List.filter_sublist.map _)).map Nat.cast_injective
  have within : ids.toFinset ⊆ Finset.Ioc covered (snapshot : Int) := by
    intro id listed
    obtain ⟨entry, present, rfl⟩ := List.mem_map.mp (List.mem_toFinset.mp listed)
    have bounds := of_decide_eq_true (List.mem_filter.mp present).2
    exact Finset.mem_Ioc.mpr ⟨bounds.1, by exact_mod_cast bounds.2⟩
  have many : (Finset.Ioc covered (snapshot : Int)).card ≤ ids.toFinset.card := by
    rw [List.toFinset_card_of_nodup apart, Int.card_Ioc, List.length_map]
    omega
  have all := Finset.eq_of_subset_of_card_le within many
  have here : (k : Int) ∈ ids.toFinset := by
    rw [all]
    exact Finset.mem_Ioc.mpr ⟨after, by exact_mod_cast upto⟩
  obtain ⟨⟨id, s⟩, present, same⟩ := List.mem_map.mp (List.mem_toFinset.mp here)
  obtain rfl : id = k := by exact_mod_cast same
  exact (listed_iff.mp (List.mem_filter.mp present).1).2

end Reading

section Versions

/-- Schema versions never decrease, and a commit that touched a table raised the
    version and names the table. -/
structure VersionsRise (lake : Lake) : Prop where
  steps : ∀ (k : Nat) (a b : Snapshot), lake.snapshots[k]? = some a → lake.snapshots[k + 1]? = some b →
    a.schemaVersion ≤ b.schemaVersion ∧ (b.touched ≠ [] → a.schemaVersion < b.schemaVersion)
  named : ∀ (k : Nat) (s : Snapshot), lake.snapshots[k]? = some s →
    ∀ tableId ∈ s.touched, s.names tableId = true

theorem version_at {lake : Lake} {k : Nat} {s : Snapshot} (here : lake.snapshots[k]? = some s) :
    lake.schemaVersionAt k = s.schemaVersion := by
  simp [Lake.schemaVersionAt, here]

theorem versions_mono {lake : Lake} (rise : VersionsRise lake) {i j : Nat} (order : i ≤ j)
    (inside : j < lake.snapshots.length) : lake.schemaVersionAt i ≤ lake.schemaVersionAt j := by
  induction j, order using Nat.le_induction with
  | base => exact Nat.le_refl _
  | succ j order ih =>
    have before : lake.snapshots[j]? = some lake.snapshots[j] := List.getElem?_eq_getElem (by omega)
    have after : lake.snapshots[j + 1]? = some lake.snapshots[j + 1] := List.getElem?_eq_getElem inside
    have rises := (rise.steps j _ _ before after).1
    have lower := ih (by omega)
    rw [version_at before] at lower
    rw [version_at after]
    omega

theorem same_version {lake : Lake} (rise : VersionsRise lake) {i j : Nat} (inside : j < lake.snapshots.length)
    (same : lake.schemaVersionAt i = lake.schemaVersionAt j) {k : Nat} {s : Snapshot} (after : i < k)
    (upto : k ≤ j) (here : lake.snapshots[k]? = some s) : s.touched = [] := by
  by_contra touches
  obtain ⟨p, rfl⟩ : ∃ p, k = p + 1 := ⟨k - 1, by omega⟩
  have before : lake.snapshots[p]? = some lake.snapshots[p] := List.getElem?_eq_getElem (by omega)
  have raised := (rise.steps p _ _ before here).2 touches
  have lower := versions_mono rise (show i ≤ p by omega) (by omega)
  have upper := versions_mono rise upto inside
  rw [version_at before] at lower
  rw [version_at here] at upper
  omega

theorem untouched_same {lake : Lake} (rise : VersionsRise lake) {i j : Nat} (inside : j < lake.snapshots.length)
    (same : lake.schemaVersionAt i = lake.schemaVersionAt j) {tableId covered : Int}
    (before : Untouched lake tableId covered i) : Untouched lake tableId covered j := by
  intro k s after upto here
  by_cases early : k ≤ i
  · exact before k s after early here
  · rw [same_version rise inside same (by omega) upto here]
    simp

theorem untouched_none (lake : Lake) (tableId : Int) (k : Nat) : Untouched lake tableId k k := by
  intro j s after upto
  omega

theorem unchanged_touched {number : Nat} {changes : List TableChange}
    (rows_only : changes.any TableChange.ofSchema = false) {s t : TableState}
    (run : changeTables number s changes = some t) : t.touched = s.touched := by
  induction changes generalizing s with
  | nil =>
    obtain rfl := Option.some.inj run
    rfl
  | cons change rest ih =>
    simp only [List.any_cons, Bool.or_eq_false_iff] at rows_only
    obtain ⟨u, first, others⟩ := Option.bind_eq_some_iff.mp ((List.foldlM_cons ..).symm.trans run)
    refine (ih rows_only.2 others).trans ?_
    cases change with
    | create columns inserts => simp [TableChange.ofSchema] at rows_only
    | alter columns texts => simp [TableChange.ofSchema] at rows_only
    | remove => simp [TableChange.ofSchema] at rows_only
    | write changes =>
      obtain ⟨table, _, rfl⟩ := Option.map_eq_some_iff.mp first
      rfl

end Versions

section Recorded

structure Described (lake : Lake) (k : Nat) (row : LakeRegistryRow) : Prop where
  recorded : ∀ version, row.schemaVersion = some version → version ≤ lake.schemaVersionAt k
  untouched : row.schemaVersion = some (lake.schemaVersionAt k) →
    Untouched lake row.tableId row.coveredSnapshot k

theorem fresh_untouched {lake : Lake} {snapshot : Nat} {row : LakeRegistryRow}
    (named : ∀ (k : Nat) (s : Snapshot), lake.snapshots[k]? = some s →
      ∀ tableId ∈ s.touched, s.names tableId = true)
    (described : Described lake snapshot row)
    (fresh : lakeStaleReason lake snapshot (readIndexRow row) = "") :
    row.coveredSnapshot ≤ snapshot ∧ Untouched lake row.tableId row.coveredSnapshot snapshot := by
  obtain ⟨readable, reached, passed⟩ := fresh_cases fresh
  obtain ⟨_, _, tableId_eq, covered_eq, version_eq, _⟩ := readIndexRow_from readable
  rw [covered_eq] at reached passed
  refine ⟨by exact_mod_cast reached, ?_⟩
  rcases passed with ⟨known, same⟩ | ⟨unnamed, counted⟩
  · refine described.untouched ?_
    rw [version_eq] at known same
    cases recorded : row.schemaVersion with
    | none => simp [recorded] at known
    | some version =>
      simp only [recorded, Option.map_some, Option.getD_some, Int.ofNat_eq_natCast] at same
      rw [Int.ofNat_inj.mp same]
  · intro k s after upto here touched listed same
    have present : (k, s) ∈ historyAfter lake row.coveredSnapshot snapshot :=
      List.mem_filter.mpr ⟨listed_iff.mpr ⟨here, history_full counted after upto⟩, decide_eq_true ⟨after, upto⟩⟩
    have not_named := unnamed _ present
    rw [tableId_eq, ← same, named k s here touched listed] at not_named
    cases not_named

theorem version_earlier {a b : Lake} (longer : a.snapshots <+: b.snapshots) {k : Nat}
    (inside : k < a.snapshots.length) : a.schemaVersionAt k = b.schemaVersionAt k := by
  have here : a.snapshots[k]? = some a.snapshots[k] := List.getElem?_eq_getElem inside
  rw [version_at here, version_at (prefix_at longer here)]

theorem described_earlier {a b : Lake} (longer : a.snapshots <+: b.snapshots) {k : Nat}
    (inside : k < a.snapshots.length) {row : LakeRegistryRow} (described : Described b k row) :
    Described a k row := by
  have same := version_earlier longer inside
  refine ⟨?_, fun recorded j s after upto here => ?_⟩
  · rw [same]
    exact described.recorded
  · exact described.untouched (same ▸ recorded) j s after upto (prefix_at longer here)

theorem untouched_later {a b : Lake} (longer : a.snapshots <+: b.snapshots) {k : Nat}
    (inside : k < a.snapshots.length) {tableId covered : Int} (untouched : Untouched a tableId covered k) :
    Untouched b tableId covered k := by
  intro j s after upto here
  exact untouched j s after upto (earlier_at longer (by omega) here)

theorem described_later {a b : Lake} (longer : a.snapshots <+: b.snapshots) {k : Nat}
    (inside : k < a.snapshots.length) {row : LakeRegistryRow} (described : Described a k row) :
    Described b k row := by
  have same := version_earlier longer inside
  refine ⟨?_, fun recorded => untouched_later longer inside (described.untouched (same ▸ recorded))⟩
  rw [← same]
  exact described.recorded

/-- A row that a commit leaves in place is described at the new snapshot too. -/
theorem described_kept {lake : Lake} (rise : VersionsRise lake) {i j : Nat} (order : i ≤ j)
    (inside : j < lake.snapshots.length) {row : LakeRegistryRow} (described : Described lake i row) :
    Described lake j row := by
  have mono := versions_mono rise order inside
  refine ⟨fun version recorded => (described.recorded version recorded).trans mono, fun recorded => ?_⟩
  have same : lake.schemaVersionAt i = lake.schemaVersionAt j :=
    Nat.le_antisymm mono (described.recorded _ recorded)
  exact untouched_same rise inside same (described.untouched (same ▸ recorded))

theorem described_at {lake : Lake} (rise : VersionsRise lake) {i j : Nat} (order : i ≤ j)
    (inside : j < lake.snapshots.length) {row : LakeRegistryRow}
    (recorded : row.schemaVersion = some (lake.schemaVersionAt i))
    (untouched : Untouched lake row.tableId row.coveredSnapshot i) : Described lake j row := by
  refine described_kept rise order inside ⟨fun version same => ?_, fun _ => untouched⟩
  rw [recorded] at same
  exact (Option.some.inj same).symm.le

/-- A new index records the version after the one it read, and its commit raises the
    version once more. -/
theorem described_created {lake : Lake} (rise : VersionsRise lake) {i j : Nat} (order : i ≤ j)
    (inside : j + 1 < lake.snapshots.length)
    (raised : lake.schemaVersionAt j < lake.schemaVersionAt (j + 1))
    (untouched : ∀ s, lake.snapshots[j + 1]? = some s → s.touched = []) {row : LakeRegistryRow}
    (covered : row.coveredSnapshot = i)
    (recorded : ∀ version, row.schemaVersion = some version → version = lake.schemaVersionAt i + 1) :
    Described lake (j + 1) row := by
  have mono := versions_mono rise order (by omega)
  refine ⟨fun version same => ?_, fun same => ?_⟩
  · have := recorded version same
    omega
  · have level : lake.schemaVersionAt i = lake.schemaVersionAt j := by
      have := recorded _ same
      omega
    rw [covered]
    intro k s after upto here
    by_cases last : k = j + 1
    · subst last
      rw [untouched s here]
      simp
    · exact untouched_same rise (by omega) level (untouched_none lake _ i) k s after (by omega) here

structure Recorded (run : LakeRun) : Prop where
  rise : VersionsRise run.lake
  described : ∀ (k : Nat) (s : Snapshot), run.lake.snapshots[k]? = some s →
    ∀ row ∈ s.index.rows, Described run.lake k row

theorem rise_append {lake : Lake} {latest b : Snapshot} (rise : VersionsRise lake)
    (last : lake.snapshots.getLast? = some latest) (version : latest.schemaVersion ≤ b.schemaVersion)
    (raised : b.touched ≠ [] → latest.schemaVersion < b.schemaVersion)
    (named : ∀ tableId ∈ b.touched, b.names tableId = true) : VersionsRise (lake.append b) := by
  refine ⟨fun k x y here next => ?_, fun k s here => ?_⟩
  · rcases append_pair last here next with ⟨before, after⟩ | ⟨_, rfl, rfl⟩
    · exact rise.steps k x y before after
    · exact ⟨version, raised⟩
  · rcases append_cases here with before | ⟨_, rfl⟩
    · exact rise.named k s before
    · exact named

theorem recorded_append {run : LakeRun} {b : Snapshot} {pending : List Plan} (recorded : Recorded run)
    (rise : VersionsRise (run.lake.append b)) (rows : ∀ row ∈ b.index.rows,
      Described (run.lake.append b) run.lake.snapshots.length row) :
    Recorded ⟨run.lake.append b, pending⟩ := by
  refine ⟨rise, fun k s here row listed => ?_⟩
  rcases append_cases here with before | ⟨rfl, rfl⟩
  · obtain ⟨inside, _⟩ := List.getElem?_eq_some_iff.mp before
    exact @described_later run.lake (run.lake.append b) (List.prefix_append _ _) k inside row
      (recorded.described k s before row listed)
  · exact rows row listed

theorem planned_untouched {host : LakeHost} {run : LakeRun} {origin : Lake} {expanded : Nat} {index : LakeIndex}
    (recorded : Recorded run) (earlier : origin.snapshots <+: run.lake.snapshots)
    (inside : expanded < origin.snapshots.length) (planned : Planned host origin expanded index) :
    ∃ row, ReadFrom row index ∧ row.coveredSnapshot ≤ expanded ∧
      Untouched run.lake row.tableId row.coveredSnapshot expanded := by
  obtain ⟨⟨s, row, here, listed, rfl⟩, fresh⟩ := planned
  have described := recorded.described expanded s (prefix_at earlier here) row listed
  obtain ⟨reached, untouched⟩ := fresh_untouched
    (fun k t there => recorded.rise.named k t (prefix_at earlier there))
    (described_earlier earlier inside described) fresh
  exact ⟨row, readIndexRow_from (fresh_cases fresh).1, reached, untouched_later earlier inside untouched⟩

theorem recorded_maintained {host : LakeHost} {run : LakeRun} {pending : List Plan} {origin : Lake}
    {expanded snapshot : Nat} {s latest b : Snapshot} (recorded : Recorded run)
    (last : run.lake.snapshots.getLast? = some latest)
    (by_script : MaintainedBy host run.lake origin expanded snapshot s latest b) :
    Recorded ⟨run.lake.append b, pending⟩ := by
  have longer : run.lake.snapshots <+: (run.lake.append b).snapshots := List.prefix_append _ _
  have rise : VersionsRise (run.lake.append b) := rise_append recorded.rise last by_script.version
    (fun touches => absurd by_script.untouched touches) (by simp [by_script.untouched])
  obtain ⟨some_snapshot, there⟩ := last_at last
  have order := by_script.order
  obtain ⟨read, _⟩ := List.getElem?_eq_some_iff.mp by_script.here
  obtain ⟨size, size_eq⟩ : ∃ size, run.lake.snapshots.length = size + 1 :=
    ⟨run.lake.snapshots.length - 1, by omega⟩
  have length_eq : (run.lake.append b).snapshots.length = run.lake.snapshots.length + 1 := by simp [Lake.append]
  have newest : (run.lake.append b).snapshots[run.lake.snapshots.length]? = some b := by simp [Lake.append]
  refine recorded_append recorded rise fun row listed => ?_
  have same_index : latest.index = s.index := by_script.unchanged _ latest (by omega) there
  have kept (present : row ∈ (s.index.entry row.indexRef).rows) :
      Described (run.lake.append b) run.lake.snapshots.length row := by
    refine described_kept rise (Nat.sub_le _ 1) (by omega) ?_
    refine described_later longer (by omega) (recorded.described _ latest there row ?_)
    rw [same_index]
    exact (List.mem_filter.mp present).1
  have own : row ∈ (b.index.entry row.indexRef).rows := List.mem_filter.mpr ⟨listed, beq_self_eq_true _⟩
  have expanded_version := version_earlier (by_script.earlier.trans longer) by_script.inside
  rcases by_script.changes row.indexRef with unchanged | change
  · exact kept (unchanged ▸ own)
  · cases change with
    | refreshed index planned named checked behind rows appended =>
      rw [rows] at own
      obtain rfl := List.mem_singleton.mp own
      refine described_at rise (i := expanded) (by omega) (by omega) (congrArg some expanded_version) ?_
      exact untouched_none _ _ expanded
    | compacted index purge planned named checked rows repacked =>
      rw [rows] at own
      obtain rfl := List.mem_singleton.mp own
      obtain ⟨origin_row, from_row, _, untouched⟩ :=
        planned_untouched recorded by_script.earlier by_script.inside planned
      refine described_at rise (i := expanded) (by omega) (by omega) (congrArg some expanded_version) ?_
      have later := untouched_later longer (by omega) untouched
      simpa [maintainedRow, registryRow, from_row.tableId, from_row.covered] using later
    | created columnName options hi partitions tableId rows valid absent identified read inserted packed =>
      rw [inserted] at own
      rcases List.mem_append.mp own with before | new
      · exact kept before
      · have raised := by_script.raised ⟨row.indexRef, absent, by simp [packed]⟩
        obtain row_eq := List.mem_singleton.mp new
        rw [size_eq]
        rw [size_eq] at newest
        have before : (run.lake.append b).snapshots[size]? = some latest :=
          prefix_at longer (by simpa [size_eq] using there)
        refine described_created rise (i := snapshot) (by omega) (by omega) ?_ ?_ (by rw [row_eq]; rfl) ?_
        · rw [version_at before, version_at newest]
          exact raised
        · intro t here
          rw [← Option.some.inj (newest.symm.trans here)]
          exact by_script.untouched
        · intro version same
          rw [version_at (prefix_at longer by_script.here)]
          rw [row_eq] at same
          obtain ⟨listed_version, found, rfl⟩ := Option.map_eq_some_iff.mp same
          simp only [listedVersion] at found
          split at found
          · cases found
          · rw [by_script.here] at found
            rw [← Option.some.inj found]
    | dropped rows postings =>
      rw [rows] at own
      cases own

theorem recorded_step {host : LakeHost} {run next : LakeRun} {event : LakeEvent} (recorded : Recorded run)
    (change : LakeChange host run next event) : Recorded next := by
  obtain ⟨lake, pending⟩ := next
  cases change with
  | quiet same =>
    change lake.snapshots = run.lake.snapshots at same
    refine ⟨⟨?_, ?_⟩, fun k s here row listed => ?_⟩
    · simpa only [same] using recorded.rise.steps
    · simpa only [same] using recorded.rise.named
    · have before : run.lake.snapshots[k]? = some s := same ▸ here
      obtain ⟨inside, _⟩ := List.getElem?_eq_some_iff.mp before
      exact @described_later run.lake lake (same ▸ List.prefix_refl _) k inside row
        (recorded.described k s before row listed)
  | committed latest b last append by_client =>
    obtain rfl := append
    have rise : VersionsRise (run.lake.append b) := by
      refine rise_append recorded.rise last by_client.version (fun touches => by_client.raised ?_) by_client.named
      by_contra rows_only
      exact touches (unchanged_touched (Bool.eq_false_iff.mpr rows_only) by_client.tables)
    obtain ⟨some_snapshot, there⟩ := last_at last
    refine recorded_append recorded rise fun row listed => ?_
    refine described_kept rise (Nat.sub_le _ 1) (by simp [Lake.append]) ?_
    refine @described_later run.lake _ (List.prefix_append _ _) _ (by omega) row
      (recorded.described _ latest there row ?_)
    rw [← by_client.index]
    exact listed
  | maintained origin expanded snapshot s latest b last append by_script =>
    obtain rfl := append
    exact recorded_maintained recorded last by_script

theorem recorded_start : Recorded emptyLake := by
  refine ⟨⟨?_, ?_⟩, ?_⟩
  · intro k a b _ next
    simp [emptyLake] at next
  · intro k s here
    obtain ⟨_, rfl⟩ := emptyLake_only here
    simp [emptySnapshot]
  · intro k s here
    obtain ⟨_, rfl⟩ := emptyLake_only here
    simp [emptySnapshot, IndexTables.rows]

theorem lake_recorded {host : LakeHost} {events : List LakeEvent} {run : LakeRun}
    (reached : exec (lakeStep host) emptyLake events = some run) : Recorded run :=
  (@lake_invariant host Recorded (fun _ => True)
    (fun _ _ _ _ recorded _ _ change => recorded_step recorded change) _ _ (fun _ _ => trivial) reached
    recorded_start).2

/-- An index read at a snapshot passes the check only where it covers no later
    snapshot and nothing altered or dropped its table after the covered one; where
    the history has to be read, an expired snapshot of it is a reason. -/
theorem stale_check_sound {host : LakeHost} {events : List LakeEvent} {run : LakeRun}
    (reached : exec (lakeStep host) emptyLake events = some run) {snapshot : Nat} {ofTable : Bool}
    {indexes : List LakeIndex} (registry : readLakeRegistry host run.lake snapshot ofTable = .ok indexes)
    {index : LakeIndex} (listed : index ∈ indexes) :
    (lakeStaleReason run.lake snapshot index = "" → index.coveredSnapshot ≤ snapshot ∧
      Untouched run.lake index.tableId index.coveredSnapshot snapshot) ∧
    (¬ (0 ≤ index.schemaVersion ∧ index.schemaVersion = run.lake.schemaVersionAt snapshot) →
      ∀ k : Nat, index.coveredSnapshot < k → k ≤ snapshot → k ∈ run.lake.expired →
        lakeStaleReason run.lake snapshot index ≠ "") := by
  refine ⟨fun fresh => ?_, fun needed k after upto gone fresh => ?_⟩
  · have recorded := lake_recorded reached
    obtain ⟨s, row, here, stored, rfl⟩ := (readLakeRegistry_ok registry).1 index listed
    have from_row := readIndexRow_from (fresh_cases fresh).1
    obtain ⟨upto, untouched⟩ := fresh_untouched recorded.rise.named
      (recorded.described snapshot s here row stored) fresh
    rw [from_row.covered, from_row.tableId]
    exact ⟨by exact_mod_cast upto, untouched⟩
  · obtain ⟨_, _, same | ⟨_, counted⟩⟩ := fresh_cases fresh
    · exact needed same
    · exact history_full counted after upto gone

/-- Names as SQL's lower() folds them when they are ASCII. -/
def asciiLower (text : String) : String := String.ofList (text.toList.map Char.toLower)

/-- The versions that the snapshots of a range inserted, unless one was expired. -/
def insertedBetween (lake : Lake) (first last : Nat) : Option (List RowVersion) :=
  let range := List.range' first (last + 1 - first)
  if range.any fun k => decide (k ∈ lake.expired ∨ lake.snapshots.length ≤ k) then none
  else some (range.flatMap fun k => (((lake.snapshots[k]?.bind Snapshot.table).map LakeTable.rows).getD []).filter
    fun v => v.snapshotId == k)

def asciiHost : LakeHost where
  sqlLower := asciiLower
  gramKeys := storedKeys Char.toNat ⟨0xFFFFFFFFFFFFFFFF, 0xFFFFFFFFFFFFFFFF⟩
  insertions := insertedBetween
  catalogName := "lake"
  target := ⟨"main", "logs"⟩

def trigrams : GramOptions := ⟨.ngram, 3, 3, true⟩

/-- A refresh that commits after another client's schema change. -/
def overtakenRefresh : List LakeEvent :=
  [.commit [.create ["body"] [[("body", "abcd")]]] false ⟨1, [], []⟩,
    .expand 1 false (.create "body" "r" trigrams 1),
    .execute 0 1 ⟨1, [], []⟩,
    .commit [.write ⟨[], [(0, [("body", "bcde")])], [[("body", "cdef")]]⟩] false ⟨0, [], []⟩,
    .expand 3 false (.refresh "" fun _ => 1),
    .commit [] false ⟨1, [], []⟩,
    .execute 0 4 ⟨0, [], []⟩]

def coveredThird : LakeIndex :=
  ⟨"r", "main", "logs", "body", 1, 1, trigrams, 3, 2, ""⟩

theorem overtaken_refresh_fresh :
    (∃ run, exec (lakeStep asciiHost) emptyLake overtakenRefresh = some run ∧
      lakeStaleReason run.lake 5 coveredThird = "" ∧ coveredThird.coveredSnapshot ≤ 5 ∧
      Untouched run.lake coveredThird.tableId coveredThird.coveredSnapshot 5) ∧
    ∃ run, exec (lakeStep asciiHost) emptyLake (overtakenRefresh ++ [.expire [4]]) = some run ∧
      lakeStaleReason run.lake 5 coveredThird ≠ "" := by
  constructor
  · obtain ⟨run, reached⟩ := Option.isSome_iff_exists.mp
      (by decide +kernel : (exec (lakeStep asciiHost) emptyLake overtakenRefresh).isSome)
    have read : (exec (lakeStep asciiHost) emptyLake overtakenRefresh).all fun run => decide
        (readLakeRegistry asciiHost run.lake 5 true = .ok [coveredThird] ∧
          lakeStaleReason run.lake 5 coveredThird = "") := by decide +kernel
    rw [reached] at read
    obtain ⟨registry, fresh⟩ := of_decide_eq_true read
    exact ⟨run, reached, fresh, (stale_check_sound reached registry List.mem_cons_self).1 fresh⟩
  · obtain ⟨run, reached⟩ := Option.isSome_iff_exists.mp
      (by decide +kernel : (exec (lakeStep asciiHost) emptyLake (overtakenRefresh ++ [.expire [4]])).isSome)
    have read : (exec (lakeStep asciiHost) emptyLake (overtakenRefresh ++ [.expire [4]])).all fun run => decide
        (readLakeRegistry asciiHost run.lake 5 true = .ok [coveredThird] ∧
          coveredThird.schemaVersion ≠ run.lake.schemaVersionAt 5 ∧ 4 ∈ run.lake.expired) := by decide +kernel
    rw [reached] at read
    obtain ⟨registry, other, gone⟩ := of_decide_eq_true read
    exact ⟨run, reached, (stale_check_sound reached registry List.mem_cons_self).2 (fun same => other same.2)
      4 (by decide) (by decide) gone⟩

end Recorded
end NgramLake
