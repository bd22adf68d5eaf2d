import NgramIndex.LakeRuns

/- What a committed script did to each index: its registry row and its postings.
   Scripts are read backwards, block by block, from the statements they ran. -/
namespace NgramLake
open LabelledRun Fallible NgramGram NgramProbe NgramIndexRegistry NgramMaintenance

/-- What the __ngram tables hold of one index. -/
structure IndexEntry where
  rows : List LakeRegistryRow
  postings : Option (List PostingRow)
  deriving DecidableEq

def IndexTables.entry (tables : IndexTables) (indexRef : String) : IndexEntry where
  rows := tables.rows.filter fun row => row.indexRef == indexRef
  postings := tables.postings indexRef

theorem lookup_map_other {segments : List (String × List PostingRow)}
    {f : List PostingRow → List PostingRow} {indexRef other : String} (apart : other ≠ indexRef) :
    (segments.map fun entry => if entry.1 = indexRef then (entry.1, f entry.2) else entry).lookup other =
      segments.lookup other := by
  induction segments with
  | nil => rfl
  | cons entry rest ih =>
    obtain ⟨name, rows⟩ := entry
    by_cases same : name = indexRef
    · subst same
      simp [List.lookup_cons, beq_eq_false_iff_ne.mpr apart, ih]
    · simp [List.lookup_cons, same, ih]

theorem lookup_map_own {segments : List (String × List PostingRow)}
    {f : List PostingRow → List PostingRow} {indexRef : String} :
    (segments.map fun entry => if entry.1 = indexRef then (entry.1, f entry.2) else entry).lookup indexRef =
      (segments.lookup indexRef).map f := by
  induction segments with
  | nil => rfl
  | cons entry rest ih =>
    obtain ⟨name, rows⟩ := entry
    by_cases same : name = indexRef
    · subst same
      simp
    · simp [List.lookup_cons, same, ih, beq_eq_false_iff_ne.mpr (Ne.symm same)]

theorem lookup_filter_other {segments : List (String × List PostingRow)} {indexRef other : String}
    (apart : other ≠ indexRef) :
    (segments.filter fun entry => entry.1 != indexRef).lookup other = segments.lookup other := by
  induction segments with
  | nil => rfl
  | cons entry rest ih =>
    obtain ⟨name, rows⟩ := entry
    by_cases same : name = indexRef
    · subst same
      simp [List.lookup_cons, beq_eq_false_iff_ne.mpr apart, ih]
    · simp [List.lookup_cons, same, ih]

theorem lookup_filter_own {segments : List (String × List PostingRow)} {indexRef : String} :
    (segments.filter fun entry => entry.1 != indexRef).lookup indexRef = none := by
  induction segments with
  | nil => rfl
  | cons entry rest ih =>
    obtain ⟨name, rows⟩ := entry
    by_cases same : name = indexRef
    · simp [same, ih]
    · simp [List.lookup_cons, same, ih, beq_eq_false_iff_ne.mpr (Ne.symm same)]

theorem entry_ext {a b : IndexTables} {indexRef : String}
    (rows : a.rows.filter (fun row => row.indexRef == indexRef) =
      b.rows.filter fun row => row.indexRef == indexRef)
    (postings : a.postings indexRef = b.postings indexRef) : a.entry indexRef = b.entry indexRef := by
  simp only [IndexTables.entry, rows, postings]

theorem present_writes {writes : List LakeWrite} {tables : IndexTables} (present : tables.registry ≠ none) :
    (applyWrites writes tables).registry ≠ none := by
  induction writes generalizing tables with
  | nil => exact present
  | cons write rest ih =>
    refine ih ?_
    cases write <;>
      simp [applyWrite, IndexTables.withRegistry, IndexTables.withPostings, present]

theorem applyWrites_append (a b : List LakeWrite) (tables : IndexTables) :
    applyWrites (a ++ b) tables = applyWrites b (applyWrites a tables) := List.foldl_append

theorem rows_deleteRows (tables : IndexTables) (rows : List LakeRegistryRow) :
    (applyWrite tables (.deleteRows rows)).rows = tables.rows.filter fun row => decide (row ∉ rows) := by
  cases registry : tables.registry <;>
    simp [applyWrite, IndexTables.withRegistry, IndexTables.rows, registry]

theorem rows_insertRow {tables : IndexTables} (present : tables.registry ≠ none) (row : LakeRegistryRow) :
    (applyWrite tables (.insertRow row)).rows = tables.rows ++ [row] := by
  cases registry : tables.registry with
  | none => exact absurd registry present
  | some r => simp [applyWrite, IndexTables.withRegistry, IndexTables.rows, registry]

theorem entry_locked (tables : IndexTables) (rowids : List Nat) (lock : Nat) (indexRef : String) :
    (applyWrites [.deleteLocks rowids, .insertLock lock] tables).entry indexRef = tables.entry indexRef := by
  refine entry_ext ?_ rfl
  cases registry : tables.registry <;>
    simp [applyWrites, applyWrite, IndexTables.withRegistry, IndexTables.rows, registry]

theorem entry_bootstrapped (tables : IndexTables) (lock : Nat) (writes : List LakeWrite)
    (each : ∀ w ∈ writes, w = .createRegistry ∨ w = .insertLock lock) (indexRef : String) :
    (applyWrites writes tables).entry indexRef = tables.entry indexRef := by
  induction writes generalizing tables with
  | nil => rfl
  | cons write rest ih =>
    obtain ⟨own, others⟩ := List.forall_mem_cons.mp each
    refine (ih _ others).trans (entry_ext ?_ ?_)
    · rcases own with rfl | rfl
      · cases registry : tables.registry <;>
          simp [applyWrite, IndexTables.rows, registry]
      · cases registry : tables.registry <;>
          simp [applyWrite, IndexTables.withRegistry, IndexTables.rows, registry]
    · rcases own with rfl | rfl
      · rfl
      · rfl

structure OnlyEntry (indexRef : String) (before after : IndexTables) : Prop where
  present : after.registry ≠ none
  others : ∀ other, other ≠ indexRef → after.entry other = before.entry other

theorem OnlyEntry.trans {indexRef : String} {a b c : IndexTables} (first : OnlyEntry indexRef a b)
    (second : OnlyEntry indexRef b c) : OnlyEntry indexRef a c :=
  ⟨second.present, fun other apart => (second.others other apart).trans (first.others other apart)⟩

theorem only_withPostings {tables : IndexTables} (present : tables.registry ≠ none) (indexRef : String)
    (f : List PostingRow → List PostingRow) : OnlyEntry indexRef tables (tables.withPostings indexRef f) :=
  ⟨present, fun _ apart => entry_ext rfl (lookup_map_other apart)⟩

theorem entry_withPostings (tables : IndexTables) (indexRef : String)
    (f : List PostingRow → List PostingRow) :
    (tables.withPostings indexRef f).entry indexRef =
      ⟨(tables.entry indexRef).rows, (tables.entry indexRef).postings.map f⟩ := by
  simp only [IndexTables.entry, IndexTables.postings, IndexTables.withPostings, lookup_map_own]
  rfl

theorem replaced_row {tables : IndexTables} (present : tables.registry ≠ none) (row : LakeRegistryRow) :
    let after := applyWrites [.deleteRows (tables.rows.filter fun r => r.indexRef == row.indexRef),
      .insertRow row] tables
    OnlyEntry row.indexRef tables after ∧
      after.entry row.indexRef = ⟨[row], (tables.entry row.indexRef).postings⟩ := by
  intro after
  let deleted := applyWrites [.deleteRows (tables.rows.filter fun r => r.indexRef == row.indexRef)] tables
  have here : deleted.registry ≠ none := present_writes present
  have rows_eq : after.rows = (tables.rows.filter fun r => r.indexRef != row.indexRef) ++ [row] := by
    refine (rows_insertRow here row).trans ?_
    refine congrArg (· ++ [row]) ((rows_deleteRows _ _).trans ?_)
    refine List.filter_congr fun r listed => ?_
    by_cases same : r.indexRef = row.indexRef
    · simp [listed, same]
    · simp [same]
  refine ⟨⟨present_writes present, fun other apart => entry_ext ?_ rfl⟩, ?_⟩
  · have none_added : [row].filter (fun r => r.indexRef == other) = [] := by simp [Ne.symm apart]
    rw [rows_eq, List.filter_append, List.filter_filter, none_added, List.append_nil]
    refine List.filter_congr fun r _ => ?_
    by_cases same : r.indexRef = other
    · simp [same, apart]
    · simp [same]
  · have own : after.rows.filter (fun r => r.indexRef == row.indexRef) = [row] := by
      rw [rows_eq, List.filter_append, List.filter_filter, List.filter_singleton]
      simp
    simp only [IndexTables.entry, own]
    rfl

section Statements
variable {host : LakeHost} {lake : Lake} {snapshot number : Nat} {s : Snapshot}

theorem run_pack {source : LakeSource} {columnName : String} {options : GramOptions}
    {ranges : List (Int × Int)} {t u : LakeTransaction}
    (run : runStatement host lake snapshot number s t (.pack source columnName options ranges) = .ok u) :
    ∃ rows, readSource host lake snapshot columnName source = .ok rows ∧
      u = { t with packed := packRanges (host.gramKeys options) (baseRows columnName rows) ranges } := by
  obtain ⟨rows, read, rest⟩ := bind_ok run
  exact ⟨rows, read, (ok_inj rest).symm⟩

theorem run_writePacked {indexRef : String} {asNewGeneration : Bool} {t u : LakeTransaction}
    (run : runStatement host lake snapshot number s t (.writePacked indexRef asNewGeneration) = .ok u)
    (present : t.view.registry ≠ none) :
    ∃ old generation, (asNewGeneration = false → generation = 0) ∧ (t.view.entry indexRef).postings = some old ∧
      OnlyEntry indexRef t.view u.view ∧ u.view.entry indexRef =
        ⟨(t.view.entry indexRef).rows, some (old ++ ofGeneration generation t.packed)⟩ := by
  simp only [runStatement] at run
  split at run
  · cases run
  next old found =>
    rw [← ok_inj run]
    let generation := if asNewGeneration then nextLakeGeneration old else 0
    let added (postings : List PostingRow) := postings ++ ofGeneration generation t.packed
    refine ⟨old, generation, fun merged => by simp [generation, merged], found,
      only_withPostings present indexRef added, ?_⟩
    refine (entry_withPostings t.view indexRef added).trans ?_
    rw [show (t.view.entry indexRef).postings = some old from found]
    rfl

theorem run_maintained {index : LakeIndex} {covered : Int} {schemaVersion : Nat} {t u : LakeTransaction}
    (run : [LakeStatement.deleteIndexRow index.indexRef, .insertMaintained index covered schemaVersion].foldlM
      (runStatement host lake snapshot number s) t = .ok u) (present : t.view.registry ≠ none) :
    OnlyEntry index.indexRef t.view u.view ∧ u.view.entry index.indexRef =
      ⟨[registryRow host.target index.indexRef index.columnName index.options index.tableId.toNat
        covered.toNat (some schemaVersion)], (t.view.entry index.indexRef).postings⟩ := by
  obtain ⟨a, deleting, run⟩ := foldlM_cons_ok run
  obtain ⟨b, inserting, run⟩ := foldlM_cons_ok run
  obtain rfl := ok_inj run
  obtain rfl := ok_inj deleting
  obtain rfl := ok_inj inserting
  exact replaced_row present (registryRow host.target index.indexRef index.columnName index.options
    index.tableId.toNat covered.toNat (some schemaVersion))

def purgeLive (purge : Bool) (s : Snapshot) : Option (List Nat) :=
  if purge then s.table.map fun table => table.rows.map RowVersion.rowid else none

theorem run_repack {indexRef : String} {ranges : List (Int × Int)} {purge : Bool} {t u : LakeTransaction}
    (run : runStatement host lake snapshot number s t (.repack indexRef ranges purge) = .ok u) :
    ∃ old parts, (t.view.entry indexRef).postings = some old ∧ (purge = true → s.table ≠ none) ∧
      ranges.mapM (repackRange old (purgeLive purge s)) = .ok parts ∧
      u = { t with packed := parts.flatten } := by
  simp only [runStatement] at run
  split at run
  · cases run
  next old found =>
    obtain ⟨live, run⟩ := check_ok run
    obtain ⟨parts, packed, rest⟩ := bind_ok run
    refine ⟨old, parts, found, ?_, packed, (ok_inj rest).symm⟩
    rintro rfl missing
    exact live ⟨rfl, by simp [missing]⟩

theorem run_deleteSegments {indexRef : String} {t u : LakeTransaction}
    (run : runStatement host lake snapshot number s t (.deleteSegments indexRef) = .ok u)
    (present : t.view.registry ≠ none) :
    OnlyEntry indexRef t.view u.view ∧ u.packed = t.packed ∧ u.view.entry indexRef =
      ⟨(t.view.entry indexRef).rows, some []⟩ := by
  simp only [runStatement] at run
  split at run
  · cases run
  next old found =>
    rw [← ok_inj run]
    let kept (postings : List PostingRow) := postings.filter fun row => decide (row ∉ old)
    refine ⟨only_withPostings present indexRef kept, rfl, ?_⟩
    refine (entry_withPostings t.view indexRef kept).trans ?_
    rw [show (t.view.entry indexRef).postings = some old from found]
    have none_kept : kept old = [] := List.filter_eq_nil_iff.mpr (by simp)
    simp [none_kept]

structure Planned (host : LakeHost) (origin : Lake) (expanded : Nat) (index : LakeIndex) : Prop where
  stored : ∃ s row, origin.snapshots[expanded]? = some s ∧ row ∈ s.index.rows ∧ readIndexRow row = index
  fresh : lakeStaleReason origin expanded index = ""

/-- Exactly one row of the index still covers what it did when it was planned. -/
def RowChecked (index : LakeIndex) (entry : IndexEntry) : Prop :=
  (entry.rows.filter fun row => (row.coveredSnapshot : Int) == index.coveredSnapshot).length = 1

def maintainedRow (host : LakeHost) (index : LakeIndex) (covered : Int) (schemaVersion : Nat) :
    LakeRegistryRow :=
  registryRow host.target index.indexRef index.columnName index.options index.tableId.toNat covered.toNat
    (some schemaVersion)

def FeedAppended (host : LakeHost) (origin lake : Lake) (expanded snapshot : Nat) (index : LakeIndex)
    (before after : IndexEntry) : Prop :=
  let feed := lakeTailSource host origin expanded index.coveredSnapshot
  readSource host origin expanded index.columnName feed = .ok [] ∧ after.postings = before.postings ∨
    ∃ planned rows old generation partitions,
      readSource host origin expanded index.columnName feed = .ok planned ∧
      readSource host lake snapshot index.columnName feed = .ok rows ∧
      before.postings = some old ∧ after.postings = some (old ++ ofGeneration generation
        (packRanges (host.gramKeys index.options) (baseRows index.columnName rows)
          (segmentAlignedRanges (lowestRowid planned) (highestRowid planned) partitions false)))

/-- What a compaction leaves: the postings packed again over the ranges that the
    expansion read off the segments table. -/
def Repacked (origin : Lake) (expanded : Nat) (s : Snapshot) (purge : Bool) (index : LakeIndex)
    (before after : IndexEntry) : Prop :=
  ∃ planned segments old parts partitions, origin.snapshots[expanded]? = some planned ∧
    planned.index.postings index.indexRef = some segments ∧ before.postings = some old ∧
    (purge = true → s.table ≠ none) ∧
    (segmentAlignedRanges ((((segments.map SegmentRow.segmentNo).min?).getD 0) * segmentRows)
      ((((segments.map SegmentRow.segmentNo).max?).getD (-1) + 1) * segmentRows - 1) partitions false).mapM
        (repackRange old (purgeLive purge s)) = .ok parts ∧
    after.postings = some (ofGeneration 0 parts.flatten)

/-- What one committed script did to the entry of one index. -/
inductive EntryChange (host : LakeHost) (origin lake : Lake) (expanded snapshot : Nat) (s : Snapshot)
    (indexRef : String) (before after : IndexEntry) : Prop
  | refreshed (index : LakeIndex) (planned : Planned host origin expanded index)
      (named : index.indexRef = indexRef) (checked : RowChecked index before)
      (behind : index.coveredSnapshot ≠ expanded)
      (rows : after.rows = [maintainedRow host index expanded (origin.schemaVersionAt expanded)])
      (appended : FeedAppended host origin lake expanded snapshot index before after)
  | compacted (index : LakeIndex) (purge : Bool) (planned : Planned host origin expanded index)
      (named : index.indexRef = indexRef) (checked : RowChecked index before)
      (rows : after.rows =
        [maintainedRow host index index.coveredSnapshot (origin.schemaVersionAt expanded)])
      (repacked : Repacked origin expanded s purge index before after)
  | created (columnName : String) (options : GramOptions) (hi : Int) (partitions tableId : Nat)
      (rows : List RowVersion) (valid : validateGramOptions options "create_ngram_index" = .ok ())
      (absent : before.postings = none) (identified : tableIdExpression host s = .ok tableId)
      (read : readSource host lake snapshot columnName .base = .ok rows)
      (inserted : after.rows = before.rows ++ [registryRow host.target indexRef columnName options tableId
        snapshot ((listedVersion lake snapshot).map (· + 1))])
      (packed : after.postings = some (ofGeneration 0 (packRanges (host.gramKeys options)
        (baseRows columnName rows) (lakeRanges 0 hi partitions))))
  | dropped (rows : after.rows = []) (postings : after.postings = none)

theorem refresh_block {origin : Lake} {expanded : Nat} {partitions : String → Nat} {index : LakeIndex}
    {body : List LakeStatement} (planned : Planned host origin expanded index)
    (expansion : refreshBody host origin expanded partitions index = .ok body) (some_statement : body ≠ [])
    {t u : LakeTransaction} (present : t.view.registry ≠ none)
    (checked : RowChecked index (t.view.entry index.indexRef))
    (run : body.foldlM (runStatement host lake snapshot number s) t = .ok u) :
    OnlyEntry index.indexRef t.view u.view ∧ EntryChange host origin lake expanded snapshot s index.indexRef
      (t.view.entry index.indexRef) (u.view.entry index.indexRef) := by
  rcases branch_ok expansion with ⟨_, nothing⟩ | ⟨behind, expansion⟩
  · exact absurd (ok_inj nothing).symm some_statement
  · obtain ⟨rows, sized, expansion⟩ := bind_ok expansion
    obtain rfl := ok_inj expansion
    obtain ⟨a, packing, tail⟩ := foldlM_append_ok run
    by_cases empty : rows = []
    · subst empty
      obtain rfl : t = a := ok_inj packing
      obtain ⟨only, entry⟩ := run_maintained tail present
      exact ⟨only, .refreshed index planned rfl checked behind (by rw [entry]; rfl)
        (Or.inl ⟨sized, by rw [entry]⟩)⟩
    · rw [if_neg empty] at packing
      obtain ⟨b, pack, packing⟩ := foldlM_cons_ok packing
      obtain ⟨c, writing, packing⟩ := foldlM_cons_ok packing
      obtain rfl := ok_inj packing
      obtain ⟨read, feed, rfl⟩ := run_pack pack
      obtain ⟨old, generation, _, found, wrote, entry⟩ := run_writePacked writing present
      obtain ⟨only, last⟩ := run_maintained tail wrote.present
      refine ⟨wrote.trans only, .refreshed index planned rfl checked behind (by rw [last]; rfl) (Or.inr ?_)⟩
      refine ⟨rows, read, old, generation, partitions index.indexRef, sized, feed, found, ?_⟩
      rw [last]
      exact congrArg IndexEntry.postings entry

theorem compact_block {origin : Lake} {expanded : Nat} {purge : Bool} {partitions : String → Nat}
    {index : LakeIndex} {body : List LakeStatement} (planned : Planned host origin expanded index)
    (expansion : compactBody origin expanded purge partitions index = .ok body) (some_statement : body ≠ [])
    {t u : LakeTransaction} (present : t.view.registry ≠ none)
    (checked : RowChecked index (t.view.entry index.indexRef))
    (run : body.foldlM (runStatement host lake snapshot number s) t = .ok u) :
    OnlyEntry index.indexRef t.view u.view ∧ EntryChange host origin lake expanded snapshot s index.indexRef
      (t.view.entry index.indexRef) (u.view.entry index.indexRef) := by
  obtain ⟨then_snapshot, read, expansion⟩ := bind_ok expansion
  have here : origin.snapshots[expanded]? = some then_snapshot := by
    obtain ⟨_, read⟩ := check_ok read
    split at read
    · cases read
    next found => rw [found, ok_inj read]
  split at expansion
  · cases expansion
  next segments stored =>
    rcases branch_ok expansion with ⟨_, nothing⟩ | ⟨_, expansion⟩
    · exact absurd (ok_inj nothing).symm some_statement
    · obtain rfl := ok_inj expansion
      obtain ⟨a, repacking, run⟩ := foldlM_cons_ok run
      obtain ⟨b, deleting, run⟩ := foldlM_cons_ok run
      obtain ⟨c, writing, tail⟩ := foldlM_cons_ok run
      obtain ⟨old, parts, found, live, packed, rfl⟩ := run_repack repacking
      obtain ⟨cleared, kept, empty⟩ := run_deleteSegments deleting present
      obtain ⟨none_left, generation, zero, nothing, wrote, entry⟩ := run_writePacked writing cleared.present
      obtain ⟨only, last⟩ := run_maintained tail wrote.present
      obtain rfl : [] = none_left := by
        rw [empty] at nothing
        exact Option.some.inj nothing
      refine ⟨(cleared.trans wrote).trans only, .compacted index purge planned rfl checked (by rw [last]; rfl) ?_⟩
      refine ⟨then_snapshot, segments, old, parts, partitions index.indexRef, here, stored, found, live, packed, ?_⟩
      rw [last]
      simp only [entry, zero, kept, List.nil_append]
theorem bodies_change {origin : Lake} {expanded : Nat} {expansion : LakeIndex → Except String (List LakeStatement)}
    {indexes : List LakeIndex} {bodies : List (List LakeStatement)}
    (block : ∀ index ∈ indexes, ∀ body, expansion index = .ok body → body ≠ [] → ∀ t u : LakeTransaction,
      t.view.registry ≠ none → RowChecked index (t.view.entry index.indexRef) →
      body.foldlM (runStatement host lake snapshot number s) t = .ok u →
      OnlyEntry index.indexRef t.view u.view ∧ EntryChange host origin lake expanded snapshot s index.indexRef
        (t.view.entry index.indexRef) (u.view.entry index.indexRef))
    (expanded_all : List.Forall₂ (fun index body => expansion index = .ok body) indexes bodies)
    (distinct : (indexes.map LakeIndex.indexRef).Nodup) {t u : LakeTransaction}
    (present : t.view.registry ≠ none)
    (checked : ∀ index ∈ indexes, RowChecked index (t.view.entry index.indexRef))
    (run : bodies.flatten.foldlM (runStatement host lake snapshot number s) t = .ok u) :
    ∀ indexRef, u.view.entry indexRef = t.view.entry indexRef ∨
      indexRef ∈ indexes.map LakeIndex.indexRef ∧ EntryChange host origin lake expanded snapshot s indexRef
        (t.view.entry indexRef) (u.view.entry indexRef) := by
  induction expanded_all generalizing t with
  | nil =>
    obtain rfl := ok_inj run
    exact fun _ => Or.inl rfl
  | @cons index body indexes bodies own others ih =>
    obtain ⟨own_block, other_blocks⟩ := List.forall_mem_cons.mp block
    obtain ⟨own_check, other_checks⟩ := List.forall_mem_cons.mp checked
    obtain ⟨apart, distinct⟩ := List.nodup_cons.mp distinct
    rw [List.flatten_cons] at run
    obtain ⟨a, first, rest⟩ := foldlM_append_ok run
    by_cases nothing : body = []
    · subst nothing
      obtain rfl := ok_inj first
      intro indexRef
      rcases ih other_blocks distinct present other_checks rest indexRef with same | ⟨listed, change⟩
      · exact Or.inl same
      · exact Or.inr ⟨List.mem_cons_of_mem _ listed, change⟩
    · obtain ⟨only, change⟩ := own_block body own nothing t a present own_check first
      have still : ∀ other ∈ indexes, RowChecked other (a.view.entry other.indexRef) := by
        intro other listed
        have distinct_ref : other.indexRef ≠ index.indexRef :=
          fun same => apart (same ▸ List.mem_map_of_mem listed)
        rw [only.others _ distinct_ref]
        exact other_checks other listed
      have later := ih other_blocks distinct only.present still rest
      intro indexRef
      by_cases same_ref : indexRef = index.indexRef
      · subst same_ref
        rcases later index.indexRef with same | ⟨listed, _⟩
        · exact Or.inr ⟨List.mem_cons_self, same ▸ change⟩
        · exact absurd listed apart
      · rw [← only.others indexRef same_ref]
        rcases later indexRef with same | ⟨listed, changed⟩
        · exact Or.inl same
        · exact Or.inr ⟨List.mem_cons_of_mem _ listed, changed⟩

theorem lock_present {tables : IndexTables} (held : lockCheck tables = true) :
    tables.registry ≠ none ∧ ∃ lock, tables.locks = [lock] := by
  have one : tables.locks.length = 1 := by simpa [lockCheck] using held
  refine ⟨?_, List.length_eq_one_iff.mp one⟩
  intro absent
  simp [IndexTables.locks, absent] at one

/-- The checks that precede a script leave its transaction as it was. -/
theorem run_checks {fn : String} {indexes : List LakeIndex} {t u : LakeTransaction}
    (run : (indexes.map (rowCheck host fn)).foldlM (runStatement host lake snapshot number s) t = .ok u) :
    u = t ∧ ∀ index ∈ indexes, lockCheck t.view = true ∧ RowChecked index (t.view.entry index.indexRef) := by
  induction indexes with
  | nil => exact ⟨(ok_inj run).symm, by simp⟩
  | cons index rest ih =>
    obtain ⟨a, first, others⟩ := foldlM_cons_ok run
    simp only [rowCheck, runStatement] at first
    split at first
    next holds =>
      obtain rfl := ok_inj first
      obtain ⟨same, each⟩ := ih others
      refine ⟨same, List.forall_mem_cons.mpr ⟨?_, each⟩⟩
      simp only [LakeCheck.holds, Bool.and_eq_true, beq_iff_eq] at holds
      refine ⟨holds.1, ?_⟩
      simpa [RowChecked, IndexTables.entry, List.filter_filter, Bool.and_comm] using holds.2
    next => cases first

theorem run_lock {t u : LakeTransaction}
    (run : runStatement host lake snapshot number s t .lock = .ok u) (present : t.view.registry ≠ none) :
    u.view.registry ≠ none ∧ ∀ indexRef, u.view.entry indexRef = t.view.entry indexRef := by
  obtain rfl := ok_inj run
  exact ⟨present_writes present, entry_locked _ _ _⟩

theorem checked_changes {origin : Lake} {expanded : Nat} {fn : String}
    {expansion : LakeIndex → Except String (List LakeStatement)} {indexes : List LakeIndex}
    {bodies : List (List LakeStatement)} (nonempty : indexes ≠ [])
    (block : ∀ index ∈ indexes, ∀ body, expansion index = .ok body → body ≠ [] → ∀ t u : LakeTransaction,
      t.view.registry ≠ none → RowChecked index (t.view.entry index.indexRef) →
      body.foldlM (runStatement host lake snapshot number s) t = .ok u →
      OnlyEntry index.indexRef t.view u.view ∧ EntryChange host origin lake expanded snapshot s index.indexRef
        (t.view.entry index.indexRef) (u.view.entry index.indexRef))
    (expanded_all : indexes.mapM expansion = .ok bodies)
    (distinct : (indexes.map LakeIndex.indexRef).Nodup) {t u : LakeTransaction}
    (run : (checkedScript host fn indexes bodies).foldlM (runStatement host lake snapshot number s) t = .ok u) :
    ∀ indexRef, u.view.entry indexRef = t.view.entry indexRef ∨
      EntryChange host origin lake expanded snapshot s indexRef (t.view.entry indexRef)
        (u.view.entry indexRef) := by
  obtain ⟨a, checks, rest⟩ := foldlM_append_ok run
  obtain ⟨rfl, checked⟩ := run_checks checks
  obtain ⟨first, listed⟩ := List.exists_mem_of_ne_nil indexes nonempty
  have present := (lock_present (checked first listed).1).1
  split at rest
  next =>
    obtain rfl := ok_inj rest
    exact fun _ => Or.inl rfl
  next =>
    obtain ⟨b, locking, rest⟩ := foldlM_cons_ok rest
    obtain ⟨still, same⟩ := run_lock locking present
    have changes := bodies_change block (mapM_ok expanded_all) distinct still
      (fun index here => same index.indexRef ▸ (checked index here).2) rest
    intro indexRef
    rw [← same indexRef]
    exact (changes indexRef).imp_right And.right

theorem readIndexRow_ref (row : LakeRegistryRow) : (readIndexRow row).indexRef = row.indexRef := by
  simp only [readIndexRow]
  split
  · rfl
  · split
    · rfl
    · rfl

theorem readAt_ok {what : String} {t : Snapshot} (read : lake.readAt snapshot what = .ok t) :
    snapshot ∉ lake.expired ∧ lake.snapshots[snapshot]? = some t := by
  obtain ⟨kept, read⟩ := check_ok read
  split at read
  · cases read
  next found => exact ⟨kept, by rw [found, ok_inj read]⟩

theorem readLakeRegistry_ok {ofTable : Bool} {indexes : List LakeIndex}
    (read : readLakeRegistry host lake snapshot ofTable = .ok indexes) :
    (∀ index ∈ indexes, ∃ t row, lake.snapshots[snapshot]? = some t ∧ row ∈ t.index.rows ∧
      readIndexRow row = index) ∧
    ∀ t, lake.snapshots[snapshot]? = some t → (t.index.rows.map LakeRegistryRow.indexRef).Nodup →
      (indexes.map LakeIndex.indexRef).Nodup := by
  simp only [readLakeRegistry] at read
  split at read
  · obtain rfl := ok_inj read
    simp
  · obtain ⟨t, found, read⟩ := bind_ok read
    obtain ⟨_, here⟩ := readAt_ok found
    obtain rfl := ok_inj read
    let chosen := if ofTable then t.index.rows.filter (·.belongsTo host) else t.index.rows
    have sub : chosen.Sublist t.index.rows := by
      simp only [chosen]
      split
      · exact List.filter_sublist
      · exact List.Sublist.refl _
    constructor
    · intro index listed
      obtain ⟨row, chosen_row, rfl⟩ := List.mem_map.mp listed
      exact ⟨t, row, here, sub.subset (List.mem_mergeSort.mp chosen_row), rfl⟩
    · intro other there distinct
      obtain rfl := Option.some.inj (here.symm.trans there)
      have refs : ((orderedByRef chosen).map readIndexRow).map LakeIndex.indexRef =
          (orderedByRef chosen).map LakeRegistryRow.indexRef := by
        rw [List.map_map]
        exact List.map_congr_left fun row _ => readIndexRow_ref row
      rw [refs]
      exact ((List.mergeSort_perm chosen _).map _).nodup_iff.mpr (distinct.sublist (sub.map _))

theorem maintainedIndexes_ok {fn onlyColumn : String} {indexes : List LakeIndex}
    (maintained : maintainedIndexes host lake snapshot fn onlyColumn = .ok indexes) :
    indexes ≠ [] ∧ (∀ index ∈ indexes, Planned host lake snapshot index) ∧
    ∀ t, lake.snapshots[snapshot]? = some t → (t.index.rows.map LakeRegistryRow.indexRef).Nodup →
      (indexes.map LakeIndex.indexRef).Nodup := by
  obtain ⟨read, registry, maintained⟩ := bind_ok maintained
  obtain ⟨usable, checked, maintained⟩ := bind_ok maintained
  obtain ⟨nonempty, maintained⟩ := check_ok maintained
  obtain rfl := ok_inj maintained
  obtain ⟨stored, distinct⟩ := readLakeRegistry_ok registry
  have passes : ∀ index kept, (if lakeStaleReason lake snapshot index ≠ "" then
      .error (s!"{fn}: the ngram index on {host.target.tableName}.{index.columnName} cannot be maintained: " ++
        s!"{lakeStaleReason lake snapshot index}; drop it and create it again")
      else (.ok index : Except String LakeIndex)) = .ok kept →
      kept = index ∧ lakeStaleReason lake snapshot index = "" := by
    intro index kept run
    obtain ⟨fresh, same⟩ := check_ok run
    exact ⟨(ok_inj same).symm, not_not.mp fresh⟩
  refine ⟨nonempty, ?_, ?_⟩
  · intro index listed
    obtain ⟨source, chosen, run⟩ := mapM_ok_right checked index listed
    obtain ⟨rfl, fresh⟩ := passes source index run
    exact ⟨stored index (List.mem_filter.mp chosen).1, fresh⟩
  · intro t here apart
    have same : usable = read.filter fun index => onlyColumn == "" || ciEquals index.columnName onlyColumn := by
      refine (List.forall₂_eq_eq_eq ▸ (mapM_ok checked).imp fun index kept run => ?_ : _ = usable).symm
      exact (passes index kept run).1.symm
    rw [same]
    exact (distinct t here apart).sublist (List.filter_sublist.map _)

theorem run_bootstrap {t u : LakeTransaction}
    (run : runStatement host lake snapshot number s t .bootstrap = .ok u) :
    ∀ indexRef, u.view.entry indexRef = t.view.entry indexRef := by
  obtain rfl := ok_inj run
  refine entry_bootstrapped t.view number _ ?_
  intro w listed
  rcases List.mem_append.mp listed with created | locked
  · split at created
    · exact Or.inl (List.mem_singleton.mp created)
    · cases created
  · split at locked
    · exact Or.inr (List.mem_singleton.mp locked)
    · cases locked

theorem run_boot {c : Prop} [Decidable c] {t u : LakeTransaction}
    (run : (if c then [LakeStatement.bootstrap] else []).foldlM (runStatement host lake snapshot number s) t =
      .ok u) : ∀ indexRef, u.view.entry indexRef = t.view.entry indexRef := by
  split at run
  · obtain ⟨a, boot, done⟩ := foldlM_cons_ok run
    obtain rfl := ok_inj done
    exact run_bootstrap boot
  · obtain rfl := ok_inj run
    exact fun _ => rfl

theorem run_check {condition : LakeCheck} {message : String} {t u : LakeTransaction}
    (run : runStatement host lake snapshot number s t (.check condition message) = .ok u) :
    u = t ∧ condition.holds host t.view = true := by
  simp only [runStatement] at run
  split at run
  next holds => exact ⟨(ok_inj run).symm, holds⟩
  next => cases run

theorem holds_lock {tables : IndexTables} {condition : LakeCheck}
    (holds : condition.holds host tables = true) : lockCheck tables = true := by
  cases condition with
  | noIndex columnName => exact (Bool.and_eq_true_iff.mp holds).1
  | indexRow indexRef covered => exact (Bool.and_eq_true_iff.mp holds).1
  | lockOnly => exact holds

theorem run_createSegments {indexRef : String} {t u : LakeTransaction}
    (run : runStatement host lake snapshot number s t (.createSegments indexRef) = .ok u)
    (present : t.view.registry ≠ none) :
    (t.view.entry indexRef).postings = none ∧ OnlyEntry indexRef t.view u.view ∧
      u.view.entry indexRef = ⟨(t.view.entry indexRef).rows, some []⟩ := by
  obtain ⟨absent, run⟩ := check_ok run
  obtain rfl := ok_inj run
  have nothing : t.view.segments.lookup indexRef = none := not_not.mp absent
  refine ⟨nothing, ⟨present, fun other apart => entry_ext rfl ?_⟩, ?_⟩
  · simp only [IndexTables.postings, LakeTransaction.write, applyWrites, applyWrite, List.foldl_cons,
      List.foldl_nil, List.lookup_append, List.lookup_cons, List.lookup_nil, beq_eq_false_iff_ne.mpr apart]
    simp
  · simp only [IndexTables.entry, IndexTables.postings, LakeTransaction.write, applyWrites, applyWrite,
      List.foldl_cons, List.foldl_nil, List.lookup_append, nothing]
    simp [IndexTables.rows]

theorem run_insertCreated {indexRef columnName : String} {options : GramOptions} {t u : LakeTransaction}
    (run : runStatement host lake snapshot number s t (.insertCreated indexRef columnName options) = .ok u)
    (present : t.view.registry ≠ none) :
    ∃ tableId, tableIdExpression host s = .ok tableId ∧ OnlyEntry indexRef t.view u.view ∧
      u.view.entry indexRef = ⟨(t.view.entry indexRef).rows ++ [registryRow host.target indexRef columnName
        options tableId snapshot ((listedVersion lake snapshot).map (· + 1))],
        (t.view.entry indexRef).postings⟩ := by
  obtain ⟨tableId, identified, run⟩ := bind_ok run
  obtain rfl := ok_inj run
  refine ⟨tableId, identified, ?_, ?_⟩
  · refine ⟨present_writes present, fun other apart => entry_ext ?_ rfl⟩
    refine (congrArg (List.filter _) (rows_insertRow present _)).trans ?_
    simp [registryRow, Ne.symm apart]
  · simp only [IndexTables.entry]
    refine congrArg₂ IndexEntry.mk ?_ rfl
    refine (congrArg (List.filter _) (rows_insertRow present _)).trans ?_
    simp [registryRow]

theorem create_block {origin : Lake} {expanded : Nat} {indexRef columnName : String} {options : GramOptions}
    {hi : Int} {partitions : Nat} {t u : LakeTransaction}
    (valid : validateGramOptions options "create_ngram_index" = .ok ()) (present : t.view.registry ≠ none)
    (run : [LakeStatement.createSegments indexRef,
      .pack .base columnName options (lakeRanges 0 hi partitions), .writePacked indexRef false,
      .insertCreated indexRef columnName options].foldlM (runStatement host lake snapshot number s) t = .ok u) :
    OnlyEntry indexRef t.view u.view ∧ EntryChange host origin lake expanded snapshot s indexRef
      (t.view.entry indexRef) (u.view.entry indexRef) := by
  obtain ⟨a, creating, run⟩ := foldlM_cons_ok run
  obtain ⟨b, packing, run⟩ := foldlM_cons_ok run
  obtain ⟨c, writing, run⟩ := foldlM_cons_ok run
  obtain ⟨d, inserting, run⟩ := foldlM_cons_ok run
  obtain rfl := ok_inj run
  obtain ⟨absent, created, empty⟩ := run_createSegments creating present
  obtain ⟨rows, read, rfl⟩ := run_pack packing
  obtain ⟨old, generation, zero, found, wrote, filled⟩ := run_writePacked writing created.present
  obtain ⟨tableId, identified, inserted, last⟩ := run_insertCreated inserting wrote.present
  obtain rfl : [] = old := by
    refine Option.some.inj (Eq.trans ?_ found)
    rw [show _ = _ from empty]
  have unlisted : (a.view.entry indexRef).rows = (t.view.entry indexRef).rows := by rw [empty]
  have rows_kept : (c.view.entry indexRef).rows = (t.view.entry indexRef).rows := by
    rw [filled]
    exact unlisted
  have packed : (c.view.entry indexRef).postings = some (ofGeneration 0 (packRanges (host.gramKeys options)
      (baseRows columnName rows) (lakeRanges 0 hi partitions))) := by
    rw [filled, zero rfl]
    rfl
  exact ⟨(created.trans wrote).trans inserted, .created columnName options hi partitions tableId rows valid
    absent identified read (by rw [last, rows_kept]) (by rw [last, packed])⟩

theorem drop_block {origin : Lake} {expanded : Nat} {indexRef : String} {t u : LakeTransaction}
    (present : t.view.registry ≠ none)
    (run : [LakeStatement.deleteIndexRow indexRef, .dropSegments indexRef].foldlM
      (runStatement host lake snapshot number s) t = .ok u) :
    OnlyEntry indexRef t.view u.view ∧ EntryChange host origin lake expanded snapshot s indexRef
      (t.view.entry indexRef) (u.view.entry indexRef) := by
  obtain ⟨a, deleting, run⟩ := foldlM_cons_ok run
  obtain ⟨b, dropping, run⟩ := foldlM_cons_ok run
  obtain rfl := ok_inj run
  obtain rfl := ok_inj deleting
  obtain rfl := ok_inj dropping
  let gone := t.view.rows.filter fun row => row.indexRef == indexRef
  have rows_eq : (applyWrite t.view (.deleteRows gone)).rows = t.view.rows.filter fun row => row.indexRef != indexRef := by
    refine (rows_deleteRows _ _).trans (List.filter_congr fun row listed => ?_)
    by_cases same : row.indexRef = indexRef
    · simp [gone, listed, same]
    · simp [gone, same]
  refine ⟨⟨present_writes (present_writes present), fun other apart => entry_ext ?_ (lookup_filter_other apart)⟩,
    .dropped ?_ lookup_filter_own⟩
  · refine (congrArg (List.filter _) rows_eq).trans ?_
    rw [List.filter_filter]
    refine List.filter_congr fun row _ => ?_
    by_cases same : row.indexRef = other
    · simp [same, apart]
    · simp [same]
  · refine (congrArg (List.filter _) rows_eq).trans ?_
    rw [List.filter_filter]
    simp

theorem drop_changes {origin : Lake} {expanded : Nat} {index : LakeIndex} {t u : LakeTransaction}
    (run : (dropScript host index).foldlM (runStatement host lake snapshot number s) t = .ok u) :
    OnlyEntry index.indexRef t.view u.view ∧ EntryChange host origin lake expanded snapshot s index.indexRef
      (t.view.entry index.indexRef) (u.view.entry index.indexRef) := by
  obtain ⟨a, checking, locked⟩ := foldlM_cons_ok run
  obtain ⟨b, locking, block⟩ := foldlM_cons_ok locked
  obtain ⟨rfl, holds⟩ := run_check checking
  obtain ⟨still, same⟩ := run_lock locking (lock_present (holds_lock holds)).1
  obtain ⟨only, change⟩ := @drop_block host lake snapshot number s origin expanded _ _ _ still block
  exact ⟨⟨only.present, fun other apart => (only.others other apart).trans (same other)⟩, same _ ▸ change⟩

theorem maintained_there {origin : Lake} {expanded : Nat} {indexes : List LakeIndex} (nonempty : indexes ≠ [])
    (planned : ∀ index ∈ indexes, Planned host origin expanded index) :
    ∃ t, origin.snapshots[expanded]? = some t := by
  obtain ⟨first, listed⟩ := List.exists_mem_of_ne_nil indexes nonempty
  obtain ⟨t, _, here, _⟩ := (planned first listed).stored
  exact ⟨t, here⟩

theorem script_changes {origin : Lake} {expanded : Nat} {written : Bool} {call : Call}
    {statements : List LakeStatement}
    (expansion : expandCall host origin expanded written call = .ok statements)
    (distinct : ∀ t, origin.snapshots[expanded]? = some t →
      (t.index.rows.map LakeRegistryRow.indexRef).Nodup) {t u : LakeTransaction}
    (run : statements.foldlM (runStatement host lake snapshot number s) t = .ok u) :
    ∀ indexRef, u.view.entry indexRef = t.view.entry indexRef ∨
      EntryChange host origin lake expanded snapshot s indexRef (t.view.entry indexRef)
        (u.view.entry indexRef) := by
  have only_one {indexRef : String} {a b : IndexTables} (only : OnlyEntry indexRef a b)
      (change : EntryChange host origin lake expanded snapshot s indexRef (a.entry indexRef) (b.entry indexRef)) :
      ∀ other, b.entry other = a.entry other ∨
        EntryChange host origin lake expanded snapshot s other (a.entry other) (b.entry other) := by
    intro other
    by_cases same : other = indexRef
    · exact Or.inr (same ▸ change)
    · exact Or.inl (only.others other same)
  obtain ⟨_, expansion⟩ := check_ok expansion
  cases call with
  | create columnName indexRef options partitions =>
    obtain ⟨_, _, expansion⟩ := bind_ok expansion
    obtain ⟨_, valid, expansion⟩ := bind_ok expansion
    obtain ⟨existing, _, expansion⟩ := bind_ok expansion
    split at expansion
    · cases expansion
    obtain ⟨_, _, expansion⟩ := bind_ok expansion
    obtain ⟨rows, _, expansion⟩ := bind_ok expansion
    obtain rfl := ok_inj expansion
    obtain ⟨a, booting, guarded⟩ := foldlM_append_ok run
    have booted : ∀ indexRef, a.view.entry indexRef = t.view.entry indexRef := run_boot booting
    obtain ⟨b, checking, locked⟩ := foldlM_cons_ok guarded
    obtain ⟨c, locking, block⟩ := foldlM_cons_ok locked
    obtain ⟨rfl, holds⟩ := run_check checking
    obtain ⟨still, same⟩ := run_lock locking (lock_present (holds_lock holds)).1
    obtain ⟨only, change⟩ := @create_block host lake snapshot number s origin expanded _ _ _ _ _ _ _ valid still block
    intro other
    rw [← booted other, ← same other]
    exact only_one only change other
  | refresh onlyColumn partitions =>
    obtain ⟨_, _, expansion⟩ := bind_ok expansion
    obtain ⟨indexes, maintained, expansion⟩ := bind_ok expansion
    obtain ⟨bodies, each, expansion⟩ := bind_ok expansion
    obtain rfl := ok_inj expansion
    obtain ⟨nonempty, planned, apart⟩ := maintainedIndexes_ok maintained
    obtain ⟨at_expansion, here⟩ := maintained_there nonempty planned
    refine checked_changes nonempty ?_ each (apart _ here (distinct _ here)) run
    intro index listed body expanded_body some_statement a b present checked block
    exact refresh_block (planned index listed) expanded_body some_statement present checked block
  | compact onlyColumn purge partitions =>
    obtain ⟨_, _, expansion⟩ := bind_ok expansion
    obtain ⟨indexes, maintained, expansion⟩ := bind_ok expansion
    obtain ⟨bodies, each, expansion⟩ := bind_ok expansion
    obtain rfl := ok_inj expansion
    obtain ⟨nonempty, planned, apart⟩ := maintainedIndexes_ok maintained
    obtain ⟨at_expansion, here⟩ := maintained_there nonempty planned
    refine checked_changes nonempty ?_ each (apart _ here (distinct _ here)) run
    intro index listed body expanded_body some_statement a b present checked block
    exact compact_block (planned index listed) expanded_body some_statement present checked block
  | drop columnName =>
    obtain ⟨_, _, expansion⟩ := bind_ok expansion
    obtain ⟨indexes, _, expansion⟩ := bind_ok expansion
    split at expansion
    next index _ =>
      obtain rfl := ok_inj expansion
      obtain ⟨only, change⟩ := @drop_changes host lake snapshot number s origin expanded index _ _ run
      exact only_one only change
    next => cases expansion
  | dropByReference indexRef =>
    obtain ⟨indexes, _, expansion⟩ := bind_ok expansion
    split at expansion
    next index _ =>
      obtain rfl := ok_inj expansion
      obtain ⟨only, change⟩ := @drop_changes host lake snapshot number s origin expanded index _ _ run
      exact only_one only change
    next => cases expansion
  | elsewhere =>
    obtain rfl := ok_inj expansion
    obtain ⟨a, booting, guarded⟩ := foldlM_append_ok run
    have booted : ∀ indexRef, a.view.entry indexRef = t.view.entry indexRef := run_boot booting
    obtain ⟨b, checking, locked⟩ := foldlM_cons_ok guarded
    obtain ⟨c, locking, done⟩ := foldlM_cons_ok locked
    obtain ⟨rfl, holds⟩ := run_check checking
    obtain rfl := ok_inj done
    obtain ⟨_, same⟩ := run_lock locking (lock_present (holds_lock holds)).1
    intro other
    exact Or.inl ((same other).trans (booted other))

end Statements
end NgramLake
