import NgramIndex.SegmentRows

/- The partition count of a packing pass is a matter of memory. Whatever it is,
   and however the threads of each statement share out and combine a group's
   rowids, the packed rows are the same multiset. -/
namespace NgramPartitionIndependence
open AscendingLists NgramPostings NgramPackSegment NgramProbe NgramMaintenance NgramSegmentRows Fallible
open scoped List
variable {Text Key : Type} [DecidableEq Key]

/-- The thread states of one group were fed the group's rowids, and the state
    that they were combined to answers for each of them. -/
structure Feeds (pairs : List (Key × Nat)) (group : Key × Nat) (c : Combination) : Prop where
  fed : ∀ r ∈ c.fed, r ∈ (groupRowids pairs group).map (Nat.cast : Nat → Int)
  rowids : c.rowids ~ (groupRowids pairs group).map (Nat.cast : Nat → Int)

/-- The groups of one packing statement, as its hash table returns them. -/
structure Grouping (pairs : List (Key × Nat)) (groups : List ((Key × Nat) × Combination)) : Prop where
  complete : groups.map Prod.fst ~ packGroups pairs
  feeds : ∀ entry ∈ groups, Feeds pairs entry.1 entry.2

/-- One packed row, or none where the segment is NULL. -/
def packGroup (entry : (Key × Nat) × Combination) : Except Failure (Option (SegmentContent Key)) := do
  let state ← entry.2.run
  let segment ← finalize state
  return segment.map fun packed =>
    ⟨entry.1.1, entry.1.2, packed.postings, packed.rowidCount, packed.minRowid, packed.maxRowid⟩

/-- The packing statements of one pass, one for each pair source. -/
def packStatements (groupings : List (List ((Key × Nat) × Combination))) :
    Except Failure (List (Option (SegmentContent Key))) := groupings.flatten.mapM packGroup

/-- What the statements of a pass may find in their hash tables. -/
def Grouped (sources : List (List (Key × Nat))) (groupings : List (List ((Key × Nat) × Combination))) : Prop :=
  List.Forall₂ Grouping sources groupings

def groupContent (pairs : List (Key × Nat)) (group : Key × Nat) : SegmentContent Key :=
  content (writtenRow 0 group.1 group.2 0 (sortUnique (groupRowids pairs group)))

theorem packPartition_content (pairs : List (Key × Nat)) :
    (packPartition pairs).map content = (packGroups pairs).map (groupContent pairs) := by
  rw [packPartition, List.map_map]
  rfl

theorem packGroup_eq {pairs : List (Key × Nat)} (bounded : ∀ pair ∈ pairs, pair.2 ≤ int64Max)
    {entry : (Key × Nat) × Combination} (listed : entry.1 ∈ packGroups pairs)
    (feeds : Feeds pairs entry.1 entry.2) : packGroup entry = .ok (some (groupContent pairs entry.1)) := by
  obtain ⟨group, c⟩ := entry
  have members : ∀ r, r ∈ c.rowids ↔ r ∈ (sortUnique (groupRowids pairs group)).map (Nat.cast : Nat → Int) := by
    intro r
    rw [feeds.rowids.mem_iff]
    simp only [List.mem_map, mem_sortUnique]
  have nonempty : sortUnique (groupRowids pairs group) ≠ [] := by
    obtain ⟨pair, present, rfl⟩ := List.mem_map.mp (List.mem_dedup.mp listed)
    exact List.ne_nil_of_mem (mem_sortUnique.mpr (mem_groupRowids.mpr ⟨present, rfl⟩))
  have held : c.rowids ≠ [] := by
    obtain ⟨r, present⟩ := List.exists_mem_of_ne_nil _ nonempty
    exact List.ne_nil_of_mem ((members r).mpr (List.mem_map_of_mem present))
  have settled : ∀ r ∈ c.fed, 0 ≤ r ∧ r < 2 ^ 63 ∧ r.toNat >>> segmentShift = group.2 := by
    intro r present
    obtain ⟨n, in_group, rfl⟩ := List.mem_map.mp (feeds.fed r present)
    obtain ⟨in_pairs, segment⟩ := mem_groupRowids.mp in_group
    have small := bounded _ in_pairs
    simp only [int64Max] at small
    refine ⟨Int.natCast_nonneg n, by omega, ?_⟩
    rw [Nat.shiftRight_eq_div_pow]
    exact segment
  obtain ⟨s, packed, ran, finalized, describes⟩ := combination_finalized c settled held
  have written := @described_offsets 0 _ ((sortUnique (groupRowids pairs group)).map (Nat.cast : Nat → Int))
    (sortUnique_ascending _) nonempty (fun r => by simp [eq_comm])
  obtain rfl := describes_eq describes written (fun r present => (settled r (fed_of_rowids c r present)).1) members
  unfold packGroup
  rw [ran, bind_of_ok rfl, finalized, bind_of_ok rfl]
  simp [groupContent, content, writtenRow]
  rfl

theorem statement_content {pairs : List (Key × Nat)} (bounded : ∀ pair ∈ pairs, pair.2 ≤ int64Max)
    {groups : List ((Key × Nat) × Combination)} (grouping : Grouping pairs groups) :
    ∃ packed, groups.mapM packGroup = .ok (packed.map some) ∧ packed ~ (packPartition pairs).map content := by
  refine ⟨groups.map fun entry => groupContent pairs entry.1, ?_, ?_⟩
  · rw [List.map_map]
    apply mapM_ok_of
    intro entry present
    apply packGroup_eq bounded _ (grouping.feeds entry present)
    exact grouping.complete.mem_iff.mp (List.mem_map_of_mem present)
  · rw [packPartition_content]
    have keyed := grouping.complete.map (groupContent pairs)
    rwa [List.map_map] at keyed

/-- A whole pass returns the rows of the model's packing pass in some order. -/
theorem packStatements_content {sources : List (List (Key × Nat))}
    (bounded : ∀ pairs ∈ sources, ∀ pair ∈ pairs, pair.2 ≤ int64Max)
    {groupings : List (List ((Key × Nat) × Combination))} (grouped : Grouped sources groupings) :
    ∃ packed, packStatements groupings = .ok (packed.map some) ∧
      packed ~ (sources.flatMap packPartition).map content := by
  unfold packStatements
  induction grouped with
  | nil => exact ⟨[], rfl, List.Perm.refl _⟩
  | @cons pairs groups sources groupings grouping _ ih =>
    obtain ⟨first, ran, same⟩ := statement_content (bounded pairs List.mem_cons_self) grouping
    obtain ⟨rest, ran', same'⟩ := ih fun other listed => bounded other (List.mem_cons_of_mem pairs listed)
    refine ⟨first ++ rest, ?_, ?_⟩
    · rw [List.flatten_cons, List.mapM_append, ran, bind_of_ok rfl, ran', bind_of_ok rfl, List.map_append]
      rfl
    · rw [List.flatMap_cons, List.map_append]
      exact same.append same'

/-- Two passes that both succeed with the same multiset of rows. -/
def SameRows (left right : List (List ((Key × Nat) × Combination))) : Prop :=
  ∃ a b, packStatements left = .ok (a.map some) ∧ packStatements right = .ok (b.map some) ∧ a ~ b

def rangeSources (gramKeys : Text → List Key) (base : List (BaseRow Text)) (ranges : List (Int × Int)) :
    List (List (Key × Nat)) := ranges.map (rangePairs gramKeys base)

def compactSources (script : CompactScript) (base : List (BaseRow Text)) (index : IndexState Key) :
    Except String (List (List (Key × Nat))) :=
  let keys := compactKeys script.purge index.segments
  (segmentAlignedRanges 0 script.hwm script.partitions false).mapM
    (compactPairs script (index.segments.filter (ofKeys keys)) (compactLive script.hwm keys base))

theorem same_rows {a b : List (List (Key × Nat))} {left right : List (List ((Key × Nat) × Combination))}
    (bounded_a : ∀ pairs ∈ a, ∀ pair ∈ pairs, pair.2 ≤ int64Max)
    (bounded_b : ∀ pairs ∈ b, ∀ pair ∈ pairs, pair.2 ≤ int64Max)
    (same : (a.flatMap packPartition).map content ~ (b.flatMap packPartition).map content)
    (grouped_a : Grouped a left) (grouped_b : Grouped b right) : SameRows left right := by
  obtain ⟨rows, ran, from_a⟩ := packStatements_content bounded_a grouped_a
  obtain ⟨others, ran', from_b⟩ := packStatements_content bounded_b grouped_b
  exact ⟨rows, others, ran, ran', from_a.trans (same.trans from_b.symm)⟩

theorem ranges_below {lo hi : Int} {partitions : Nat} {openEnded : Bool} (space : hi < maxRowId) :
    ∀ range ∈ segmentAlignedRanges lo hi partitions openEnded, range.2 ≤ maxRowId - 1 := by
  intro range listed
  have bounds := (segmentAlignedRanges_inside range listed).2
  split at bounds <;> omega

theorem ranges_posted {gramKeys : Text → List Key} {base : List (BaseRow Text)} {lo hi : Int}
    {openEnded : Bool} (space : hi < maxRowId) (partitions : Nat) (key : Key) (r : Nat) :
    Posted (packRanges gramKeys base (segmentAlignedRanges lo hi partitions openEnded)) key r ↔
      ∃ row ∈ base, ∃ text, row.rowid = r ∧ row.value = some text ∧ key ∈ gramKeys text ∧ lo ≤ r ∧
        (r : Int) ≤ if openEnded then (maxRowId : Int) - 1 else hi := by
  rw [packRanges_posted fun range listed => by have below := ranges_below space range listed; omega]
  constructor
  · rintro ⟨range, listed, pair⟩
    obtain ⟨row, present, text, rfl, value, in_text, low, high⟩ := mem_rangePairs.mp pair
    obtain ⟨first, last⟩ := segmentAlignedRanges_inside range listed
    refine ⟨row, present, text, rfl, value, in_text, by omega, ?_⟩
    split
    · rename_i opened
      rw [if_pos opened] at last
      omega
    · rename_i closed
      rw [if_neg closed] at last
      omega
  · rintro ⟨row, present, text, rfl, value, in_text, low, high⟩
    obtain ⟨range, listed, first, last⟩ := @segmentAlignedRanges_cover _ _ _ partitions _ low high
    exact ⟨range, listed, mem_rangePairs.mpr ⟨row, present, text, rfl, value, in_text, first, last⟩⟩

theorem ranges_contents {gramKeys : Text → List Key} {base : List (BaseRow Text)} {lo hi : Int}
    {openEnded : Bool} (space : hi < maxRowId) (p q : Nat) :
    (packRanges gramKeys base (segmentAlignedRanges lo hi p openEnded)).map content ~
      (packRanges gramKeys base (segmentAlignedRanges lo hi q openEnded)).map content := by
  have packed : ∀ partitions, Packed (maxRowId - 1)
      (packRanges gramKeys base (segmentAlignedRanges lo hi partitions openEnded)) := fun partitions =>
    packRanges_packed (by decide) (ranges_below space) (segmentAlignedRanges_apart _ _ _ _)
  apply contents_perm (packed p) (packed q)
  intro key r
  rw [ranges_posted space, ranges_posted space]

theorem sources_contents {script twin : CompactScript} {base : List (BaseRow Text)} {index : IndexState Key}
    (space : script.hwm < maxRowId) (inside : KeysInside script.hwm (compactKeys script.purge index.segments))
    (mark : twin.hwm = script.hwm) (purge : twin.purge = script.purge)
    {sources others : List (List (Key × Nat))} (run : compactSources script base index = .ok sources)
    (run' : compactSources twin base index = .ok others) :
    (sources.flatMap packPartition).map content ~ (others.flatMap packPartition).map content := by
  have small : script.hwm < 2 ^ 63 := space.trans (by decide)
  have inside' : KeysInside twin.hwm (compactKeys twin.purge index.segments) := by rwa [mark, purge]
  have space' : twin.hwm < maxRowId := by rwa [mark]
  apply contents_perm (compact_packed small run) (compact_packed (by rwa [mark]) run')
  intro key r
  rw [compacted_posted space inside run, compacted_posted space' inside' run', mark, purge]

theorem sources_decode {script twin : CompactScript} {base : List (BaseRow Text)} {index : IndexState Key}
    (inside : KeysInside script.hwm (compactKeys script.purge index.segments))
    (mark : twin.hwm = script.hwm) (purge : twin.purge = script.purge) {sources : List (List (Key × Nat))}
    (run : compactSources script base index = .ok sources) :
    ∃ others, compactSources twin base index = .ok others := by
  have decodes := (compactSources_total inside).mp ⟨sources, run⟩
  rw [← mark, ← purge] at inside decodes
  exact (compactSources_total inside).mpr decodes

theorem sources_bounded {script : CompactScript} {base : List (BaseRow Text)} {index : IndexState Key}
    (space : script.hwm < maxRowId) {sources : List (List (Key × Nat))}
    (run : compactSources script base index = .ok sources) :
    ∀ pairs ∈ sources, ∀ pair ∈ pairs, pair.2 ≤ int64Max := by
  intro pairs listed pair present
  obtain ⟨range, _, decoded⟩ := mapM_ok_right run pairs listed
  have below := (source_segment decoded present).2.2
  simp only [maxRowId, int64Max] at space ⊢
  omega

/-- Two indexes that differ at most in the order, the numbering and the
    generations of their rows. -/
def SameIndex (a b : IndexState Key) : Prop :=
  a.hwm = b.hwm ∧ a.segments.map content ~ b.segments.map content

theorem refresh_same {gramKeys : Text → List Key} {base : List (BaseRow Text)} {hwm : Int}
    {totalRows : Nat} {maxRows : Option Int} {index after : IndexState Key} (rows : totalRows ≤ maxRowId)
    (p q : Nat)
    (run : executeRefresh gramKeys (refreshScript hwm totalRows p maxRows) base index = .ok after) :
    ∃ twin, executeRefresh gramKeys (refreshScript hwm totalRows q maxRows) base index = .ok twin ∧
      SameIndex after twin := by
  by_cases nothing : (totalRows : Int) - 1 ≤ hwm
  · have idle : ∀ partitions, refreshScript hwm totalRows partitions maxRows = ⟨hwm, none⟩ := by
      intro partitions
      simp [refreshScript, nothing]
    rw [idle p] at run
    exact ⟨after, by rw [idle q]; exact run, rfl, List.Perm.refl _⟩
  · unfold executeRefresh refreshScript at run ⊢
    simp only [if_neg nothing] at run ⊢
    obtain ⟨recorded, run⟩ := check_ok run
    cases ok_inj run
    refine ⟨_, check_of_not recorded, rfl, ?_⟩
    unfold IndexState.appendPacked
    simp only [List.map_append, stamp_contents]
    apply List.Perm.append_left
    apply ranges_contents
    split
    · rename_i short
      have before : refreshEnd hwm maxRows < (totalRows : Int) - 1 := of_decide_eq_true short
      omega
    · omega

theorem compact_same {script twin : CompactScript} {base : List (BaseRow Text)} {index after : IndexState Key}
    (space : script.hwm < maxRowId) (mark : twin.hwm = script.hwm) (purge : twin.purge = script.purge)
    (fragmented : twin.mayHoldFragmentedKeys = script.mayHoldFragmentedKeys)
    (run : executeCompact script base index = .ok after) :
    ∃ other, executeCompact twin base index = .ok other ∧ SameIndex after other := by
  obtain ⟨recorded, ⟨merges, whole, rfl⟩ | ⟨taken, inside, sources, decoded, rfl⟩⟩ := executeCompact_cases run
  · refine ⟨after, ?_, rfl, List.Perm.refl _⟩
    unfold executeCompact
    rw [if_neg (not_not.mpr (recorded.trans mark.symm)), if_pos ⟨by simp [purge, merges], by simp [fragmented, whole]⟩]
  · obtain ⟨others, decoded'⟩ := @sources_decode _ _ _ script twin base index inside mark purge sources decoded
    have same := sources_contents space inside mark purge decoded decoded'
    have inside' : KeysInside twin.hwm (compactKeys twin.purge index.segments) := by rwa [mark, purge]
    rw [← purge, ← fragmented] at taken
    refine ⟨_, executeCompact_rewrites (recorded.trans mark.symm) taken inside' decoded', rfl, ?_⟩
    rw [compacted_contents, compacted_contents, purge]
    exact same.append_left _

/-- Two runs that differ in the partition count, in the threads and in the order
    of their groups pack the same multiset of segment rows. -/
theorem partition_independence (gramKeys : Text → List Key) (base : List (BaseRow Text)) :
    (∀ (lo hi : Int) (openEnded : Bool), hi < maxRowId → ∀ p q left right,
      Grouped (rangeSources gramKeys base (segmentAlignedRanges lo hi p openEnded)) left →
      Grouped (rangeSources gramKeys base (segmentAlignedRanges lo hi q openEnded)) right →
      SameRows left right) ∧
    (∀ (script : CompactScript) (index : IndexState Key) (partitions : Nat), script.hwm < maxRowId →
      KeysInside script.hwm (compactKeys script.purge index.segments) →
      ∀ sources, compactSources script base index = .ok sources →
        ∃ others, compactSources { script with partitions := partitions } base index = .ok others ∧
          ∀ left right, Grouped sources left → Grouped others right → SameRows left right) ∧
    (∀ (hwm : Int) (totalRows : Nat) (maxRows : Option Int) (p q : Nat) (index after : IndexState Key),
      totalRows ≤ maxRowId →
      executeRefresh gramKeys (refreshScript hwm totalRows p maxRows) base index = .ok after →
        ∃ twin, executeRefresh gramKeys (refreshScript hwm totalRows q maxRows) base index = .ok twin ∧
          SameIndex after twin) ∧
    ∀ (script : CompactScript) (index after : IndexState Key) (partitions : Nat), script.hwm < maxRowId →
      executeCompact script base index = .ok after →
        ∃ twin, executeCompact { script with partitions := partitions } base index = .ok twin ∧
          SameIndex after twin := by
  refine ⟨?_, ?_, ?_, ?_⟩
  · intro lo hi openEnded space p q left right grouped_p grouped_q
    have bounded : ∀ partitions, ∀ pairs ∈ rangeSources gramKeys base
        (segmentAlignedRanges lo hi partitions openEnded), ∀ pair ∈ pairs, pair.2 ≤ int64Max := by
      intro partitions pairs listed pair present
      obtain ⟨range, in_ranges, rfl⟩ := List.mem_map.mp listed
      obtain ⟨_, _, _, _, _, _, _, high⟩ := mem_rangePairs.mp present
      have below := ranges_below space range in_ranges
      simp only [maxRowId, int64Max] at below ⊢
      omega
    have same := @ranges_contents _ _ _ gramKeys base lo hi openEnded space p q
    rw [packRanges_sources, packRanges_sources] at same
    exact same_rows (bounded p) (bounded q) same grouped_p grouped_q
  · intro script index partitions space inside sources run
    let twin := { script with partitions := partitions }
    obtain ⟨others, run'⟩ := @sources_decode _ _ _ script twin base index inside rfl rfl sources run
    refine ⟨others, run', fun left right grouped grouped' => ?_⟩
    have same := @sources_contents _ _ _ script twin base index space inside rfl rfl sources others run run'
    exact same_rows (sources_bounded space run) (@sources_bounded _ _ _ twin base index space others run')
      same grouped grouped'
  · intro hwm totalRows maxRows p q index after rows run
    exact refresh_same rows p q run
  · intro script index after partitions space run
    exact @compact_same _ _ _ script { script with partitions := partitions } base index after
      space rfl rfl rfl run

/-- Rowids on both sides of a segment boundary, fed backwards and by two threads. -/
def boundaryRows : List (BaseRow (List Nat)) :=
  [⟨1048575, some [7]⟩, ⟨1048576, some [7, 8]⟩, ⟨1048577, some [7]⟩]

def wholeRange : List (List ((Nat × Nat) × Combination)) :=
  [[((7, 1), .update (.update .fresh 1048577) 1048576), ((8, 1), .update .fresh 1048576),
    ((7, 0), .update .fresh 1048575)]]

def alignedRanges : List (List ((Nat × Nat) × Combination)) :=
  [[((7, 0), .update .fresh 1048575)],
    [((8, 1), .update .fresh 1048576),
      ((7, 1), .combined .allowDestructive (.update .fresh 1048577) (.update .fresh 1048576))]]

def boundaryIndex : IndexState Nat :=
  ⟨1048577, packRanges id boundaryRows (segmentAlignedRanges 0 1048577 1 false), 3⟩

theorem boundary_rows_packed_alike : SameRows wholeRange alignedRanges ∧
    ∃ purged twin, executeCompact ⟨1048577, true, true, 1⟩ boundaryRows boundaryIndex = .ok purged ∧
      executeCompact ⟨1048577, true, true, 4⟩ boundaryRows boundaryIndex = .ok twin ∧ SameIndex purged twin := by
  have independent := @partition_independence (List Nat) Nat _ id boundaryRows
  constructor
  · apply independent.1 1048575 1048577 false (by decide) 1 2
    · refine .cons ⟨by decide, ?_⟩ .nil
      simp only [List.forall_mem_cons]
      exact ⟨⟨by decide, by decide⟩, ⟨by decide, by decide⟩, ⟨by decide, by decide⟩, by simp⟩
    · refine .cons ⟨by decide, ?_⟩ (.cons ⟨by decide, ?_⟩ .nil)
      · simp only [List.forall_mem_cons]
        exact ⟨⟨by decide, by decide⟩, by simp⟩
      · simp only [List.forall_mem_cons]
        exact ⟨⟨by decide, by decide⟩, ⟨by decide, by decide⟩, by simp⟩
  · have ran : (executeCompact ⟨1048577, true, true, 1⟩ boundaryRows boundaryIndex).toOption.isSome = true := by
      decide +kernel
    cases purged : executeCompact ⟨1048577, true, true, 1⟩ boundaryRows boundaryIndex with
    | error reason =>
      rw [purged] at ran
      exact nomatch ran
    | ok after =>
      obtain ⟨twin, run, same⟩ := independent.2.2.2 _ _ after 4 (by decide) purged
      exact ⟨after, twin, rfl, run, same⟩

end NgramPartitionIndependence
