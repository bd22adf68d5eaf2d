import NgramIndex.LakeScripts
import NgramIndex.Compaction

/- The postings that a lake's scripts write and pack again. A row of a segment
   with committed rowids holds rowids of that segment alone, and rows that are
   packed again keep every rowid under its key and in its segment. -/
namespace NgramLake
open AscendingLists Fallible NgramGram NgramPostings NgramPackSegment NgramProbe NgramMaintenance

def Stored (postings : List PostingRow) (key : Uhugeint) (r : Nat) : Prop :=
  ∃ row ∈ postings, row.gramKey = key ∧ row.segmentNo = (r / segmentRows : Nat) ∧ r ∈ row.rowids

def lastCommitted : Nat := lakeProvisionalRowid / segmentRows

def Located (row : PostingRow) : Prop :=
  row.segmentNo ≤ lastCommitted → ∀ r ∈ row.rowids, ((r / segmentRows : Nat) : Int) = row.segmentNo

theorem committed_segment {r : Nat} (committed : r < lakeProvisionalRowid) : r / segmentRows ≤ lastCommitted :=
  Nat.div_le_div_right committed.le

theorem stored_posted {postings : List PostingRow} {key : Uhugeint} {r : Nat}
    (stored : Stored postings key r) : Posted postings key r := by
  obtain ⟨row, listed, of_key, _, present⟩ := stored
  exact ⟨row, listed, of_key, present⟩

theorem stored_append {a b : List PostingRow} {key : Uhugeint} {r : Nat} :
    Stored (a ++ b) key r ↔ Stored a key r ∨ Stored b key r := by
  simp only [Stored, List.mem_append, or_and_right, exists_or]

theorem located_append {a b : List PostingRow} (left : ∀ row ∈ a, Located row)
    (right : ∀ row ∈ b, Located row) : ∀ row ∈ a ++ b, Located row := by
  intro row listed
  rcases List.mem_append.mp listed with here | there
  · exact left row here
  · exact right row there

section Generation

theorem mem_ofGeneration {generation : Int} {rows : List PostingRow} {row : PostingRow} :
    row ∈ ofGeneration generation rows ↔ ∃ source ∈ rows, { source with generation := generation } = row :=
  List.mem_map

theorem stored_ofGeneration {generation : Int} {rows : List PostingRow} {key : Uhugeint} {r : Nat} :
    Stored (ofGeneration generation rows) key r ↔ Stored rows key r := by
  constructor
  · rintro ⟨row, listed, of_key, in_segment, present⟩
    obtain ⟨source, here, rfl⟩ := mem_ofGeneration.mp listed
    exact ⟨source, here, of_key, in_segment, present⟩
  · rintro ⟨source, here, of_key, in_segment, present⟩
    exact ⟨_, mem_ofGeneration.mpr ⟨source, here, rfl⟩, of_key, in_segment, present⟩

theorem located_ofGeneration {generation : Int} {rows : List PostingRow} (located : ∀ row ∈ rows, Located row) :
    ∀ row ∈ ofGeneration generation rows, Located row := by
  intro row listed
  obtain ⟨source, here, rfl⟩ := mem_ofGeneration.mp listed
  exact located source here

end Generation

section Packed

/-- Rowids of one segment are few and small enough to be encoded. -/
theorem segment_rowids (key : Uhugeint) (number : Nat) {segment : Nat} {rowids : List Nat}
    (inside : ∀ r ∈ rowids, r / segmentRows = segment) (committed : segment ≤ lastCommitted) :
    (writtenRow 0 key number 0 (sortUnique rowids)).rowids = sortUnique rowids := by
  have within (r : Nat) (present : r ∈ sortUnique rowids) : segment * segmentRows ≤ r ∧
      r < segment * segmentRows + segmentRows := by
    have here := inside r (mem_sortUnique.mp present)
    simp only [segmentRows, segmentShift] at here ⊢
    omega
  have window : (sortUnique rowids).length ≤ segmentRows :=
    window_length (ascending_nodup (sortUnique_ascending _)) within
  simp only [segmentRows, segmentShift, lastCommitted, lakeProvisionalRowid] at window committed within
  refine writtenRow_rowids _ _ _ _ (sortUnique_ascending _) (fun r present => ?_) ?_
  · have bounds := within r present
    simp only [int64Max]
    omega
  · simp only [int64Max]
    omega

theorem packPartition_stored {pairs : List (Uhugeint × Nat)} {key : Uhugeint} {r : Nat}
    (present : (key, r) ∈ pairs) (committed : r < lakeProvisionalRowid) : Stored (packPartition pairs) key r := by
  have listed : (key, r / segmentRows) ∈ packGroups pairs :=
    List.mem_dedup.mpr (List.mem_map.mpr ⟨(key, r), present, rfl⟩)
  refine ⟨_, List.mem_map_of_mem listed, rfl, rfl, ?_⟩
  rw [segment_rowids key _ (fun other here => (mem_groupRowids.mp here).2) (committed_segment committed)]
  exact mem_sortUnique.mpr (mem_groupRowids.mpr ⟨present, rfl⟩)

theorem packPartition_located {pairs : List (Uhugeint × Nat)} : ∀ row ∈ packPartition pairs, Located row := by
  intro row listed committed r present
  obtain ⟨group, _, rfl⟩ := List.mem_map.mp listed
  have segment : group.2 ≤ lastCommitted := Int.ofNat_le.mp committed
  rw [segment_rowids group.1 group.2 (fun other here => (mem_groupRowids.mp here).2) segment] at present
  exact congrArg Nat.cast (mem_groupRowids.mp (mem_sortUnique.mp present)).2

theorem packRanges_stored {gramKeys : String → List Uhugeint} {base : List (BaseRow String)}
    {ranges : List (Int × Int)} {row : BaseRow String} (listed : row ∈ base) {text : String}
    (value : row.value = some text) {key : Uhugeint} (keyed : key ∈ gramKeys text)
    (committed : row.rowid < lakeProvisionalRowid)
    (covered : ∃ range ∈ ranges, range.1 ≤ (row.rowid : Int) ∧ (row.rowid : Int) ≤ range.2) :
    Stored (packRanges gramKeys base ranges) key row.rowid := by
  obtain ⟨range, ranged, low, high⟩ := covered
  have pair : (key, row.rowid) ∈ rangePairs gramKeys base range :=
    mem_rangePairs.mpr ⟨row, listed, text, rfl, value, keyed, low, high⟩
  obtain ⟨packed, here, rest⟩ := packPartition_stored pair committed
  exact ⟨packed, List.mem_flatMap.mpr ⟨range, ranged, here⟩, rest⟩

theorem packRanges_located {gramKeys : String → List Uhugeint} {base : List (BaseRow String)}
    {ranges : List (Int × Int)} : ∀ row ∈ packRanges gramKeys base ranges, Located row := by
  intro row listed
  obtain ⟨range, _, here⟩ := List.mem_flatMap.mp listed
  exact packPartition_located row here

end Packed

section Unpacked

theorem unpackSegments_mem {rows : List PostingRow} {postings : List (Uhugeint × Int × Nat)}
    (run : unpackSegments rows = .ok postings) {key : Uhugeint} {segmentNo : Int} {r : Nat} :
    (key, segmentNo, r) ∈ postings ↔
      ∃ row ∈ rows, row.gramKey = key ∧ row.segmentNo = segmentNo ∧ r ∈ row.rowids := by
  obtain ⟨lists, unpacked, rest⟩ := bind_ok run
  obtain rfl := ok_inj rest
  have row_list (row : PostingRow) (list : List (Uhugeint × Int × Nat))
      (one : (do
        let rowids ← decodePostings row.postings
        .ok (rowids.map fun r => (row.gramKey, row.segmentNo, r))) = (.ok list : Except String _)) :
      (key, segmentNo, r) ∈ list ↔ row.gramKey = key ∧ row.segmentNo = segmentNo ∧ r ∈ row.rowids := by
    obtain ⟨rowids, decoded, mapped⟩ := bind_ok one
    obtain rfl := ok_inj mapped
    have same : row.rowids = rowids := by
      unfold SegmentRow.rowids
      rw [decoded]
    simp [same, and_comm, and_assoc, and_left_comm]
  constructor
  · intro present
    obtain ⟨list, listed, here⟩ := List.mem_flatten.mp present
    obtain ⟨row, in_rows, one⟩ := mapM_ok_right unpacked list listed
    exact ⟨row, in_rows, (row_list row list one).mp here⟩
  · rintro ⟨row, in_rows, posted⟩
    obtain ⟨list, listed, one⟩ := mapM_ok_left unpacked row in_rows
    exact List.mem_flatten.mpr ⟨list, listed, (row_list row list one).mpr posted⟩

def unpackedRowids (postings : List (Uhugeint × Int × Nat)) (group : Uhugeint × Int) : List Nat :=
  (postings.filter fun p => decide ((p.1, p.2.1) = group)).map fun p => p.2.2

theorem mem_unpackedRowids {postings : List (Uhugeint × Int × Nat)} {key : Uhugeint} {segmentNo : Int}
    {r : Nat} : r ∈ unpackedRowids postings (key, segmentNo) ↔ (key, segmentNo, r) ∈ postings := by
  simp only [unpackedRowids, List.mem_map, List.mem_filter, decide_eq_true_eq]
  constructor
  · rintro ⟨⟨_, _, rowid⟩, ⟨present, same⟩, rfl⟩
    obtain ⟨rfl, rfl⟩ := Prod.mk.inj same
    exact present
  · intro present
    exact ⟨_, ⟨present, rfl⟩, rfl⟩

theorem mem_packUnpacked {postings : List (Uhugeint × Int × Nat)} {row : PostingRow} :
    row ∈ packUnpacked postings ↔ ∃ key segmentNo, (∃ r, (key, segmentNo, r) ∈ postings) ∧
      row = repackedRow key segmentNo (sortUnique (unpackedRowids postings (key, segmentNo))) := by
  simp only [packUnpacked, List.mem_map, List.mem_dedup]
  constructor
  · rintro ⟨_, ⟨⟨key, segmentNo, r⟩, present, rfl⟩, rfl⟩
    exact ⟨key, segmentNo, ⟨r, present⟩, rfl⟩
  · rintro ⟨key, segmentNo, ⟨r, present⟩, rfl⟩
    exact ⟨(key, segmentNo), ⟨_, present, rfl⟩, rfl⟩

def PairsLocated (postings : List (Uhugeint × Int × Nat)) : Prop :=
  ∀ key segmentNo r, (key, segmentNo, r) ∈ postings → segmentNo ≤ lastCommitted →
    ((r / segmentRows : Nat) : Int) = segmentNo

theorem repacked_rowids {postings : List (Uhugeint × Int × Nat)} (located : PairsLocated postings)
    {key : Uhugeint} {segmentNo : Int} {some_rowid : Nat} (present : (key, segmentNo, some_rowid) ∈ postings)
    (committed : segmentNo ≤ lastCommitted) :
    (repackedRow key segmentNo (sortUnique (unpackedRowids postings (key, segmentNo)))).rowids =
      sortUnique (unpackedRowids postings (key, segmentNo)) := by
  have segment := located key segmentNo some_rowid present committed
  refine @segment_rowids key 0 (some_rowid / segmentRows) _ (fun r here => ?_) ?_
  · have other := located key segmentNo r (mem_unpackedRowids.mp here) committed
    exact Int.ofNat_inj.mp (other.trans segment.symm)
  · exact Int.ofNat_le.mp (segment.trans_le committed)

theorem packUnpacked_stored {postings : List (Uhugeint × Int × Nat)} (located : PairsLocated postings)
    {key : Uhugeint} {r : Nat} (present : (key, ((r / segmentRows : Nat) : Int), r) ∈ postings)
    (committed : r < lakeProvisionalRowid) : Stored (packUnpacked postings) key r := by
  refine ⟨_, mem_packUnpacked.mpr ⟨key, _, ⟨r, present⟩, rfl⟩, rfl, rfl, ?_⟩
  rw [repacked_rowids located present (Int.ofNat_le.mpr (committed_segment committed))]
  exact mem_sortUnique.mpr (mem_unpackedRowids.mpr present)

theorem packUnpacked_located {postings : List (Uhugeint × Int × Nat)} (located : PairsLocated postings) :
    ∀ row ∈ packUnpacked postings, Located row := by
  intro row listed committed r here
  obtain ⟨key, segmentNo, ⟨one, present⟩, rfl⟩ := mem_packUnpacked.mp listed
  have segment : segmentNo ≤ lastCommitted := committed
  rw [repacked_rowids located present segment] at here
  exact located key segmentNo r (mem_unpackedRowids.mp (mem_sortUnique.mp here)) segment

end Unpacked

section Repacked

structure RangeRepacked (segments : List PostingRow) (live : Option (List Nat)) (range : Int × Int)
    (part : List PostingRow) : Prop where
  stored : ∀ key r, Stored segments key r → r < lakeProvisionalRowid → (∀ kept ∈ live, r ∈ kept) →
    range.1 ≤ (r : Int) → (r : Int) ≤ range.2 → Stored part key r
  located : ∀ row ∈ part, Located row
  segments : ∀ row ∈ part, ∃ old ∈ segments, old.segmentNo = row.segmentNo

theorem repackRange_repacked {segments : List PostingRow} {live : Option (List Nat)} {range : Int × Int}
    {part : List PostingRow} (located : ∀ row ∈ segments, Located row)
    (run : repackRange segments live range = .ok part) : RangeRepacked segments live range part := by
  obtain ⟨postings, unpacked, run⟩ := bind_ok run
  have of_rows {key : Uhugeint} {segmentNo : Int} {r : Nat} (present : (key, segmentNo, r) ∈ postings) :
      ∃ row ∈ segments, row.gramKey = key ∧ row.segmentNo = segmentNo ∧ r ∈ row.rowids := by
    obtain ⟨row, listed, posted⟩ := (unpackSegments_mem unpacked).mp present
    exact ⟨row, (List.mem_filter.mp listed).1, posted⟩
  have pairs : PairsLocated postings := by
    intro key segmentNo r present committed
    obtain ⟨row, listed, _, rfl, here⟩ := of_rows present
    exact located row listed committed r here
  have unpacked_stored {key : Uhugeint} {r : Nat} (stored : Stored segments key r) (low : range.1 ≤ (r : Int))
      (high : (r : Int) ≤ range.2) : (key, ((r / segmentRows : Nat) : Int), r) ∈ postings := by
    obtain ⟨row, listed, of_key, in_segment, here⟩ := stored
    refine (unpackSegments_mem unpacked).mpr ⟨row, List.mem_filter.mpr ⟨listed, ?_⟩, of_key, in_segment, here⟩
    have bounds := segment_of_rowid low high
    exact decide_eq_true (in_segment ▸ bounds)
  cases live with
  | none =>
    obtain rfl := ok_inj run
    refine ⟨fun key r stored committed _ low high => ?_, packUnpacked_located pairs, fun row listed => ?_⟩
    · exact packUnpacked_stored pairs (unpacked_stored stored low high) committed
    · obtain ⟨key, segmentNo, ⟨r, present⟩, rfl⟩ := mem_packUnpacked.mp listed
      obtain ⟨old, here, _, same, _⟩ := of_rows present
      exact ⟨old, here, same⟩
  | some kept =>
    obtain rfl := ok_inj run
    have fewer : PairsLocated (postings.filter fun p => decide (p.2.2 ∈ kept ∧ range.1 ≤ p.2.2 ∧
        (p.2.2 : Int) ≤ range.2)) :=
      fun key segmentNo r present => pairs key segmentNo r (List.mem_filter.mp present).1
    refine ⟨fun key r stored committed alive low high => ?_, packUnpacked_located fewer, fun row listed => ?_⟩
    · refine packUnpacked_stored fewer (List.mem_filter.mpr ⟨unpacked_stored stored low high, ?_⟩) committed
      exact decide_eq_true ⟨alive kept rfl, low, high⟩
    · obtain ⟨key, segmentNo, ⟨r, present⟩, rfl⟩ := mem_packUnpacked.mp listed
      obtain ⟨old, here, _, same, _⟩ := of_rows (List.mem_filter.mp present).1
      exact ⟨old, here, same⟩

theorem repacked_all {segments : List PostingRow} {live : Option (List Nat)} {ranges : List (Int × Int)}
    {parts : List (List PostingRow)} (located : ∀ row ∈ segments, Located row)
    (run : ranges.mapM (repackRange segments live) = .ok parts) :
    (∀ key r, Stored segments key r → r < lakeProvisionalRowid → (∀ kept ∈ live, r ∈ kept) →
      (∃ range ∈ ranges, range.1 ≤ (r : Int) ∧ (r : Int) ≤ range.2) → Stored parts.flatten key r) ∧
    (∀ row ∈ parts.flatten, Located row) ∧
    ∀ row ∈ parts.flatten, ∃ old ∈ segments, old.segmentNo = row.segmentNo := by
  refine ⟨?_, ?_, ?_⟩
  · rintro key r stored committed alive ⟨range, ranged, low, high⟩
    obtain ⟨part, listed, one⟩ := mapM_ok_left run range ranged
    obtain ⟨row, here, posted⟩ := (repackRange_repacked located one).stored key r stored committed alive low high
    exact ⟨row, List.mem_flatten.mpr ⟨part, listed, here⟩, posted⟩
  · intro row listed
    obtain ⟨part, parted, here⟩ := List.mem_flatten.mp listed
    obtain ⟨range, _, one⟩ := mapM_ok_right run part parted
    exact (repackRange_repacked located one).located row here
  · intro row listed
    obtain ⟨part, parted, here⟩ := List.mem_flatten.mp listed
    obtain ⟨range, _, one⟩ := mapM_ok_right run part parted
    exact (repackRange_repacked located one).segments row here

end Repacked

section Ranges

theorem least_le {values : List Int} {v : Int} (listed : v ∈ values) (other : Int) :
    values.min?.getD other ≤ v := by
  cases least : values.min? with
  | none => simp [List.min?_eq_none_iff.mp least] at listed
  | some m => exact (List.min?_eq_some_iff.mp least).2 v listed

theorem le_greatest {values : List Int} {v : Int} (listed : v ∈ values) (other : Int) :
    v ≤ values.max?.getD other := by
  cases greatest : values.max? with
  | none => simp [List.max?_eq_none_iff.mp greatest] at listed
  | some m => exact (List.max?_eq_some_iff.mp greatest).2 v listed

/-- The ranges that a compaction reads off a segments table hold every rowid of its
    segments. -/
theorem compaction_ranges_cover {segments : List PostingRow} {row : PostingRow} (listed : row ∈ segments)
    {r : Nat} (in_segment : row.segmentNo = (r / segmentRows : Nat)) (partitions : Nat) :
    ∃ range ∈ segmentAlignedRanges (((segments.map SegmentRow.segmentNo).min?.getD 0) * segmentRows)
        (((segments.map SegmentRow.segmentNo).max?.getD (-1) + 1) * segmentRows - 1) partitions false,
      range.1 ≤ (r : Int) ∧ (r : Int) ≤ range.2 := by
  have low := least_le (List.mem_map_of_mem (f := SegmentRow.segmentNo) listed) 0
  have high := le_greatest (List.mem_map_of_mem (f := SegmentRow.segmentNo) listed) (-1)
  refine segmentAlignedRanges_cover ?_ ?_
  · simp only [segmentRows_eq]
    simp only [segmentRows, segmentShift] at in_segment
    omega
  · simp only [segmentRows_eq]
    simp only [segmentRows, segmentShift] at in_segment
    simp only [Bool.false_eq_true, if_false]
    omega

theorem rangesFrom_begin {lo hi openEnd firstSegment lastSegment perPartition : Int} (order : lo ≤ hi) (last : lastSegment = hi / segmentRows) (fuel : Nat) (segment : Int) :
    ∀ range ∈ rangesFrom lo openEnd firstSegment lastSegment perPartition fuel segment, range.1 ≤ hi := by
  induction fuel generalizing segment with
  | zero => simp [rangesFrom]
  | succ fuel ih =>
    rw [rangesFrom]
    split
    · simp
    · refine List.forall_mem_cons.mpr ⟨?_, ih (segment + perPartition)⟩
      simp only [segmentRows_eq] at *
      split <;> omega

theorem lakeRanges_cover {hi r : Int} (partitions : Nat) (low : 0 ≤ r) (committed : r < lakeProvisionalRowid) :
    ∃ range ∈ lakeRanges 0 hi partitions, range.1 ≤ r ∧ r ≤ range.2 := by
  have begins : ∀ range ∈ segmentAlignedRanges 0 (max hi 0) partitions false, range.1 ≤ max hi 0 := by
    simp only [segmentAlignedRanges]
    split
    · simp
    · exact rangesFrom_begin (by omega) rfl _ _
  obtain ⟨first, some_range, _⟩ := @segmentAlignedRanges_cover 0 (max hi 0) 0 partitions false (by omega) (by simp)
  have nonempty := List.ne_nil_of_mem some_range
  obtain ⟨front, last, split⟩ := (List.eq_nil_or_concat' _).resolve_left nonempty
  have ranges_eq : lakeRanges 0 hi partitions = front ++ [(last.1, (lakeProvisionalRowid : Int) - 1)] := by
    simp [lakeRanges, split]
  rw [ranges_eq]
  have open_end (reached : last.1 ≤ r) : ∃ range ∈ front ++ [(last.1, (lakeProvisionalRowid : Int) - 1)],
      range.1 ≤ r ∧ r ≤ range.2 :=
    ⟨_, List.mem_append_right _ (List.mem_singleton_self _), reached, by simp only; omega⟩
  by_cases beyond : r ≤ max hi 0
  · obtain ⟨range, listed, bounds⟩ := @segmentAlignedRanges_cover 0 (max hi 0) r partitions false low beyond
    rw [split] at listed
    rcases List.mem_append.mp listed with in_front | at_end
    · exact ⟨range, List.mem_append_left _ in_front, bounds⟩
    · obtain rfl := List.mem_singleton.mp at_end
      exact open_end bounds.1
  · have start := begins last (split ▸ List.mem_append_right _ (List.mem_singleton_self _))
    exact open_end (by omega)

end Ranges
end NgramLake
