import NgramIndex.Compaction

/- Segment rows as packing writes them. A packed row is determined by its key,
   its segment and its rowids, so a list of rows with one row for each key of a
   segment is determined, up to order, by what it posts. -/
namespace NgramSegmentRows
open AscendingLists NgramPostings NgramPackSegment NgramProbe NgramMaintenance Fallible
open scoped List
variable {Text Key : Type} {hwm : Int}

/-- The stored columns but for the generation. -/
structure SegmentContent (Key : Type) where
  gramKey : Key
  segmentNo : Int
  postings : List UInt8
  rowidCount : Int
  minRowid : Int
  maxRowid : Int
  deriving DecidableEq, Repr

def content (row : SegmentRow Key) : SegmentContent Key :=
  ⟨row.gramKey, row.segmentNo, row.postings, row.rowidCount, row.minRowid, row.maxRowid⟩

structure Held (hwm : Int) (row : SegmentRow Key) : Prop where
  written : row =
    writtenRow row.postingRowid row.gramKey row.segmentNo.toNat row.generation.toNat row.rowids
  ascending : Ascending row.rowids
  nonempty : row.rowids ≠ []
  inside : ∀ r ∈ row.rowids, r / segmentRows = row.segmentNo.toNat ∧ (r : Int) ≤ hwm

def rowKey (row : SegmentRow Key) : Key × Int := (row.gramKey, row.segmentNo)

def UniqueKeys (rows : List (SegmentRow Key)) : Prop := (rows.map rowKey).Nodup

instance [DecidableEq Key] (rows : List (SegmentRow Key)) : Decidable (UniqueKeys rows) :=
  inferInstanceAs (Decidable (List.Nodup _))

theorem held_segment {row : SegmentRow Key} (held : Held hwm row) : row.segmentNo = row.segmentNo.toNat :=
  congrArg SegmentRow.segmentNo held.written

theorem held_mono {mark : Int} {row : SegmentRow Key} (held : Held hwm row) (below : hwm ≤ mark) :
    Held mark row where
  written := held.written
  ascending := held.ascending
  nonempty := held.nonempty
  inside r posted := ⟨(held.inside r posted).1, (held.inside r posted).2.trans below⟩

theorem held_truthful {row : SegmentRow Key} (mark : hwm < 2 ^ 63) (held : Held hwm row) :
    Truthful hwm row row.rowids := by
  rw [held.written]
  exact writtenRow_truthful _ _ _ mark held.ascending held.nonempty held.inside

theorem held_stored {row : SegmentRow Key} (held : Held hwm row) (posting : Nat) (generation : Nat) :
    Held hwm { row with postingRowid := posting, generation := generation } where
  written := by
    have written := held.written
    have numbered : (generation : Int) = ((generation : Int).toNat : Nat) := rfl
    exact SegmentRow.mk.injEq .. ▸ ⟨rfl, rfl, held_segment held, numbered,
      congrArg SegmentRow.postings written, congrArg SegmentRow.rowidCount written,
      congrArg SegmentRow.minRowid written, congrArg SegmentRow.maxRowid written⟩
  ascending := held.ascending
  nonempty := held.nonempty
  inside := held.inside

theorem content_eq {a b : SegmentRow Key} {other : Int} (held_a : Held hwm a) (held_b : Held other b)
    (key : rowKey a = rowKey b) (rowids : a.rowids = b.rowids) : content a = content b := by
  obtain ⟨gram, segment⟩ := Prod.mk.inj key
  rw [held_a.written, held_b.written, rowids, gram, segment]
  rfl

theorem unique_row {rows : List (SegmentRow Key)} (unique : UniqueKeys rows) {a b : SegmentRow Key}
    (in_a : a ∈ rows) (in_b : b ∈ rows) (same : rowKey a = rowKey b) : a = b :=
  List.inj_on_of_nodup_map unique in_a in_b same

theorem posted_row {rows : List (SegmentRow Key)} (held : ∀ row ∈ rows, Held hwm row) {key : Key} {r : Nat}
    (posted : Posted rows key r) :
    ∃ row ∈ rows, rowKey row = (key, ((r / segmentRows : Nat) : Int)) ∧ r ∈ row.rowids := by
  obtain ⟨row, present, rfl, inRow⟩ := posted
  refine ⟨row, present, ?_, inRow⟩
  rw [rowKey, held_segment (held row present), ((held row present).inside r inRow).1]

theorem rowids_of_posted {a b : List (SegmentRow Key)} {other : Int} (held_a : ∀ row ∈ a, Held hwm row)
    (held_b : ∀ row ∈ b, Held other row) (unique : UniqueKeys b)
    (same : ∀ key r, Posted a key r → Posted b key r) {row : SegmentRow Key} (present : row ∈ a) :
    ∃ twin ∈ b, rowKey row = rowKey twin ∧ ∀ r ∈ row.rowids, r ∈ twin.rowids := by
  have located : ∀ r ∈ row.rowids, ∃ twin ∈ b, rowKey row = rowKey twin ∧ r ∈ twin.rowids := by
    intro r inRow
    obtain ⟨twin, found, key, inTwin⟩ := posted_row held_b (same row.gramKey r ⟨row, present, rfl, inRow⟩)
    refine ⟨twin, found, ?_, inTwin⟩
    rw [key, rowKey, held_segment (held_a row present), ((held_a row present).inside r inRow).1]
  obtain ⟨first, listed⟩ := List.exists_mem_of_ne_nil _ (held_a row present).nonempty
  obtain ⟨twin, found, key, _⟩ := located first listed
  refine ⟨twin, found, key, ?_⟩
  intro r inRow
  obtain ⟨other, there, key', inOther⟩ := located r inRow
  rwa [unique_row unique found there (key.symm.trans key')]

theorem contents_nodup {rows : List (SegmentRow Key)} (unique : UniqueKeys rows) :
    (rows.map content).Nodup := by
  have keys : rows.map rowKey = (rows.map content).map fun c => (c.gramKey, c.segmentNo) := by
    rw [List.map_map]
    rfl
  rw [UniqueKeys, keys] at unique
  exact unique.of_map _

structure Packed (hwm : Int) (rows : List (SegmentRow Key)) : Prop where
  held : ∀ row ∈ rows, Held hwm row
  unique : UniqueKeys rows

theorem contents_perm {a b : List (SegmentRow Key)} {other : Int} (left : Packed hwm a)
    (right : Packed other b) (same : ∀ key r, Posted a key r ↔ Posted b key r) :
    a.map content ~ b.map content := by
  have half : ∀ {a b : List (SegmentRow Key)} {hwm other : Int}, Packed hwm a → Packed other b →
      (∀ key r, Posted a key r ↔ Posted b key r) → ∀ c ∈ a.map content, c ∈ b.map content := by
    intro a b hwm other left right same c listed
    obtain ⟨row, present, rfl⟩ := List.mem_map.mp listed
    obtain ⟨twin, found, key, sub⟩ :=
      rowids_of_posted left.held right.held right.unique (fun key r => (same key r).mp) present
    obtain ⟨back, there, key', sup⟩ :=
      rowids_of_posted right.held left.held left.unique (fun key r => (same key r).mpr) found
    obtain rfl : back = row := unique_row left.unique there present (key'.symm.trans key.symm)
    have rowids : back.rowids = twin.rowids :=
      ascending_ext (left.held back present).ascending (right.held twin found).ascending
        fun r => ⟨sub r, sup r⟩
    rw [content_eq (left.held back present) (right.held twin found) key rowids]
    exact List.mem_map_of_mem found
  apply (List.perm_ext_iff_of_nodup (contents_nodup left.unique) (contents_nodup right.unique)).mpr
  intro c
  exact ⟨half left right same c, half right left (fun key r => (same key r).symm) c⟩

/-- The first range ends in a segment before the one in which the second starts. -/
def Apart (a b : Int × Int) : Prop := a.2 / segmentRows < b.1 / segmentRows

section Packing
variable [DecidableEq Key]

theorem rangesFrom_starts {lo openEnd firstSegment lastSegment perPartition : Int} (step : 1 ≤ perPartition)
    (low : firstSegment = lo / segmentRows) (fuel : Nat) (segment : Int) (later : firstSegment ≤ segment) :
    ∀ range ∈ rangesFrom lo openEnd firstSegment lastSegment perPartition fuel segment,
      segment ≤ range.1 / segmentRows := by
  induction fuel generalizing segment with
  | zero => simp [rangesFrom]
  | succ fuel ih =>
    rw [rangesFrom]
    split
    · simp
    · intro range listed
      rcases List.mem_cons.mp listed with rfl | beyond
      · simp only [segmentRows_eq] at low ⊢
        split <;> omega
      · have after := ih (segment + perPartition) (by omega) range beyond
        omega

theorem rangesFrom_apart {lo openEnd firstSegment lastSegment perPartition : Int} (step : 1 ≤ perPartition)
    (low : firstSegment = lo / segmentRows) (fuel : Nat) (segment : Int) (later : firstSegment ≤ segment) :
    (rangesFrom lo openEnd firstSegment lastSegment perPartition fuel segment).Pairwise Apart := by
  induction fuel generalizing segment with
  | zero => simp [rangesFrom]
  | succ fuel ih =>
    rw [rangesFrom]
    split
    · simp
    · apply List.pairwise_cons.mpr
      refine ⟨?_, ih (segment + perPartition) (by omega)⟩
      intro range beyond
      have starts := rangesFrom_starts step low fuel _ (by omega) range beyond
      by_cases final : lastSegment ≤ segment + perPartition - 1
      · -- the range that reaches the last segment is the last
        cases fuel with
        | zero => simp [rangesFrom] at beyond
        | succ fuel =>
          rw [rangesFrom, if_pos (by omega)] at beyond
          simp at beyond
      · simp only [Apart, if_neg final, segmentRows_eq] at starts ⊢
        omega

theorem segmentAlignedRanges_apart (lo hi : Int) (partitions : Nat) (openEnded : Bool) :
    (segmentAlignedRanges lo hi partitions openEnded).Pairwise Apart := by
  simp only [segmentAlignedRanges]
  split
  · simp
  · exact rangesFrom_apart (by omega) rfl _ _ (Int.le_refl _)

theorem packPartition_packed {pairs : List (Key × Nat)} (mark : hwm < 2 ^ 63)
    (below : ∀ pair ∈ pairs, (pair.2 : Int) ≤ hwm) : Packed hwm (packPartition pairs) := by
  have bounded : ∀ pair ∈ pairs, pair.2 ≤ int64Max := by
    intro pair present
    have low := below pair present
    simp only [int64Max]
    omega
  constructor
  · intro row present
    obtain ⟨group, listed, rfl⟩ := List.mem_map.mp present
    have rowids := packed_rowids bounded group
    constructor
    · rw [rowids]
      rfl
    · rw [rowids]
      exact sortUnique_ascending _
    · rw [rowids]
      obtain ⟨pair, in_pairs, rfl⟩ := List.mem_map.mp (List.mem_dedup.mp listed)
      apply List.ne_nil_of_mem
      exact mem_sortUnique.mpr (mem_groupRowids.mpr ⟨in_pairs, rfl⟩)
    · intro r posted
      rw [rowids] at posted
      obtain ⟨in_pairs, segment⟩ := mem_groupRowids.mp (mem_sortUnique.mp posted)
      exact ⟨segment, below _ in_pairs⟩
  · have keys : (packPartition pairs).map rowKey =
        (packGroups pairs).map fun group => (group.1, (group.2 : Int)) := by
      rw [packPartition, List.map_map]
      rfl
    rw [UniqueKeys, keys]
    apply (List.nodup_dedup _).map
    intro a b same
    obtain ⟨gram, segment⟩ := Prod.mk.inj same
    exact Prod.ext gram (Int.ofNat.inj segment)

theorem packed_flatMap {sources : List (List (Key × Nat))} (mark : hwm < 2 ^ 63)
    (below : ∀ pairs ∈ sources, ∀ pair ∈ pairs, (pair.2 : Int) ≤ hwm)
    (apart : sources.Pairwise fun a b => ∀ x ∈ a, ∀ y ∈ b, x.2 / segmentRows < y.2 / segmentRows) :
    Packed hwm (sources.flatMap packPartition) := by
  constructor
  · intro row present
    obtain ⟨pairs, listed, in_partition⟩ := List.mem_flatMap.mp present
    exact (packPartition_packed mark (below pairs listed)).held row in_partition
  · rw [UniqueKeys, List.map_flatMap]
    apply List.nodup_flatMap.mpr
    constructor
    · intro pairs listed
      exact (packPartition_packed mark (below pairs listed)).unique
    · apply apart.imp
      intro a b disjoint key in_a in_b
      obtain ⟨row, packed_a, rfl⟩ := List.mem_map.mp in_a
      obtain ⟨twin, packed_b, same⟩ := List.mem_map.mp in_b
      obtain ⟨group, listed, rfl⟩ := List.mem_map.mp packed_a
      obtain ⟨other, there, rfl⟩ := List.mem_map.mp packed_b
      obtain ⟨x, in_x, rfl⟩ := List.mem_map.mp (List.mem_dedup.mp listed)
      obtain ⟨y, in_y, rfl⟩ := List.mem_map.mp (List.mem_dedup.mp there)
      have segments : ((y.2 / segmentRows : Nat) : Int) = (x.2 / segmentRows : Nat) :=
        congrArg Prod.snd same
      have before := disjoint x in_x y in_y
      omega

theorem packRanges_sources (gramKeys : Text → List Key) (base : List (BaseRow Text)) (ranges : List (Int × Int)) :
    packRanges gramKeys base ranges = (ranges.map (rangePairs gramKeys base)).flatMap packPartition := by
  rw [List.flatMap_map]
  rfl

theorem packRanges_packed {gramKeys : Text → List Key} {base : List (BaseRow Text)}
    {ranges : List (Int × Int)} (mark : hwm < 2 ^ 63) (below : ∀ range ∈ ranges, range.2 ≤ hwm)
    (apart : ranges.Pairwise Apart) : Packed hwm (packRanges gramKeys base ranges) := by
  rw [packRanges_sources]
  apply packed_flatMap mark
  · intro pairs listed pair present
    obtain ⟨range, in_ranges, rfl⟩ := List.mem_map.mp listed
    obtain ⟨_, _, _, _, _, _, _, high⟩ := mem_rangePairs.mp present
    exact high.trans (below range in_ranges)
  · apply List.pairwise_map.mpr
    apply apart.imp
    intro a b before x in_x y in_y
    obtain ⟨_, _, _, _, _, _, _, high⟩ := mem_rangePairs.mp in_x
    obtain ⟨_, _, _, _, _, _, low, _⟩ := mem_rangePairs.mp in_y
    have last := (segment_of_rowid (le_refl _) high).2
    have first := (segment_of_rowid low (le_refl _)).1
    unfold Apart at before
    omega

omit [DecidableEq Key] in
theorem source_segment {script : CompactScript} {selected : List (SegmentRow Key)} {live : List Nat}
    {range : Int × Int} {pairs : List (Key × Nat)}
    (run : compactPairs script selected live range = .ok pairs) {pair : Key × Nat} (present : pair ∈ pairs) :
    range.1 / segmentRows ≤ (pair.2 / segmentRows : Nat) ∧
      ((pair.2 / segmentRows : Nat) : Int) ≤ range.2 / segmentRows ∧ (pair.2 : Int) ≤ script.hwm := by
  obtain ⟨listed, located⟩ := compactPairs_ok run pair.1 pair.2
  obtain ⟨⟨row, chosen, _, posted, first, last⟩, _⟩ := listed.mp present
  obtain ⟨segment, below⟩ := located row chosen first last posted
  rw [segment]
  exact ⟨first, last, below⟩

theorem compact_packed {script : CompactScript} {selected : List (SegmentRow Key)} {live : List Nat}
    {sources : List (List (Key × Nat))} (mark : script.hwm < 2 ^ 63)
    (run : (segmentAlignedRanges 0 script.hwm script.partitions false).mapM
      (compactPairs script selected live) = .ok sources) :
    Packed script.hwm (sources.flatMap packPartition) := by
  apply packed_flatMap mark
  · intro pairs listed pair present
    obtain ⟨range, _, decoded⟩ := mapM_ok_right run pairs listed
    exact (source_segment decoded present).2.2
  · apply mapM_pairwise ?_ run (segmentAlignedRanges_apart _ _ _ _)
    intro a left b right before decoded_a decoded_b x in_x y in_y
    have last := (source_segment decoded_a in_x).2.1
    have first := (source_segment decoded_b in_y).1
    unfold Apart at before
    omega

omit [DecidableEq Key] in
theorem stamp_contents (first generation : Nat) (packed : List (SegmentRow Key)) :
    (stamp first generation packed).map content = packed.map content := by
  apply List.ext_getElem
  · simp [stamp]
  · intro i _ _
    simp [stamp, content]

theorem compacted_contents (keys : List (Key × Int)) (sources : List (List (Key × Nat)))
    (index : IndexState Key) : (compacted keys sources index).segments.map content =
      (index.segments.filter fun row => !ofKeys keys row).map content ++
        (sources.flatMap packPartition).map content := by
  rw [← stamp_contents index.nextPosting 0 (sources.flatMap packPartition), ← List.map_append]
  unfold compacted
  rw [List.map_map]
  rfl

end Packing

end NgramSegmentRows
