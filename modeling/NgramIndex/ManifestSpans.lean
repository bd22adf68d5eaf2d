import Mathlib.Data.List.Flatten
import NgramIndex.DisjointSpans
import NgramIndex.ProbeIntersection
import NgramIndex.Storage

/- Reading the segments-table rows of one key. The key column's segments whose
   zone maps admit the key are widened to vector boundaries and joined into spans
   of rowids, and bounded scans of the spans read the committed rows of the key.
   The scans have no lower bound on the rowid: a span begins on a vector boundary. -/
namespace NgramManifestSpans
open DisjointSpans NgramStorage
open NgramProbe
variable {Key : Type}

structure ColumnSegment (Key : Type) where
  count : Nat
  excludes : Key → Bool

/-- A row group of the segments table with its key column. A column of which no
    segment holds the key may be excluded as a whole. -/
structure KeyGroup (Key : Type) where
  group : RowGroup (SegmentRow Key)
  segments : List (ColumnSegment Key)
  excludes : Key → Bool
  partition : (segments.map ColumnSegment.count).sum = group.count

/-- The part of a span that a column segment adds, in whole vectors of its row group. -/
def segmentSpan (rowGroupStart rowGroupEnd offset : Nat) (key : Key) (segment : ColumnSegment Key) :
    Option (Nat × Nat) :=
  if segment.count = 0 then none
  else if segment.excludes key then none
  else
    let start := rowGroupStart + offset - offset % standardVectorSize
    let last := offset + segment.count
    let finish := min (rowGroupStart +
      (last + standardVectorSize - 1) / standardVectorSize * standardVectorSize) rowGroupEnd
    if finish ≤ start then none else some (start, finish)

def addSegments (rowGroupStart rowGroupEnd : Nat) (key : Key) :
    Nat → List (ColumnSegment Key) → List (Nat × Nat) → List (Nat × Nat)
  | _, [], spans => spans
  | offset, segment :: rest, spans =>
      addSegments rowGroupStart rowGroupEnd key (offset + segment.count) rest
        (match segmentSpan rowGroupStart rowGroupEnd offset key segment with
        | none => spans
        | some (start, finish) => addSpan spans start finish)

def admittedKeySpans (key : Key) (spans : List (Nat × Nat)) (g : KeyGroup Key) : List (Nat × Nat) :=
  if g.excludes key then spans
  else addSegments g.group.start g.group.finish key 0 g.segments spans

structure KeyTable (Key : Type) where
  table : DataTable (SegmentRow Key)
  groups : List (KeyGroup Key)
  same : groups.map KeyGroup.group = table.rowGroups

def KeyTable.spans (t : KeyTable Key) (key : Key) : List (Nat × Nat) :=
  t.groups.foldl (admittedKeySpans key) []

def segmentAt : Nat → List (ColumnSegment Key) → Option (ColumnSegment Key)
  | _, [] => none
  | row, segment :: rest => if row < segment.count then some segment else segmentAt (row - segment.count) rest

section Pieces
variable {key : Key} {first last : Nat}

def segmentPieces (rowGroupStart rowGroupEnd : Nat) (key : Key) : Nat → List (ColumnSegment Key) → List (Nat × Nat)
  | _, [] => []
  | offset, segment :: rest =>
      (segmentSpan rowGroupStart rowGroupEnd offset key segment).toList ++
        segmentPieces rowGroupStart rowGroupEnd key (offset + segment.count) rest

def groupPieces (key : Key) (g : KeyGroup Key) : List (Nat × Nat) :=
  if g.excludes key then [] else segmentPieces g.group.start g.group.finish key 0 g.segments

theorem addSegments_pieces (offset : Nat) (segments : List (ColumnSegment Key)) (spans : List (Nat × Nat)) :
    addSegments first last key offset segments spans =
      (segmentPieces first last key offset segments).foldl (fun spans piece => addSpan spans piece.1 piece.2)
        spans := by
  induction segments generalizing offset spans with
  | nil => rfl
  | cons segment rest ih =>
    rw [addSegments, segmentPieces, ih, List.foldl_append]
    cases segmentSpan first last offset key segment <;> rfl

theorem spans_pieces (t : KeyTable Key) (key : Key) :
    t.spans key = mergeSpans (t.groups.flatMap (groupPieces key)) := by
  rw [KeyTable.spans, mergeSpans, List.foldl_flatMap]
  congr 1
  funext spans g
  unfold admittedKeySpans groupPieces
  split
  · rfl
  · exact addSegments_pieces 0 g.segments spans

theorem segmentSpan_some {offset : Nat} {segment : ColumnSegment Key} {piece : Nat × Nat}
    (added : segmentSpan first last offset key segment = some piece) :
    piece.1 = first + offset - offset % standardVectorSize ∧ piece.1 < piece.2 ∧ piece.2 ≤ last := by
  simp only [segmentSpan] at added
  split_ifs at added with empty excluded
  cases added
  exact ⟨rfl, by simp only; omega, Nat.min_le_right _ _⟩

theorem segmentPieces_place {offset : Nat} {segments : List (ColumnSegment Key)} {piece : Nat × Nat}
    (added : piece ∈ segmentPieces first last key offset segments) :
    first + offset - offset % standardVectorSize ≤ piece.1 ∧ piece.1 < piece.2 ∧ piece.2 ≤ last ∧
      standardVectorSize ∣ piece.1 - first := by
  induction segments generalizing offset with
  | nil => cases added
  | cons segment rest ih =>
    rw [segmentPieces, List.mem_append] at added
    unfold standardVectorSize at *
    rcases added with here | later
    · obtain ⟨start, nonempty, inside⟩ := segmentSpan_some (Option.mem_toList.mp here)
      unfold standardVectorSize at start
      exact ⟨by omega, nonempty, inside, by omega⟩
    · obtain ⟨start, rest_facts⟩ := ih later
      exact ⟨by omega, rest_facts⟩

theorem segmentPieces_ordered (offset : Nat) (segments : List (ColumnSegment Key)) :
    (segmentPieces first last key offset segments).Pairwise fun a b => a.1 ≤ b.1 := by
  induction segments generalizing offset with
  | nil => exact List.Pairwise.nil
  | cons segment rest ih =>
    rw [segmentPieces, List.pairwise_append]
    refine ⟨?_, ih _, ?_⟩
    · cases segmentSpan first last offset key segment with
      | none => exact List.Pairwise.nil
      | some piece => exact List.pairwise_singleton _ _
    · intro piece here other later
      have start := (segmentSpan_some (Option.mem_toList.mp here)).1
      have past := (segmentPieces_place later).1
      unfold standardVectorSize at *
      omega

theorem segmentPieces_cover {offset row : Nat} {segments : List (ColumnSegment Key)}
    {segment : ColumnSegment Key} (whole : first + offset + (segments.map ColumnSegment.count).sum ≤ last)
    (held : segmentAt row segments = some segment) (admitted : segment.excludes key = false) :
    Covers (segmentPieces first last key offset segments) (first + offset + row) := by
  induction segments generalizing offset row with
  | nil => cases held
  | cons head rest ih =>
    rw [List.map_cons, List.sum_cons] at whole
    rw [segmentPieces, covers_append]
    rw [segmentAt] at held
    split at held
    · rename_i here
      cases held
      apply Or.inl
      have added : segmentSpan first last offset key segment = some (first + offset - offset % standardVectorSize,
          min (first + (offset + segment.count + standardVectorSize - 1) / standardVectorSize *
            standardVectorSize) last) := by
        unfold segmentSpan
        rw [if_neg (by omega), admitted, if_neg (by simp), if_neg]
        unfold standardVectorSize
        omega
      rw [added, Option.toList_some, covers_single]
      unfold Inside standardVectorSize
      simp only
      omega
    · rename_i past
      have behind : first + (offset + head.count) + (rest.map ColumnSegment.count).sum ≤ last := by omega
      have later := ih behind held
      rw [show first + (offset + head.count) + (row - head.count) = first + offset + row by omega] at later
      exact Or.inr later

theorem segmentAt_some {row : Nat} {segments : List (ColumnSegment Key)}
    (inside : row < (segments.map ColumnSegment.count).sum) : ∃ segment, segmentAt row segments = some segment := by
  induction segments generalizing row with
  | nil => cases inside
  | cons head rest ih =>
    rw [List.map_cons, List.sum_cons] at inside
    rw [segmentAt]
    split
    · exact ⟨head, rfl⟩
    · exact ih (by omega)

theorem groupPieces_place {g : KeyGroup Key} {piece : Nat × Nat} (added : piece ∈ groupPieces key g) :
    g.group.start ≤ piece.1 ∧ piece.1 < piece.2 ∧ piece.2 ≤ g.group.finish ∧
      standardVectorSize ∣ piece.1 - g.group.start := by
  unfold groupPieces at added
  split at added
  · cases added
  · obtain ⟨start, facts⟩ := segmentPieces_place added
    rw [Nat.zero_mod] at start
    exact ⟨by omega, facts⟩

theorem groupPieces_cover {g : KeyGroup Key} {row : Nat} {segment : ColumnSegment Key}
    (column : g.excludes key = false) (held : segmentAt row g.segments = some segment)
    (admitted : segment.excludes key = false) : Covers (groupPieces key g) (g.group.start + row) := by
  unfold groupPieces
  rw [column, if_neg (by simp)]
  apply segmentPieces_cover _ held admitted
  rw [g.partition, Nat.add_zero]
  exact Nat.le_refl _

def ZoneMapsSound (t : KeyTable Key) (key : Key) : Prop :=
  ∀ g ∈ t.groups, ∀ entry ∈ g.group.visible, entry.2.gramKey = key →
    g.excludes key = false ∧ ∀ segment ∈ segmentAt (entry.1 - g.group.start) g.segments, segment.excludes key = false

theorem spans_merged (t : KeyTable Key) (key : Key) :
    Merged (t.groups.flatMap (groupPieces key)) (t.spans key) := by
  rw [spans_pieces]
  apply mergeSpans_merged
  · intro piece added
    obtain ⟨g, _, of_group⟩ := List.mem_flatMap.mp added
    exact (groupPieces_place of_group).2.1
  · rw [List.pairwise_flatMap]
    constructor
    · intro g _
      unfold groupPieces
      split
      · exact List.Pairwise.nil
      · exact segmentPieces_ordered 0 g.segments
    · have ascending := t.table.ascending
      rw [← t.same, List.pairwise_map] at ascending
      apply ascending.imp
      intro a b apart piece here other there
      have left := groupPieces_place here
      have right := groupPieces_place there
      omega

/-- A span begins on a vector boundary of a row group that reaches past it. -/
def Aligned (t : DataTable (SegmentRow Key)) (start : Nat) : Prop :=
  ∃ g ∈ t.rowGroups, g.start ≤ start ∧ start < g.finish ∧ standardVectorSize ∣ start - g.start

theorem spans_aligned (t : KeyTable Key) {span : Nat × Nat} (listed : span ∈ t.spans key) :
    Aligned t.table span.1 := by
  obtain ⟨piece, added, same⟩ := (spans_merged t key).starts span listed
  obtain ⟨g, stored, of_group⟩ := List.mem_flatMap.mp added
  obtain ⟨start, nonempty, finish, boundary⟩ := groupPieces_place of_group
  rw [same] at start nonempty boundary
  refine ⟨g.group, ?_, start, by omega, boundary⟩
  rw [← t.same]
  exact List.mem_map_of_mem stored

theorem spans_inside (t : KeyTable Key) {r : Nat} (covered : Covers (t.spans key) r) :
    ∃ g ∈ t.table.rowGroups, g.numbers r = true := by
  obtain ⟨piece, added, within⟩ := ((spans_merged t key).covers r).mp covered
  obtain ⟨g, stored, of_group⟩ := List.mem_flatMap.mp added
  obtain ⟨start, _, finish, _⟩ := groupPieces_place of_group
  unfold Inside at within
  refine ⟨g.group, ?_, decide_eq_true ⟨by omega, by omega⟩⟩
  rw [← t.same]
  exact List.mem_map_of_mem stored

theorem spans_cover (t : KeyTable Key) {g : KeyGroup Key} (stored : g ∈ t.groups)
    (column : g.excludes key = false) {row : Nat} {segment : ColumnSegment Key}
    (held : segmentAt row g.segments = some segment) (admitted : segment.excludes key = false) :
    Covers (t.spans key) (g.group.start + row) := by
  rw [(spans_merged t key).covers]
  obtain ⟨piece, added, within⟩ := groupPieces_cover column held admitted
  exact ⟨piece, List.mem_flatMap.mpr ⟨g, stored, added⟩, within⟩

theorem key_covered {t : KeyTable Key} (sound : ZoneMapsSound t key) {entry : Nat × SegmentRow Key}
    (present : entry ∈ t.table.visible) (of_key : entry.2.gramKey = key) :
    Covers (t.spans key) entry.1 := by
  unfold DataTable.visible visibleRows at present
  rw [← t.same] at present
  obtain ⟨group, stored, inside⟩ := List.mem_flatMap.mp present
  obtain ⟨g, listed, rfl⟩ := List.mem_map.mp stored
  have bounds := RowGroup.visible_bounds inside
  unfold RowGroup.finish at bounds
  obtain ⟨column, segments⟩ := sound g listed entry inside of_key
  have place : entry.1 - g.group.start < (g.segments.map ColumnSegment.count).sum := by
    rw [g.partition]
    omega
  obtain ⟨segment, held⟩ := segmentAt_some place
  have covered := spans_cover t listed column held (segments segment held)
  rw [show g.group.start + (entry.1 - g.group.start) = entry.1 by omega] at covered
  exact covered

end Pieces

/-- InitializeBoundedScan and the scan it positions, without a rowid filter: the
    rows of the vectors it visits, before the key filter drops any. -/
def visitSpan (t : DataTable (SegmentRow Key)) (filters : ScanFilters (SegmentRow Key)) (span : Nat × Nat) :
    List (Nat × SegmentRow Key) :=
  match seekRowGroup span.1 t.rowGroups with
  | [] => []
  | g :: rest =>
      let vectorIndex := if span.1 ≤ g.start then 0 else (span.1 - g.start) / standardVectorSize
      scanRowGroups filters span.1 span.2 vectorIndex (g :: rest)

/-- A scan that begins on a vector boundary visits no row before its start. -/
theorem visitSpan_inside {t : DataTable (SegmentRow Key)} {filters : ScanFilters (SegmentRow Key)} {span : Nat × Nat}
    (aligned : Aligned t span.1) :
    (visitSpan t filters span).Sublist t.visible ∧
      (∀ entry ∈ visitSpan t filters span, Inside span entry.1) ∧
      ((visitSpan t filters span).filter fun entry => filters.passes entry.2) =
        t.visible.filter (scanned filters span.1 span.2) := by
  obtain ⟨g, stored, low, high, vectors, same⟩ := aligned
  obtain ⟨rest, seek, after⟩ := seek_lands t.ascending stored low high
  have sub : (g :: rest).Sublist t.rowGroups := by
    rw [← seek]
    exact List.dropWhile_sublist _
  obtain ⟨first, starts, visits⟩ : ∃ first, g.start + first * standardVectorSize = span.1 ∧
      visitSpan t filters span = scanRowGroups filters span.1 span.2 first (g :: rest) := by
    refine ⟨if span.1 ≤ g.start then 0 else (span.1 - g.start) / standardVectorSize, ?_, ?_⟩
    · split
      · omega
      · rw [same, Nat.mul_div_cancel_left _ (by decide), Nat.mul_comm]
        omega
    · rw [visitSpan, seek]
  have reaches : ∀ entry ∈ visitSpan t filters span, span.1 ≤ entry.1 := by
    intro entry visited
    rw [visits, scanRowGroups] at visited
    have later : ∀ vectorIndex, entry ∈ scanRowGroups filters span.1 span.2 vectorIndex rest →
        span.1 ≤ entry.1 := by
      intro vectorIndex found
      have listed := (scanRowGroups_sublist _ _ _ _ _).subset found
      obtain ⟨other, in_rest, inside⟩ := List.mem_flatMap.mp listed
      have apart := after other in_rest
      have bounds := RowGroup.visible_bounds inside
      omega
    split_ifs at visited with past excluded
    · cases visited
    · exact later 0 visited
    · rcases List.mem_append.mp visited with here | found
      · have bounds := visibleFrom_bounds (List.mem_of_mem_filter here)
        omega
      · exact later 0 found
  refine ⟨?_, ?_, ?_⟩
  · rw [visits]
    exact (scanRowGroups_sublist _ _ _ _ _).trans (sub.flatMap _)
  · intro entry visited
    refine ⟨reaches entry visited, ?_⟩
    rw [visits] at visited
    exact scanRowGroups_below visited
  · have bounded : (visitSpan t filters span).filter (fun entry =>
        decide (span.1 ≤ entry.1) && filters.passes entry.2) =
          t.boundedScan filters span.1 span.2 := by
      rw [visitSpan, DataTable.boundedScan, seek]
    rw [← boundedScan_eq, ← bounded]
    apply List.filter_congr
    intro entry visited
    simp [reaches entry visited]

section Scans
variable [DecidableEq Key]

/-- The row groups that a scan skips under the equality filter of a key. -/
structure RowGroupZoneMaps (Key : Type) where
  excludes : Key → RowGroup (SegmentRow Key) → Bool
  sound : ∀ key g, excludes key g = true → ∀ entry ∈ g.visible, entry.2.gramKey ≠ key

def keyFilter (zoneMaps : RowGroupZoneMaps Key) (key : Key) : ScanFilters (SegmentRow Key) where
  passes row := decide (row.gramKey = key)
  excludes _ g := zoneMaps.excludes key g
  sound _ g excluded entry present _ := decide_eq_false (zoneMaps.sound key g excluded entry present)

/-- The committed rows of a key as CollectGramRows scans them. -/
def KeyTable.scanKey (t : KeyTable Key) (zoneMaps : RowGroupZoneMaps Key) (key : Key) :
    List (SegmentRow Key) :=
  let filters := keyFilter zoneMaps key
  if (t.table.rowGroups.map RowGroup.count).sum = 0 then []
  else ((t.spans key).flatMap fun span =>
    (visitSpan t.table filters span).filter fun entry => filters.passes entry.2).map Prod.snd

structure SpansReadOnce (t : KeyTable Key) (zoneMaps : RowGroupZoneMaps Key) (key : Key) : Prop where
  nonempty : ∀ span ∈ t.spans key, span.1 < span.2
  apart : (t.spans key).Pairwise fun a b => a.2 < b.1
  aligned : ∀ span ∈ t.spans key, Aligned t.table span.1
  covers : ∀ g ∈ t.groups, g.excludes key = false → ∀ row segment, segmentAt row g.segments = some segment →
    segment.excludes key = false → Covers (t.spans key) (g.group.start + row)
  inside : ∀ r, Covers (t.spans key) r → ∃ g ∈ t.table.rowGroups, g.numbers r = true
  visits : ((t.spans key).flatMap (visitSpan t.table (keyFilter zoneMaps key))).Pairwise fun a b => a.1 < b.1
  collected : t.scanKey zoneMaps key =
    (t.table.visible.map Prod.snd).filter fun row => decide (row.gramKey = key)

theorem scanKey_rows {t : KeyTable Key} {zoneMaps : RowGroupZoneMaps Key} {key : Key}
    (sound : ZoneMapsSound t key) : t.scanKey zoneMaps key =
      (t.table.visible.map Prod.snd).filter fun row => decide (row.gramKey = key) := by
  have read : ((t.spans key).flatMap fun span => (visitSpan t.table (keyFilter zoneMaps key) span).filter
      fun entry => (keyFilter zoneMaps key).passes entry.2) =
        t.table.visible.filter fun entry => decide (entry.2.gramKey = key) := by
    apply flatMap_filter (spans_merged t key).apart t.table.visible_ascending
    · intro span listed
      exact (visitSpan_inside (spans_aligned t listed)).2.2
    · intro entry present of_key
      exact key_covered sound present (of_decide_eq_true of_key)
  unfold KeyTable.scanKey
  simp only
  rw [read, List.filter_map]
  split
  · rename_i empty
    have nothing : t.table.visible = [] := by
      apply List.flatMap_eq_nil_iff.mpr
      intro g stored
      have no_slot : g.slots = [] := by
        apply List.eq_nil_of_length_eq_zero
        exact List.sum_eq_zero_iff_forall_eq_nat.mp empty g.count (List.mem_map_of_mem stored)
      rw [RowGroup.visible, no_slot]
      rfl
    rw [nothing]
    rfl
  · rfl

theorem spans_read_once {t : KeyTable Key} {zoneMaps : RowGroupZoneMaps Key} {key : Key}
    (sound : ZoneMapsSound t key) : SpansReadOnce t zoneMaps key := by
  have merged := spans_merged t key
  constructor
  · exact merged.nonempty
  · exact merged.apart
  · exact fun span => spans_aligned t
  · exact fun g stored column row segment => spans_cover t stored column
  · exact fun r => spans_inside t
  · apply flatMap_ascending merged.apart
    · intro span listed
      exact t.table.visible_ascending.sublist (visitSpan_inside (spans_aligned t listed)).1
    · intro span listed
      exact (visitSpan_inside (spans_aligned t listed)).2.1
  · exact scanKey_rows sound

theorem scans_return {t : KeyTable Key} {zoneMaps : RowGroupZoneMaps Key} {keys : List Key}
    {localRows : List (SegmentRow Key)} {chunks : Key → List (List (SegmentRow Key))}
    (sound : ∀ key ∈ keys, ZoneMapsSound t key)
    (scanned : ∀ key ∈ keys, (chunks key).flatten =
      t.scanKey zoneMaps key ++ localRows.filter fun row => decide (row.gramKey = key)) :
    ∀ key ∈ keys, (chunks key).flatten =
      (t.table.visible.map Prod.snd ++ localRows).filter fun row => decide (row.gramKey = key) := by
  intro key present
  rw [scanned key present, scanKey_rows (sound key present), List.filter_append]

/-- CollectGramRows collects each row of each key once, as the plan of the probe assumes. -/
theorem manifest_rows_once (t : KeyTable Key) (zoneMaps : RowGroupZoneMaps Key) {keys : List Key}
    {localRows : List (SegmentRow Key)} {chunks : Key → List (List (SegmentRow Key))}
    (sound : ∀ key ∈ keys, ZoneMapsSound t key)
    (scanned : ∀ key ∈ keys, (chunks key).flatten =
      t.scanKey zoneMaps key ++ localRows.filter fun row => decide (row.gramKey = key)) :
    (∀ key ∈ keys, SpansReadOnce t zoneMaps key) ∧
      Scans (t.table.visible.map Prod.snd ++ localRows) chunks keys ∧
      ∀ {hwm : Int} {maxRows : Nat} {result : Nat × List GramRows},
        collectGramRows chunks hwm maxRows 0 keys 0 = .ok (some result) →
          result.2.map GramRows.descriptors = keys.zipIdx.map fun entry =>
            ((t.table.visible.map Prod.snd ++ localRows).filter fun row =>
              decide (row.gramKey = entry.1)).map (describe entry.2) := by
  have returned := scans_return sound scanned
  refine ⟨fun key present => spans_read_once (sound key present),
    fun key present => List.Perm.of_eq (returned key present), ?_⟩
  intro hwm maxRows result run
  rw [collectGramRows_descriptors run]
  apply List.map_congr_left
  intro entry listed
  have present : entry.1 ∈ keys := by
    have place := List.mem_zipIdx_iff_getElem?.mp listed
    exact List.mem_of_getElem? place
  rw [returned entry.1 present]

end Scans

/-- Three row groups with a hole before the last. The first and the second share
    a span of key 1, across the segment of key 2. -/
def threeGroups : KeyTable Nat where
  table := {
    rowGroups := [⟨0, [some (writtenRow 0 1 0 0 [5]), some (writtenRow 1 2 0 0 [5]), none]⟩,
      ⟨3, [some (writtenRow 3 1 0 1 [9])]⟩, ⟨4096, [some (writtenRow 4096 1 0 2 [12])]⟩]
    nextRowId := 4097
    rowGroupSize := 2048
    ascending := by decide
    allocated := by decide }
  groups := [
    ⟨⟨0, [some (writtenRow 0 1 0 0 [5]), some (writtenRow 1 2 0 0 [5]), none]⟩,
      [⟨1, fun key => key ≠ 1⟩, ⟨0, fun _ => true⟩, ⟨2, fun key => key ≠ 2⟩], fun _ => false, rfl⟩,
    ⟨⟨3, [some (writtenRow 3 1 0 1 [9])]⟩, [⟨1, fun key => key ≠ 1⟩], fun key => key ≠ 1, rfl⟩,
    ⟨⟨4096, [some (writtenRow 4096 1 0 2 [12])]⟩, [⟨1, fun key => key ≠ 1⟩], fun key => key ≠ 1, rfl⟩]
  same := rfl

def everyRowGroup : RowGroupZoneMaps Nat where
  excludes _ _ := false
  sound _ _ excluded := by cases excluded

example : threeGroups.spans 1 = [(0, 4), (4096, 4097)] ∧ threeGroups.spans 2 = [(0, 3)] := by decide

def threeGroupsChunks (key : Nat) : List (List (SegmentRow Nat)) := [threeGroups.scanKey everyRowGroup key]

theorem three_groups_once :
    (∀ key ∈ [1, 2], SpansReadOnce threeGroups everyRowGroup key) ∧
      ∃ result, collectGramRows threeGroupsChunks 12 10 0 [1, 2] 0 = .ok (some result) ∧
        result.2.map GramRows.descriptors =
          [[⟨0, 0, 0, 1, 5, 5⟩, ⟨0, 0, 3, 1, 9, 9⟩, ⟨0, 0, 4096, 1, 12, 12⟩], [⟨0, 1, 1, 1, 5, 5⟩]] := by
  have sound : ∀ key ∈ [1, 2], ZoneMapsSound threeGroups key := by
    unfold ZoneMapsSound
    decide
  have scanned : ∀ key ∈ [1, 2], (threeGroupsChunks key).flatten = threeGroups.scanKey everyRowGroup key ++
      ([] : List (SegmentRow Nat)).filter fun row => decide (row.gramKey = key) := by
    intro key _
    simp [threeGroupsChunks]
  obtain ⟨once, _, collects⟩ := manifest_rows_once threeGroups everyRowGroup sound scanned
  have ends : (collectGramRows threeGroupsChunks 12 10 0 [1, 2] 0).toOption.join.isSome = true := by decide
  obtain ⟨result, found⟩ := Option.isSome_iff_exists.mp ends
  have run := Fallible.toOption_join.mp found
  exact ⟨once, result, run, (collects run).trans (by decide)⟩

end NgramManifestSpans
