import NgramIndex.ProbeExact

/- The generated maintenance scripts. A refresh packs the base rows past the
   recorded mark into a new generation of segment rows and moves the mark; a
   compaction decodes segment rows and packs each key of a segment into one. -/
namespace NgramMaintenance
open AscendingLists NgramPostings NgramPackSegment NgramProbe
variable {Text Key : Type} [DecidableEq Key]

/-- Rowids from here on are local to the transaction that appended the row. -/
def maxRowId : Nat := 36028797018960000

/-- A row of the base table as the maintenance transaction scans it. -/
structure BaseRow (Text : Type) where
  rowid : Nat
  value : Option Text
  deriving DecidableEq, Repr

structure IndexState (Key : Type) where
  hwm : Int
  segments : List (SegmentRow Key)
  nextPosting : Nat
  deriving DecidableEq, Repr

def boundedRefreshEnd (hwm maxRows : Int) : Int :=
  if (maxRowId : Int) ≤ maxRows ∨ hwm > maxRowId - 1 - maxRows then maxRowId - 1
  else
    let target := hwm + maxRows
    let aligned := (target + 1) / segmentRows * segmentRows - 1
    if aligned > hwm then aligned else target

/-- The loop of SegmentAlignedRanges from one segment on. -/
def rangesFrom (lo openEnd firstSegment lastSegment perPartition : Int) :
    Nat → Int → List (Int × Int)
  | 0, _ => []
  | fuel + 1, segment =>
      if lastSegment < segment then []
      else
        let first := if segment = firstSegment then lo else segment * segmentRows
        let endSegment := segment + perPartition - 1
        let last := if lastSegment ≤ endSegment then openEnd else (endSegment + 1) * segmentRows - 1
        (first, last) ::
          rangesFrom lo openEnd firstSegment lastSegment perPartition fuel (segment + perPartition)

def segmentAlignedRanges (lo hi : Int) (partitions : Nat) (openEnded : Bool) : List (Int × Int) :=
  let openEnd := if openEnded then (maxRowId : Int) - 1 else hi
  if hi < lo ∨ partitions ≤ 1 then [(lo, openEnd)]
  else
    let firstSegment := lo / segmentRows
    let lastSegment := hi / segmentRows
    let segments := lastSegment - firstSegment + 1
    let perPartition := max (segments / partitions) 1
    rangesFrom lo openEnd firstSegment lastSegment perPartition segments.toNat firstSegment

def packGroups (pairs : List (Key × Nat)) : List (Key × Nat) :=
  (pairs.map fun pair => (pair.1, pair.2 / segmentRows)).dedup

def groupRowids (pairs : List (Key × Nat)) (group : Key × Nat) : List Nat :=
  (pairs.filter fun pair => decide ((pair.1, pair.2 / segmentRows) = group)).map Prod.snd

/-- One packing statement: a pair stream grouped into segment rows. The posting
    rowid and the generation are set when the row is appended. -/
def packPartition (pairs : List (Key × Nat)) : List (SegmentRow Key) :=
  (packGroups pairs).map fun group =>
    writtenRow 0 group.1 group.2 0 (sortUnique (groupRowids pairs group))

def rangePairs (gramKeys : Text → List Key) (base : List (BaseRow Text)) (range : Int × Int) :
    List (Key × Nat) :=
  base.flatMap fun row =>
    if range.1 ≤ row.rowid ∧ row.rowid ≤ range.2 then
      match row.value with
      | none => []
      | some text => (gramKeys text).map fun key => (key, row.rowid)
    else []

def packRanges (gramKeys : Text → List Key) (base : List (BaseRow Text)) (ranges : List (Int × Int)) :
    List (SegmentRow Key) :=
  ranges.flatMap fun range => packPartition (rangePairs gramKeys base range)

def stamp (first generation : Nat) (packed : List (SegmentRow Key)) : List (SegmentRow Key) :=
  packed.mapIdx fun i row => { row with postingRowid := first + i, generation := generation }

def IndexState.appendPacked (index : IndexState Key) (generation : Nat)
    (packed : List (SegmentRow Key)) : IndexState Key :=
  { index with
    segments := index.segments ++ stamp index.nextPosting generation packed
    nextPosting := index.nextPosting + packed.length }

def nextGeneration (segments : List (SegmentRow Key)) : Nat :=
  (((segments.map SegmentRow.generation).max?.getD 0) + 1).toNat

def committedAbove (base : List (BaseRow Text)) (mark : Int) : List Int :=
  (base.map fun row => (row.rowid : Int)).filter fun r => mark < r && r < maxRowId

def refreshedHighWaterMark (base : List (BaseRow Text)) (expanded recorded : Int) (stopsShort : Bool)
    (boundEnd : Int) : Int :=
  if stopsShort then
    if committedAbove base boundEnd ≠ [] then boundEnd
    else (((committedAbove base expanded).filter fun r => r ≤ boundEnd).max?).getD recorded
  else ((committedAbove base expanded).max?).getD recorded

structure RefreshPass where
  ranges : List (Int × Int)
  stopsShort : Bool
  boundEnd : Int
  deriving DecidableEq, Repr

/-- What the expansion of ngram_refresh fixes: the mark it read, and a packing
    pass unless it found no rowid past that mark. -/
structure RefreshScript where
  hwm : Int
  pass : Option RefreshPass
  deriving DecidableEq, Repr

/-- The end that max_rows puts to a refresh, or the end of the rowid space. -/
def refreshEnd (hwm : Int) : Option Int → Int
  | some maxRows => boundedRefreshEnd hwm maxRows
  | none => maxRowId - 1

def refreshScript (hwm : Int) (totalRows partitions : Nat) (maxRows : Option Int) : RefreshScript :=
  let boundEnd := refreshEnd hwm maxRows
  let lastRow : Int := totalRows - 1
  let stopsShort := decide (boundEnd < lastRow)
  let rangeEnd := if stopsShort then boundEnd else lastRow
  if lastRow ≤ hwm then ⟨hwm, none⟩
  else ⟨hwm, some ⟨segmentAlignedRanges (hwm + 1) rangeEnd partitions (!stopsShort), stopsShort, boundEnd⟩⟩

def changedWhilePrepared : String :=
  "the index changed while the statement was being prepared; run it again"

def executeRefresh (gramKeys : Text → List Key) (script : RefreshScript) (base : List (BaseRow Text))
    (index : IndexState Key) : Except String (IndexState Key) :=
  if index.hwm ≠ script.hwm then .error changedWhilePrepared
  else
    match script.pass with
    | none => .ok index
    | some pass =>
        let packed := packRanges gramKeys base pass.ranges
        .ok { index.appendPacked (nextGeneration index.segments) packed with
          hwm := refreshedHighWaterMark base script.hwm index.hwm pass.stopsShort pass.boundEnd }

structure RefreshSummary where
  rowsIndexed : Nat
  hwmRowid : Int
  remainingTail : Nat
  deriving DecidableEq, Repr

def refreshSummary (base : List (BaseRow Text)) (expanded recorded : Int) : RefreshSummary where
  rowsIndexed := (base.filter fun row => decide (expanded < row.rowid ∧ (row.rowid : Int) ≤ recorded)).length
  hwmRowid := recorded
  remainingTail := (committedAbove base recorded).length

theorem mem_committedAbove {base : List (BaseRow Text)} {mark r : Int} :
    r ∈ committedAbove base mark ↔ ∃ row ∈ base, (row.rowid : Int) = r ∧ mark < r ∧ r < maxRowId := by
  simp only [committedAbove, List.mem_filter, List.mem_map, Bool.and_eq_true, decide_eq_true_eq]
  constructor
  · rintro ⟨⟨row, present, rfl⟩, above, committed⟩
    exact ⟨row, present, rfl, above, committed⟩
  · rintro ⟨row, present, rfl, above, committed⟩
    exact ⟨⟨row, present, rfl⟩, above, committed⟩

theorem boundedRefreshEnd_bounds {hwm maxRows : Int} (mark : -1 ≤ hwm) (some_row : 1 ≤ maxRows) :
    boundedRefreshEnd hwm maxRows ≤ hwm + maxRows ∧ boundedRefreshEnd hwm maxRows < maxRowId ∧
      (boundedRefreshEnd hwm maxRows < maxRowId - 1 → hwm < boundedRefreshEnd hwm maxRows) := by
  have shift : (segmentRows : Int) = 1048576 := by decide
  simp only [boundedRefreshEnd, shift]
  split
  · rename_i past
    omega
  · rename_i inside
    split <;> omega

theorem segmentRows_eq : (segmentRows : Int) = 1048576 := by decide

/-- The ranges of the loop leave no gap: each starts where the one before it
    ended, the first at the segment it is entered with. -/
theorem rangesFrom_cover {lo openEnd firstSegment lastSegment perPartition : Int} (step : 1 ≤ perPartition)
    (fuel : Nat) (segment r : Int) (enough : lastSegment < segment + fuel) (inside : segment ≤ lastSegment)
    (low : (if segment = firstSegment then lo else segment * segmentRows) ≤ r) (high : r ≤ openEnd)
    (later : firstSegment ≤ segment) :
    ∃ range ∈ rangesFrom lo openEnd firstSegment lastSegment perPartition fuel segment,
      range.1 ≤ r ∧ r ≤ range.2 := by
  induction fuel generalizing segment with
  | zero => omega
  | succ fuel ih =>
    rw [rangesFrom, if_neg (by omega)]
    by_cases final : lastSegment ≤ segment + perPartition - 1
    · exact ⟨_, List.mem_cons_self, low, by simp only [if_pos final]; exact high⟩
    · by_cases here : r ≤ (segment + perPartition - 1 + 1) * segmentRows - 1
      · exact ⟨_, List.mem_cons_self, low, by simp only [if_neg final]; exact here⟩
      · obtain ⟨range, listed, bounds⟩ := ih (segment + perPartition) (by omega) (by omega)
          (by rw [if_neg (by omega)]; simp only [segmentRows_eq] at here ⊢; omega) (by omega)
        exact ⟨range, List.mem_cons_of_mem _ listed, bounds⟩

theorem rangesFrom_inside {lo hi openEnd firstSegment lastSegment perPartition : Int}
    (step : 1 ≤ perPartition) (low : firstSegment = lo / segmentRows) (last : lastSegment = hi / segmentRows)
    (fuel : Nat) (segment : Int) (later : firstSegment ≤ segment) :
    ∀ range ∈ rangesFrom lo openEnd firstSegment lastSegment perPartition fuel segment,
      lo ≤ range.1 ∧ range.2 ≤ max openEnd hi := by
  induction fuel generalizing segment with
  | zero => simp [rangesFrom]
  | succ fuel ih =>
    rw [rangesFrom]
    split
    · simp
    · rename_i reached
      refine List.forall_mem_cons.mpr ⟨?_, ih (segment + perPartition) (by omega)⟩
      simp only [segmentRows_eq] at *
      constructor
      · split <;> omega
      · split <;> omega

theorem segmentAlignedRanges_cover {lo hi r : Int} {partitions : Nat} {openEnded : Bool} (low : lo ≤ r)
    (high : r ≤ if openEnded then (maxRowId : Int) - 1 else hi) :
    ∃ range ∈ segmentAlignedRanges lo hi partitions openEnded, range.1 ≤ r ∧ r ≤ range.2 := by
  simp only [segmentAlignedRanges]
  split
  · exact ⟨_, List.mem_cons_self, low, high⟩
  · rename_i several
    have ordered : lo / (segmentRows : Int) ≤ hi / segmentRows := by
      simp only [segmentRows_eq]
      omega
    exact rangesFrom_cover (by omega) _ _ r (by omega) ordered (by rw [if_pos rfl]; exact low) high
      (Int.le_refl _)

theorem segmentAlignedRanges_inside {lo hi : Int} {partitions : Nat} {openEnded : Bool} :
    ∀ range ∈ segmentAlignedRanges lo hi partitions openEnded,
      lo ≤ range.1 ∧ range.2 ≤ max (if openEnded then (maxRowId : Int) - 1 else hi) hi := by
  simp only [segmentAlignedRanges]
  split
  · simp
  · exact rangesFrom_inside (by omega) rfl rfl _ _ (Int.le_refl _)

theorem mem_groupRowids {pairs : List (Key × Nat)} {group : Key × Nat} {r : Nat} :
    r ∈ groupRowids pairs group ↔ (group.1, r) ∈ pairs ∧ r / segmentRows = group.2 := by
  simp only [groupRowids, List.mem_map, List.mem_filter, decide_eq_true_eq]
  constructor
  · rintro ⟨⟨key, rowid⟩, ⟨present, rfl⟩, rfl⟩
    exact ⟨present, rfl⟩
  · rintro ⟨present, at_segment⟩
    exact ⟨(group.1, r), ⟨present, Prod.ext rfl at_segment⟩, rfl⟩

/-- The rowids of one group lie in one segment, so they are few enough to encode. -/
theorem group_window (pairs : List (Key × Nat)) (group : Key × Nat) :
    (sortUnique (groupRowids pairs group)).length ≤ segmentRows := by
  refine @window_length _ (group.2 * segmentRows) _ (ascending_nodup (sortUnique_ascending _)) fun r hr => ?_
  have at_segment := (mem_groupRowids.mp (mem_sortUnique.mp hr)).2
  simp only [segmentRows, segmentShift] at at_segment ⊢
  omega

theorem packed_rowids {pairs : List (Key × Nat)} (bounded : ∀ pair ∈ pairs, pair.2 ≤ int64Max)
    (group : Key × Nat) :
    (writtenRow 0 group.1 group.2 0 (sortUnique (groupRowids pairs group))).rowids =
      sortUnique (groupRowids pairs group) := by
  have window := group_window pairs group
  refine writtenRow_rowids _ _ _ _ (sortUnique_ascending _) (fun r hr => ?_) ?_
  · exact bounded _ (mem_groupRowids.mp (mem_sortUnique.mp hr)).1
  · simp only [segmentRows, segmentShift, int64Max] at window ⊢
    omega

theorem packPartition_posted {pairs : List (Key × Nat)} (bounded : ∀ pair ∈ pairs, pair.2 ≤ int64Max)
    {key : Key} {r : Nat} : Posted (packPartition pairs) key r ↔ (key, r) ∈ pairs := by
  constructor
  · rintro ⟨row, present, rfl, posted⟩
    obtain ⟨group, _, rfl⟩ := List.mem_map.mp present
    rw [packed_rowids bounded] at posted
    exact (mem_groupRowids.mp (mem_sortUnique.mp posted)).1
  · intro present
    have listed : (key, r / segmentRows) ∈ packGroups pairs :=
      List.mem_dedup.mpr (List.mem_map.mpr ⟨(key, r), present, rfl⟩)
    refine ⟨_, List.mem_map_of_mem listed, rfl, ?_⟩
    rw [packed_rowids bounded]
    exact mem_sortUnique.mpr (mem_groupRowids.mpr ⟨present, rfl⟩)

omit [DecidableEq Key] in
theorem mem_rangePairs {gramKeys : Text → List Key} {base : List (BaseRow Text)} {range : Int × Int}
    {key : Key} {r : Nat} : (key, r) ∈ rangePairs gramKeys base range ↔ ∃ row ∈ base, ∃ text,
      row.rowid = r ∧ row.value = some text ∧ key ∈ gramKeys text ∧ range.1 ≤ r ∧ (r : Int) ≤ range.2 := by
  simp only [rangePairs, List.mem_flatMap]
  constructor
  · rintro ⟨row, present, listed⟩
    split at listed
    · rename_i inside
      cases value : row.value with
      | none => simp [value] at listed
      | some text =>
        simp only [value, List.mem_map, Prod.mk.injEq] at listed
        obtain ⟨_, in_text, rfl, rfl⟩ := listed
        exact ⟨row, present, text, rfl, value, in_text, inside⟩
    · simp at listed
  · rintro ⟨row, present, text, rfl, value, in_text, low, high⟩
    refine ⟨row, present, ?_⟩
    rw [if_pos ⟨low, high⟩]
    simpa only [value] using List.mem_map_of_mem in_text

omit [DecidableEq Key] in
theorem posted_append {a b : List (SegmentRow Key)} {key : Key} {r : Nat} :
    Posted (a ++ b) key r ↔ Posted a key r ∨ Posted b key r := by
  simp only [Posted, List.mem_append, or_and_right, exists_or]

omit [DecidableEq Key] in
theorem mem_stamp {first generation : Nat} {packed : List (SegmentRow Key)} {row : SegmentRow Key} :
    row ∈ stamp first generation packed ↔ ∃ (i : Nat) (source : SegmentRow Key),
      packed[i]? = some source ∧
      row = { source with postingRowid := first + i, generation := generation } := by
  simp only [stamp, List.mem_iff_getElem?, List.getElem?_mapIdx, Option.map_eq_some_iff]
  constructor
  · rintro ⟨i, source, listed, rfl⟩
    exact ⟨i, source, listed, rfl⟩
  · rintro ⟨i, source, listed, rfl⟩
    exact ⟨i, source, listed, rfl⟩

omit [DecidableEq Key] in
@[simp] theorem stamped_rowids (source : SegmentRow Key) (posting : Nat) (generation : Int) :
    ({ source with postingRowid := posting, generation := generation } : SegmentRow Key).rowids =
      source.rowids := rfl

omit [DecidableEq Key] in
theorem posted_stamp {first generation : Nat} {packed : List (SegmentRow Key)} {key : Key} {r : Nat} :
    Posted (stamp first generation packed) key r ↔ Posted packed key r := by
  constructor
  · rintro ⟨row, present, of_key, posted⟩
    obtain ⟨i, source, listed, rfl⟩ := mem_stamp.mp present
    exact ⟨source, List.mem_of_getElem? listed, of_key, posted⟩
  · rintro ⟨source, present, of_key, posted⟩
    obtain ⟨i, listed⟩ := List.mem_iff_getElem?.mp present
    exact ⟨_, mem_stamp.mpr ⟨i, source, listed, rfl⟩, of_key, posted⟩

theorem packRanges_posted {gramKeys : Text → List Key} {base : List (BaseRow Text)}
    {ranges : List (Int × Int)} (bounded : ∀ range ∈ ranges, range.2 < maxRowId) {key : Key} {r : Nat} :
    Posted (packRanges gramKeys base ranges) key r ↔
      ∃ range ∈ ranges, (key, r) ∈ rangePairs gramKeys base range := by
  have fits : ∀ range ∈ ranges, ∀ pair ∈ rangePairs gramKeys base range, pair.2 ≤ int64Max := by
    rintro range listed ⟨key, r⟩ present
    obtain ⟨_, _, _, _, _, _, _, high⟩ := mem_rangePairs.mp present
    have below := bounded range listed
    simp only [maxRowId, int64Max] at below ⊢
    omega
  constructor
  · rintro ⟨row, present, of_key, posted⟩
    obtain ⟨range, listed, in_range⟩ := List.mem_flatMap.mp present
    exact ⟨range, listed, (packPartition_posted (fits range listed)).mp ⟨row, in_range, of_key, posted⟩⟩
  · rintro ⟨range, listed, pair⟩
    obtain ⟨row, in_range, of_key, posted⟩ := (packPartition_posted (fits range listed)).mpr pair
    exact ⟨row, List.mem_flatMap.mpr ⟨range, listed, in_range⟩, of_key, posted⟩

/-- The greatest selected rowid, or what the registry row recorded. -/
theorem max_mark {selected : List Int} {recorded : Int} :
    (∀ r ∈ selected, r ≤ selected.max?.getD recorded) ∧
      (selected.max?.getD recorded ∈ selected ∨ selected = [] ∧ selected.max?.getD recorded = recorded) := by
  cases at_max : selected.max? with
  | none =>
    obtain rfl := List.max?_eq_none_iff.mp at_max
    simp
  | some top =>
    obtain ⟨present, above⟩ := List.max?_eq_some_iff.mp at_max
    exact ⟨above, .inl present⟩

/-- The last rowid a packing pass covers. -/
def RefreshPass.reach (pass : RefreshPass) : Int :=
  if pass.stopsShort then pass.boundEnd else maxRowId - 1

/-- What an expansion decides, by the test that finds nothing past the mark and
    the test that finds the bound short of the last row. -/
theorem refreshScript_cases (hwm : Int) (totalRows partitions : Nat) (maxRows : Option Int) :
    ((totalRows : Int) - 1 ≤ hwm ∧ refreshScript hwm totalRows partitions maxRows = ⟨hwm, none⟩) ∨
    (hwm < (totalRows : Int) - 1 ∧ ∃ pass,
      refreshScript hwm totalRows partitions maxRows = ⟨hwm, some pass⟩ ∧
      pass.boundEnd = refreshEnd hwm maxRows ∧
      (pass.stopsShort = true ↔ pass.boundEnd < (totalRows : Int) - 1) ∧
      pass.ranges = segmentAlignedRanges (hwm + 1)
        (if pass.stopsShort then pass.boundEnd else (totalRows : Int) - 1) partitions
        (!pass.stopsShort)) := by
  by_cases nothing : (totalRows : Int) - 1 ≤ hwm
  · exact .inl ⟨nothing, by simp [refreshScript, nothing]⟩
  · refine .inr ⟨by omega, _, by simp only [refreshScript, if_neg nothing]; rfl, rfl, ?_, rfl⟩
    exact decide_eq_true_iff

/-- The ranges of a packing pass run from past the mark to its reach. -/
theorem pass_ranges {hwm : Int} {totalRows partitions : Nat} {maxRows : Option Int} {pass : RefreshPass}
    (rows : totalRows ≤ maxRowId)
    (expanded : refreshScript hwm totalRows partitions maxRows = ⟨hwm, some pass⟩) :
    pass.reach < maxRowId ∧ (∀ range ∈ pass.ranges, hwm < range.1 ∧ range.2 ≤ pass.reach) ∧
      pass.ranges = segmentAlignedRanges (hwm + 1)
        (if pass.stopsShort then pass.boundEnd else (totalRows : Int) - 1) partitions (!pass.stopsShort) := by
  rcases refreshScript_cases hwm totalRows partitions maxRows with ⟨_, same⟩ | ⟨_, other, same, _, short, ranges⟩
  · rw [same] at expanded
    cases expanded
  obtain rfl : other = pass := by
    rw [same] at expanded
    simpa using expanded
  refine ⟨?_, ?_, ranges⟩
  · simp only [RefreshPass.reach]
    split
    · rename_i stops
      have stopped := short.mp stops
      omega
    · omega
  · intro range listed
    rw [ranges] at listed
    have bounds := segmentAlignedRanges_inside range listed
    simp only [RefreshPass.reach]
    cases stops : other.stopsShort with
    | true =>
      simp only [stops, Bool.not_true, if_true] at bounds ⊢
      simp only [Bool.false_eq_true, if_false] at bounds
      omega
    | false =>
      simp only [stops, Bool.not_false, if_true, Bool.false_eq_true, if_false] at bounds ⊢
      omega

theorem pass_posted {gramKeys : Text → List Key} {base : List (BaseRow Text)} {hwm : Int}
    {totalRows partitions : Nat} {maxRows : Option Int} {pass : RefreshPass}
    (rows : totalRows ≤ maxRowId)
    (expanded : refreshScript hwm totalRows partitions maxRows = ⟨hwm, some pass⟩) {key : Key} {r : Nat} :
    Posted (packRanges gramKeys base pass.ranges) key r ↔ ∃ row ∈ base, ∃ text, row.rowid = r ∧
      row.value = some text ∧ key ∈ gramKeys text ∧ hwm < r ∧ (r : Int) ≤ pass.reach := by
  obtain ⟨space, reach, ranges⟩ := pass_ranges rows expanded
  rw [packRanges_posted fun range listed => lt_of_le_of_lt (reach range listed).2 space]
  constructor
  · rintro ⟨range, listed, pair⟩
    obtain ⟨row, present, text, rfl, value, in_text, low, high⟩ := mem_rangePairs.mp pair
    have bounds := reach range listed
    exact ⟨row, present, text, rfl, value, in_text, by omega, by omega⟩
  · rintro ⟨row, present, text, rfl, value, in_text, low, high⟩
    obtain ⟨range, listed, first, last⟩ := @segmentAlignedRanges_cover (hwm + 1)
      (if pass.stopsShort then pass.boundEnd else (totalRows : Int) - 1) row.rowid partitions
      (!pass.stopsShort) (by omega) (by
        simp only [RefreshPass.reach] at high
        cases stops : pass.stopsShort with
        | true => simpa [stops] using high
        | false => simpa [stops] using high)
    rw [← ranges] at listed
    exact ⟨range, listed, mem_rangePairs.mpr ⟨row, present, text, rfl, value, in_text, first, last⟩⟩

/-- What the mark of a packing pass says about the rows it was computed from. -/
structure MarkSettled (base : List (BaseRow Text)) (hwm : Int) (pass : RefreshPass) (mark : Int) :
    Prop where
  forward : hwm ≤ mark
  reached : mark ≤ max hwm pass.reach
  covered : ∀ row ∈ base, hwm < row.rowid → (row.rowid : Int) ≤ pass.reach → (row.rowid : Int) ≤ mark
  witnessed : mark = hwm ∨ ∃ row ∈ base, row.rowid < maxRowId ∧ mark ≤ row.rowid
  progress : mark = hwm → committedAbove base hwm = []

theorem highest_settled {base : List (BaseRow Text)} {hwm : Int} {pass : RefreshPass}
    (below : ∀ r ∈ committedAbove base hwm, r ≤ pass.reach) (space : pass.reach < maxRowId) :
    MarkSettled base hwm pass (((committedAbove base hwm).max?).getD hwm) := by
  obtain ⟨above, at_top⟩ := @max_mark (committedAbove base hwm) hwm
  refine ⟨?_, ?_, ?_, ?_, ?_⟩
  · rcases at_top with listed | ⟨_, same⟩
    · obtain ⟨_, _, _, higher, _⟩ := mem_committedAbove.mp listed
      omega
    · omega
  · rcases at_top with listed | ⟨_, same⟩
    · have reached := below _ listed
      omega
    · omega
  · intro row present higher reached
    exact above _ (mem_committedAbove.mpr ⟨row, present, rfl, higher, by omega⟩)
  · rcases at_top with listed | ⟨_, same⟩
    · obtain ⟨row, present, same, _, committed⟩ := mem_committedAbove.mp listed
      exact .inr ⟨row, present, by omega, by omega⟩
    · exact .inl same
  · intro same
    rcases at_top with listed | ⟨nothing, _⟩
    · obtain ⟨_, _, _, higher, _⟩ := mem_committedAbove.mp listed
      omega
    · exact nothing

theorem refreshedHighWaterMark_settled {base : List (BaseRow Text)} {hwm : Int}
    {totalRows partitions : Nat} {maxRows : Option Int} {pass : RefreshPass} (mark : -1 ≤ hwm)
    (some_row : ∀ rows, maxRows = some rows → 1 ≤ rows) (rows : totalRows ≤ maxRowId)
    (expanded : refreshScript hwm totalRows partitions maxRows = ⟨hwm, some pass⟩) :
    MarkSettled base hwm pass
      (refreshedHighWaterMark base hwm hwm pass.stopsShort pass.boundEnd) := by
  rcases refreshScript_cases hwm totalRows partitions maxRows with ⟨_, same⟩ | ⟨_, other, same, bound, short, _⟩
  · rw [same] at expanded
    cases expanded
  obtain rfl : other = pass := by
    rw [same] at expanded
    simpa using expanded
  simp only [refreshedHighWaterMark]
  cases stops : other.stopsShort with
  | false =>
    have reach : other.reach = maxRowId - 1 := by simp [RefreshPass.reach, stops]
    simp only [Bool.false_eq_true, if_false]
    refine highest_settled (fun r listed => ?_) (by omega)
    obtain ⟨_, _, _, _, committed⟩ := mem_committedAbove.mp listed
    omega
  | true =>
    have reach : other.reach = other.boundEnd := by simp [RefreshPass.reach, stops]
    have stopped := short.mp stops
    have advances : hwm < other.boundEnd := by
      cases maxRows with
      | none =>
        simp only [refreshEnd] at bound
        omega
      | some m =>
        simp only [refreshEnd] at bound
        have bounds := boundedRefreshEnd_bounds mark (some_row m rfl)
        omega
    simp only [if_true]
    by_cases beyond : committedAbove base other.boundEnd = []
    · rw [if_neg (not_not.mpr beyond)]
      have below : ∀ r ∈ committedAbove base hwm, r ≤ other.boundEnd := by
        intro r listed
        by_contra past
        obtain ⟨row, present, same_row, _, committed⟩ := mem_committedAbove.mp listed
        have later : r ∈ committedAbove base other.boundEnd :=
          mem_committedAbove.mpr ⟨row, present, same_row, by omega, committed⟩
        simp [beyond] at later
      have all : (committedAbove base hwm).filter (fun r => r ≤ other.boundEnd) =
          committedAbove base hwm := List.filter_eq_self.mpr fun r listed => by simpa using below r listed
      rw [all]
      exact highest_settled (fun r listed => by rw [reach]; exact below r listed) (by omega)
    · rw [if_pos beyond]
      obtain ⟨r, listed⟩ := List.exists_mem_of_ne_nil _ beyond
      obtain ⟨row, present, same_row, past, committed⟩ := mem_committedAbove.mp listed
      refine ⟨by omega, by omega, fun row present _ reached => by omega, ?_, by omega⟩
      exact .inr ⟨row, present, by omega, by omega⟩

end NgramMaintenance
