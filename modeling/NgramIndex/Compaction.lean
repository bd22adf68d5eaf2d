import NgramIndex.Maintenance

/- The script of ngram_compact. The rows of the chosen keys are decoded under
   the expanded mark and packed again, one row for each key of a segment; a
   purge keeps only the rowids that are still live. -/
namespace NgramMaintenance
open AscendingLists NgramPostings NgramPackSegment NgramProbe Fallible
variable {Text Key : Type} [DecidableEq Key]

def outsideRange : String :=
  "ngram_unpack_postings: posting rowid lies outside its declared segment or indexed range"
def descriptorDisagrees : String :=
  "ngram_unpack_postings: segment descriptor disagrees with its postings blob"
def malformedKey : String := "ngram: malformed segments-table key"

/-- The checked form of ngram_unpack_postings for one row. -/
def unpackRow (hwm : Int) (row : SegmentRow Key) : Except String (List (Key × Nat)) := do
  let rowids ← decodePostings row.postings
  if rowids.any fun r => row.segmentNo < 0 ∨ ((r / segmentRows : Nat) : Int) ≠ row.segmentNo ∨
      (r : Int) > hwm then .error outsideRange
  else if row.rowidCount ≤ 0 ∨ row.rowidCount.toNat ≠ rowids.length ∨ rowids = [] ∨
      row.minRowid ≠ rowids.headD 0 ∨ row.maxRowid ≠ rowids.getLastD 0 ∨ row.generation < 0 then
    .error descriptorDisagrees
  else .ok (rowids.map fun r => (row.gramKey, r))

def unpackPostings (hwm : Int) (rows : List (SegmentRow Key)) : Except String (List (Key × Nat)) := do
  let pairs ← rows.mapM (unpackRow hwm)
  .ok pairs.flatten

structure CompactScript where
  hwm : Int
  purge : Bool
  /-- What the column statistics said of the generations at expansion. -/
  mayHoldFragmentedKeys : Bool
  partitions : Nat
  deriving DecidableEq, Repr

def compactKeys (purge : Bool) (segments : List (SegmentRow Key)) : List (Key × Int) :=
  let keys := segments.map fun row => (row.gramKey, row.segmentNo)
  if purge then keys.dedup else keys.dedup.filter fun key => decide (1 < keys.count key)

def ofKeys (keys : List (Key × Int)) (row : SegmentRow Key) : Bool :=
  decide ((row.gramKey, row.segmentNo) ∈ keys)

def compactLive (hwm : Int) (keys : List (Key × Int)) (base : List (BaseRow Text)) : List Nat :=
  (base.filter fun row => decide ((row.rowid : Int) ≤ hwm) && row.value.isSome &&
    keys.any fun key => key.2 = ((row.rowid / segmentRows : Nat) : Int)).map BaseRow.rowid

def compactPairs (script : CompactScript) (selected : List (SegmentRow Key)) (live : List Nat)
    (range : Int × Int) : Except String (List (Key × Nat)) := do
  let pairs ← unpackPostings script.hwm (selected.filter fun row =>
    decide (range.1 / segmentRows ≤ row.segmentNo ∧ row.segmentNo ≤ range.2 / segmentRows))
  if script.purge then
    .ok (pairs.filter fun pair => decide (pair.2 ∈ live ∧ range.1 ≤ pair.2 ∧ (pair.2 : Int) ≤ range.2))
  else .ok pairs

def executeCompact (script : CompactScript) (base : List (BaseRow Text)) (index : IndexState Key) :
    Except String (IndexState Key) :=
  if index.hwm ≠ script.hwm then .error changedWhilePrepared
  else if ¬ script.purge ∧ ¬ script.mayHoldFragmentedKeys then .ok index
  else
    let keys := compactKeys script.purge index.segments
    let lastSegment := if script.hwm < 0 then -1 else script.hwm / segmentRows
    if keys.any fun key => decide (key.2 < 0 ∨ key.2 > lastSegment) then .error malformedKey
    else do
      let selected := index.segments.filter (ofKeys keys)
      let live := compactLive script.hwm keys base
      let sources ← (segmentAlignedRanges 0 script.hwm script.partitions false).mapM
        (compactPairs script selected live)
      let packed := sources.flatMap packPartition
      let kept : IndexState Key :=
        { index with segments := index.segments.filter fun row => !ofKeys keys row }
      let merged := kept.appendPacked 0 packed
      .ok { merged with segments := merged.segments.map fun row => { row with generation := 0 } }

omit [DecidableEq Key] in
/-- A row that passes the checks yields its own rowids, all at or below the mark. -/
theorem unpackRow_ok {hwm : Int} {row : SegmentRow Key} {pairs : List (Key × Nat)}
    (run : unpackRow hwm row = .ok pairs) (key : Key) (r : Nat) :
    ((key, r) ∈ pairs ↔ key = row.gramKey ∧ r ∈ row.rowids) ∧
      (r ∈ row.rowids → ((r / segmentRows : Nat) : Int) = row.segmentNo ∧ (r : Int) ≤ hwm) := by
  unfold unpackRow at run
  obtain ⟨rowids, decoded, run⟩ := bind_ok run
  have same : row.rowids = rowids := by
    unfold SegmentRow.rowids
    rw [decoded]
  obtain ⟨inside, run⟩ := check_ok run
  obtain ⟨_, run⟩ := check_ok run
  cases ok_inj run
  rw [same]
  constructor
  · simp only [List.mem_map, Prod.mk.injEq]
    constructor
    · rintro ⟨_, present, rfl, rfl⟩
      exact ⟨rfl, present⟩
    · rintro ⟨rfl, present⟩
      exact ⟨r, present, rfl, rfl⟩
  · intro present
    have held : ¬ (row.segmentNo < 0 ∨ ((r / segmentRows : Nat) : Int) ≠ row.segmentNo ∨ (r : Int) > hwm) :=
      fun bad => inside (List.any_eq_true.mpr ⟨r, present, decide_eq_true bad⟩)
    rw [not_or, not_or, not_not] at held
    exact ⟨held.2.1, not_lt.mp held.2.2⟩

omit [DecidableEq Key] in
theorem unpackPostings_ok {hwm : Int} {rows : List (SegmentRow Key)} {pairs : List (Key × Nat)}
    (run : unpackPostings hwm rows = .ok pairs) (key : Key) (r : Nat) :
    ((key, r) ∈ pairs ↔ Posted rows key r) ∧
      ∀ row ∈ rows, r ∈ row.rowids → ((r / segmentRows : Nat) : Int) = row.segmentNo ∧ (r : Int) ≤ hwm := by
  unfold unpackPostings at run
  obtain ⟨lists, each, rest⟩ := bind_ok run
  cases ok_inj rest
  refine ⟨?_, ?_⟩
  · rw [List.mem_flatten]
    constructor
    · rintro ⟨list, inLists, listed⟩
      obtain ⟨row, present, unpacked⟩ := mapM_ok_right each list inLists
      obtain ⟨rfl, posted⟩ := (unpackRow_ok unpacked key r).1.mp listed
      exact ⟨row, present, rfl, posted⟩
    · rintro ⟨row, present, rfl, posted⟩
      obtain ⟨list, inLists, unpacked⟩ := mapM_ok_left each row present
      exact ⟨list, inLists, (unpackRow_ok unpacked _ r).1.mpr ⟨rfl, posted⟩⟩
  · intro row present posted
    obtain ⟨_, _, unpacked⟩ := mapM_ok_left each row present
    exact (unpackRow_ok unpacked key r).2 posted

theorem segment_of_rowid {lo hi r : Int} (low : lo ≤ r) (high : r ≤ hi) :
    lo / segmentRows ≤ r / segmentRows ∧ r / segmentRows ≤ hi / segmentRows := by
  simp only [segmentRows_eq]
  omega

omit [DecidableEq Key] in
theorem posted_filter {rows : List (SegmentRow Key)} {keep : SegmentRow Key → Bool} {key : Key} {r : Nat} :
    Posted (rows.filter keep) key r ↔ ∃ row ∈ rows, keep row = true ∧ row.gramKey = key ∧ r ∈ row.rowids := by
  simp only [Posted, List.mem_filter, and_assoc]

omit [DecidableEq Key] in
/-- The generation is no part of what a row posts. -/
theorem posted_generation {rows : List (SegmentRow Key)} {key : Key} {r : Nat} :
    Posted (rows.map fun row => { row with generation := 0 }) key r ↔ Posted rows key r := by
  unfold Posted
  constructor
  · rintro ⟨row, present, of_key, posted⟩
    obtain ⟨source, listed, rfl⟩ := List.mem_map.mp present
    exact ⟨source, listed, of_key, posted⟩
  · rintro ⟨source, listed, of_key, posted⟩
    exact ⟨_, List.mem_map_of_mem listed, of_key, posted⟩

omit [DecidableEq Key] in
theorem compactPairs_ok {script : CompactScript} {selected : List (SegmentRow Key)} {live : List Nat}
    {range : Int × Int} {pairs : List (Key × Nat)}
    (run : compactPairs script selected live range = .ok pairs) (key : Key) (r : Nat) :
    ((key, r) ∈ pairs ↔ (∃ row ∈ selected, row.gramKey = key ∧ r ∈ row.rowids ∧
        range.1 / segmentRows ≤ row.segmentNo ∧ row.segmentNo ≤ range.2 / segmentRows) ∧
      (script.purge = true → r ∈ live ∧ range.1 ≤ r ∧ (r : Int) ≤ range.2)) ∧
    ∀ row ∈ selected, range.1 / segmentRows ≤ row.segmentNo → row.segmentNo ≤ range.2 / segmentRows →
      r ∈ row.rowids → ((r / segmentRows : Nat) : Int) = row.segmentNo ∧ (r : Int) ≤ script.hwm := by
  unfold compactPairs at run
  obtain ⟨unpacked, source, rest⟩ := bind_ok run
  obtain ⟨listed, held⟩ := unpackPostings_ok source key r
  have posted : (key, r) ∈ unpacked ↔ ∃ row ∈ selected, row.gramKey = key ∧ r ∈ row.rowids ∧
      range.1 / segmentRows ≤ row.segmentNo ∧ row.segmentNo ≤ range.2 / segmentRows := by
    rw [listed, posted_filter]
    simp only [decide_eq_true_eq]
    constructor
    · rintro ⟨row, present, inside, of_key, posted⟩
      exact ⟨row, present, of_key, posted, inside⟩
    · rintro ⟨row, present, of_key, posted, inside⟩
      exact ⟨row, present, inside, of_key, posted⟩
  constructor
  · rcases branch_ok rest with ⟨purges, rest⟩ | ⟨merges, rest⟩
    · cases ok_inj rest
      rw [List.mem_filter, posted]
      simp only [decide_eq_true_eq, purges, true_implies]
    · cases ok_inj rest
      rw [posted]
      simp only [merges, Bool.false_eq_true, false_implies, and_true]
  · intro row present low high inRow
    exact held row (List.mem_filter.mpr ⟨present, decide_eq_true ⟨low, high⟩⟩) inRow

theorem ofKeys_iff {keys : List (Key × Int)} {row : SegmentRow Key} :
    ofKeys keys row = true ↔ (row.gramKey, row.segmentNo) ∈ keys := decide_eq_true_iff

omit [DecidableEq Key] in
theorem mem_compactLive {hwm : Int} {keys : List (Key × Int)} {base : List (BaseRow Text)} {r : Nat} :
    r ∈ compactLive hwm keys base ↔ ((r : Int) ≤ hwm ∧ ∃ key ∈ keys, key.2 = ((r / segmentRows : Nat) : Int)) ∧
      ∃ row ∈ base, row.rowid = r ∧ row.value.isSome := by
  simp only [compactLive, List.mem_map, List.mem_filter, Bool.and_eq_true, decide_eq_true_eq, List.any_eq_true]
  constructor
  · rintro ⟨row, ⟨present, ⟨below, text⟩, rewritten⟩, rfl⟩
    exact ⟨⟨below, rewritten⟩, row, present, rfl, text⟩
  · rintro ⟨⟨below, rewritten⟩, row, present, rfl, text⟩
    exact ⟨row, ⟨present, ⟨below, text⟩, rewritten⟩, rfl⟩

/-- The key check of a compaction, for the rows that it selects. -/
def KeysInside (hwm : Int) (keys : List (Key × Int)) : Prop :=
  ∀ key ∈ keys, 0 ≤ key.2 ∧ key.2 ≤ if hwm < 0 then -1 else hwm / segmentRows

omit [DecidableEq Key] in
theorem keys_inside {hwm : Int} {keys : List (Key × Int)}
    (passes : ¬ (keys.any fun key => decide (key.2 < 0 ∨
      key.2 > if hwm < 0 then -1 else hwm / segmentRows)) = true) : KeysInside hwm keys := by
  intro key listed
  have inside : ¬ (key.2 < 0 ∨ key.2 > if hwm < 0 then -1 else hwm / segmentRows) :=
    fun bad => passes (List.any_eq_true.mpr ⟨key, listed, decide_eq_true bad⟩)
  rw [not_or] at inside
  exact ⟨not_lt.mp inside.1, not_lt.mp inside.2⟩

theorem selected_range {hwm : Int} {segments : List (SegmentRow Key)} {keys : List (Key × Int)}
    (inside : KeysInside hwm keys) (partitions : Nat) :
    ∀ row ∈ segments.filter (ofKeys keys), ∃ range ∈ segmentAlignedRanges 0 hwm partitions false,
      range.1 / segmentRows ≤ row.segmentNo ∧ row.segmentNo ≤ range.2 / segmentRows := by
  intro row selected
  have bounds := inside _ (ofKeys_iff.mp (List.mem_filter.mp selected).2)
  simp only at bounds
  have start : 0 ≤ row.segmentNo * segmentRows ∧ row.segmentNo * segmentRows ≤ hwm := by
    simp only [segmentRows_eq] at bounds ⊢
    split at bounds <;> omega
  obtain ⟨range, listed, low, high⟩ :=
    @segmentAlignedRanges_cover 0 hwm (row.segmentNo * segmentRows) partitions false
      start.1 (by simpa using start.2)
  have segment := segment_of_rowid low high
  rw [Int.mul_ediv_cancel _ (by decide)] at segment
  exact ⟨range, listed, segment⟩

theorem selected_located {script : CompactScript} {segments : List (SegmentRow Key)} {live : List Nat}
    {keys : List (Key × Int)} {sources : List (List (Key × Nat))} (inside : KeysInside script.hwm keys)
    (run : (segmentAlignedRanges 0 script.hwm script.partitions false).mapM
      (compactPairs script (segments.filter (ofKeys keys)) live) = .ok sources) :
    ∀ row ∈ segments.filter (ofKeys keys), ∀ r ∈ row.rowids,
      ((r / segmentRows : Nat) : Int) = row.segmentNo ∧ (r : Int) ≤ script.hwm := by
  intro row selected r posted
  obtain ⟨range, listed, first, last⟩ := selected_range inside script.partitions row selected
  obtain ⟨pairs, _, decoded⟩ := mapM_ok_left run range listed
  exact (compactPairs_ok decoded row.gramKey r).2 row selected first last posted

omit [DecidableEq Key] in
theorem compactPairs_total {script : CompactScript} {selected : List (SegmentRow Key)} {live : List Nat}
    (range : Int × Int) (unpacks : ∀ row ∈ selected, ∃ pairs, unpackRow script.hwm row = .ok pairs) :
    ∃ pairs, compactPairs script selected live range = .ok pairs := by
  obtain ⟨lists, unpacked⟩ := mapM_total (f := unpackRow script.hwm)
    (selected.filter fun row => decide (range.1 / segmentRows ≤ row.segmentNo ∧ row.segmentNo ≤ range.2 / segmentRows))
    fun row listed => unpacks row (List.mem_filter.mp listed).1
  unfold compactPairs unpackPostings
  rw [unpacked, bind_of_ok rfl, bind_of_ok rfl]
  split
  · exact ⟨_, rfl⟩
  · exact ⟨_, rfl⟩

/-- Whether the selected rows decode does not depend on the partitions. -/
theorem compactSources_total {script : CompactScript} {segments : List (SegmentRow Key)} {live : List Nat}
    {keys : List (Key × Int)} (inside : KeysInside script.hwm keys) :
    (∃ sources, (segmentAlignedRanges 0 script.hwm script.partitions false).mapM
      (compactPairs script (segments.filter (ofKeys keys)) live) = .ok sources) ↔
    ∀ row ∈ segments.filter (ofKeys keys), ∃ pairs, unpackRow script.hwm row = .ok pairs := by
  constructor
  · rintro ⟨sources, run⟩ row selected
    obtain ⟨range, listed, located⟩ := selected_range inside script.partitions row selected
    obtain ⟨pairs, _, decoded⟩ := mapM_ok_left run range listed
    unfold compactPairs unpackPostings at decoded
    obtain ⟨_, unpacked, _⟩ := bind_ok decoded
    obtain ⟨lists, each, _⟩ := bind_ok unpacked
    obtain ⟨list, _, ok⟩ := mapM_ok_left each row (List.mem_filter.mpr ⟨selected, decide_eq_true located⟩)
    exact ⟨list, ok⟩
  · intro unpacks
    exact mapM_total _ fun range _ => compactPairs_total range unpacks

/-- The rewritten rows of a compaction post what the selected rows posted, under
    a purge only what the live rowids confirm. -/
theorem compacted_posted {script : CompactScript} {segments : List (SegmentRow Key)} {live : List Nat}
    {keys : List (Key × Int)} {sources : List (List (Key × Nat))} (space : script.hwm < maxRowId)
    (inside : KeysInside script.hwm keys)
    (run : (segmentAlignedRanges 0 script.hwm script.partitions false).mapM
      (compactPairs script (segments.filter (ofKeys keys)) live) = .ok sources) (key : Key) (r : Nat) :
    Posted (sources.flatMap packPartition) key r ↔
      Posted (segments.filter (ofKeys keys)) key r ∧ (script.purge = true → r ∈ live) := by
  have located := selected_located inside run
  have packed : ∀ pairs ∈ sources, ∀ {key : Key} {r : Nat},
      Posted (packPartition pairs) key r ↔ (key, r) ∈ pairs := by
    intro pairs listed key r
    obtain ⟨range, _, decoded⟩ := mapM_ok_right run pairs listed
    apply packPartition_posted
    intro pair present
    obtain ⟨row, selected, _, posted, _⟩ := ((compactPairs_ok decoded pair.1 pair.2).1.mp present).1
    have below := (located row selected pair.2 posted).2
    simp only [maxRowId, int64Max] at space ⊢
    omega
  constructor
  · rintro ⟨row, present, of_key, posted⟩
    obtain ⟨pairs, listed, inPairs⟩ := List.mem_flatMap.mp present
    obtain ⟨range, _, decoded⟩ := mapM_ok_right run pairs listed
    have pair := (packed pairs listed).mp ⟨row, inPairs, of_key, posted⟩
    obtain ⟨⟨source, selected, source_key, found, _⟩, kept⟩ := (compactPairs_ok decoded key r).1.mp pair
    exact ⟨⟨source, selected, source_key, found⟩, fun purges => (kept purges).1⟩
  · rintro ⟨⟨row, selected, rfl, posted⟩, kept⟩
    obtain ⟨segment, below⟩ := located row selected r posted
    obtain ⟨range, listed, low, high⟩ := @segmentAlignedRanges_cover 0 script.hwm r script.partitions false
      (Int.natCast_nonneg r) (by simpa using below)
    obtain ⟨pairs, inSources, decoded⟩ := mapM_ok_left run range listed
    have bounds := segment_of_rowid low high
    rw [← Int.natCast_ediv, segment] at bounds
    have pair : (row.gramKey, r) ∈ pairs :=
      (compactPairs_ok decoded row.gramKey r).1.mpr
        ⟨⟨row, selected, rfl, posted, bounds⟩, fun purges => ⟨kept purges, low, high⟩⟩
    obtain ⟨out, inPartition, of_key, found⟩ := (packed pairs inSources).mpr pair
    exact ⟨out, List.mem_flatMap.mpr ⟨pairs, inSources, inPartition⟩, of_key, found⟩

/-- The rewritten rows of a compaction: no posting is new, and one is lost only
    by a purge that found no live row under it. -/
theorem rewritten_posted {script : CompactScript} {base : List (BaseRow Text)}
    {segments : List (SegmentRow Key)} {keys : List (Key × Int)} {sources : List (List (Key × Nat))}
    (space : script.hwm < maxRowId) (inside : KeysInside script.hwm keys)
    (run : (segmentAlignedRanges 0 script.hwm script.partitions false).mapM
      (compactPairs script (segments.filter (ofKeys keys)) (compactLive script.hwm keys base)) = .ok sources)
    (key : Key) (r : Nat) :
    (Posted (sources.flatMap packPartition) key r → Posted (segments.filter (ofKeys keys)) key r) ∧
      (Posted (segments.filter (ofKeys keys)) key r →
        (script.purge = true → ∃ row ∈ base, row.rowid = r ∧ row.value.isSome) →
        Posted (sources.flatMap packPartition) key r) := by
  have exact_rows := compacted_posted space inside run key r
  constructor
  · intro rewritten
    exact (exact_rows.mp rewritten).1
  · intro posted stillLive
    apply exact_rows.mpr
    refine ⟨posted, fun purges => ?_⟩
    obtain ⟨row, selected, rfl, inRow⟩ := posted
    obtain ⟨segment, below⟩ := selected_located inside run row selected r inRow
    have rewritten := ofKeys_iff.mp (List.mem_filter.mp selected).2
    exact mem_compactLive.mpr ⟨⟨below, _, rewritten, segment.symm⟩, stillLive purges⟩

/-- The index that a compaction leaves of the rewritten pairs. -/
def compacted (keys : List (Key × Int)) (sources : List (List (Key × Nat))) (index : IndexState Key) :
    IndexState Key :=
  let kept : IndexState Key :=
    { index with segments := index.segments.filter fun row => !ofKeys keys row }
  let merged := kept.appendPacked 0 (sources.flatMap packPartition)
  { merged with segments := merged.segments.map fun row => { row with generation := 0 } }

/-- The two outcomes of a compaction that ran: it was skipped, or the chosen keys
    were rewritten. -/
theorem executeCompact_cases {script : CompactScript} {base : List (BaseRow Text)}
    {index out : IndexState Key} (run : executeCompact script base index = .ok out) :
    index.hwm = script.hwm ∧
    (script.purge = false ∧ script.mayHoldFragmentedKeys = false ∧ out = index ∨
      (script.purge = true ∨ script.mayHoldFragmentedKeys = true) ∧
      KeysInside script.hwm (compactKeys script.purge index.segments) ∧ ∃ sources,
        (segmentAlignedRanges 0 script.hwm script.partitions false).mapM
          (compactPairs script
            (index.segments.filter (ofKeys (compactKeys script.purge index.segments)))
            (compactLive script.hwm (compactKeys script.purge index.segments) base)) = .ok sources ∧
        out = compacted (compactKeys script.purge index.segments) sources index) := by
  unfold executeCompact at run
  obtain ⟨recorded, run⟩ := check_ok run
  refine ⟨not_not.mp recorded, ?_⟩
  rcases branch_ok run with ⟨skipped, run⟩ | ⟨taken, run⟩
  · cases ok_inj run
    exact .inl ⟨by simpa using skipped.1, by simpa using skipped.2, rfl⟩
  · simp only at run
    obtain ⟨inside, run⟩ := check_ok run
    obtain ⟨sources, decoded, run⟩ := bind_ok run
    cases ok_inj run
    refine .inr ⟨?_, keys_inside inside, sources, decoded, rfl⟩
    by_contra neither
    rw [not_or] at neither
    exact taken neither

omit [DecidableEq Key] in
theorem keys_pass {hwm : Int} {keys : List (Key × Int)} (inside : KeysInside hwm keys) :
    ¬ (keys.any fun key => decide (key.2 < 0 ∨ key.2 > if hwm < 0 then -1 else hwm / segmentRows)) = true := by
  intro bad
  obtain ⟨key, listed, outside⟩ := List.any_eq_true.mp bad
  have bounds := inside key listed
  rcases of_decide_eq_true outside with low | high
  · omega
  · omega

theorem executeCompact_rewrites {script : CompactScript} {base : List (BaseRow Text)} {index : IndexState Key}
    {sources : List (List (Key × Nat))} (recorded : index.hwm = script.hwm)
    (taken : script.purge = true ∨ script.mayHoldFragmentedKeys = true)
    (inside : KeysInside script.hwm (compactKeys script.purge index.segments))
    (run : (segmentAlignedRanges 0 script.hwm script.partitions false).mapM
      (compactPairs script (index.segments.filter (ofKeys (compactKeys script.purge index.segments)))
        (compactLive script.hwm (compactKeys script.purge index.segments) base)) = .ok sources) :
    executeCompact script base index =
      .ok (compacted (compactKeys script.purge index.segments) sources index) := by
  unfold executeCompact
  rw [if_neg (not_not.mpr recorded), if_neg]
  · rw [if_neg (keys_pass inside)]
    simp only
    rw [run, bind_of_ok rfl]
    rfl
  · rintro ⟨merges, whole⟩
    rcases taken with purges | fragmented
    · exact merges purges
    · exact whole fragmented

theorem executeCompact_posted {script : CompactScript} {base : List (BaseRow Text)}
    {index out : IndexState Key} (space : script.hwm < maxRowId)
    (run : executeCompact script base index = .ok out) :
    index.hwm = script.hwm ∧ out.hwm = script.hwm ∧ ∀ key r,
      (Posted out.segments key r → Posted index.segments key r) ∧
      (Posted index.segments key r →
        (script.purge = true → ∃ row ∈ base, row.rowid = r ∧ row.value.isSome) →
        Posted out.segments key r) := by
  obtain ⟨same, ⟨_, _, rfl⟩ | ⟨_, inside, sources, decoded, rfl⟩⟩ := executeCompact_cases run
  · exact ⟨same, same, fun key r => ⟨id, fun posted _ => posted⟩⟩
  refine ⟨same, same, fun key r => ?_⟩
  generalize compactKeys script.purge index.segments = keys at *
  obtain ⟨only, all⟩ := rewritten_posted space inside decoded key r
  unfold compacted
  rw [posted_generation]
  unfold IndexState.appendPacked
  rw [posted_append, posted_stamp]
  constructor
  · rintro (kept | rewritten)
    · obtain ⟨row, present, _, found⟩ := posted_filter.mp kept
      exact ⟨row, present, found⟩
    · obtain ⟨row, present, _, found⟩ := posted_filter.mp (only rewritten)
      exact ⟨row, present, found⟩
  · rintro ⟨row, present, found⟩ stillLive
    by_cases chosen : ofKeys keys row = true
    · exact Or.inr (all (posted_filter.mpr ⟨row, present, chosen, found⟩) stillLive)
    · refine Or.inl (posted_filter.mpr ⟨row, present, ?_, found⟩)
      rw [Bool.not_eq_true', ← Bool.not_eq_true]
      exact chosen

end NgramMaintenance
