import NgramIndex.Coverage
import NgramIndex.SegmentRows

/- Generations of one segments table. Every refresh that packs rows opens a
   generation, a compaction folds the rows of a key and segment into one, and in
   between no rowid stands twice under one key. -/
namespace NgramGenerations
open NgramMaintenance NgramProbe NgramRowIdGuard NgramSegmentRows NgramCoverage LabelledRun Fallible
open scoped List
variable {Options Text Key : Type}

def DecodedAt (rows : List (SegmentRow Key)) (key : Key) (segment : Int) (r : Nat) : Prop :=
  ∃ row ∈ rows, rowKey row = (key, segment) ∧ r ∈ row.rowids

def rowNumber (row : SegmentRow Key) : Key × Int × Int := (row.gramKey, row.segmentNo, row.generation)

def OneGeneration (rows : List (SegmentRow Key)) : Prop := ∃ g, ∀ row ∈ rows, row.generation = g

structure Numbered (index : IndexState Key) : Prop where
  held : ∀ row ∈ index.segments, Held index.hwm row
  numbers : (index.segments.map rowNumber).Nodup
  apart : ∀ a ∈ index.segments, ∀ b ∈ index.segments, a.gramKey = b.gramKey →
    ∀ r ∈ a.rowids, r ∈ b.rowids → a = b
  postings : (index.segments.map SegmentRow.postingRowid).Nodup
  allocated : ∀ row ∈ index.segments, row.postingRowid < index.nextPosting

theorem empty_numbered (hwm : Int) (nextPosting : Nat) : Numbered (⟨hwm, [], nextPosting⟩ : IndexState Key) :=
  ⟨nofun, List.nodup_nil, nofun, List.nodup_nil, nofun⟩

theorem unique_of_generation {rows : List (SegmentRow Key)} (numbers : (rows.map rowNumber).Nodup)
    (one : OneGeneration rows) : UniqueKeys rows := by
  obtain ⟨g, same⟩ := one
  have numbered : rows.map rowNumber = (rows.map rowKey).map fun key => (key.1, key.2, g) := by
    rw [List.map_map]
    apply List.map_congr_left
    intro row present
    rw [rowNumber, same row present]
    rfl
  rw [numbered] at numbers
  exact numbers.of_map _

theorem numbers_of_unique {rows : List (SegmentRow Key)} (unique : UniqueKeys rows) :
    (rows.map rowNumber).Nodup := by
  have keys : rows.map rowKey = (rows.map rowNumber).map fun number => (number.1, number.2.1) := by
    rw [List.map_map]
    rfl
  rw [UniqueKeys, keys] at unique
  exact unique.of_map _

theorem packed_apart {hwm : Int} {rows : List (SegmentRow Key)} (packed : Packed hwm rows) :
    ∀ a ∈ rows, ∀ b ∈ rows, a.gramKey = b.gramKey → ∀ r ∈ a.rowids, r ∈ b.rowids → a = b := by
  intro a in_a b in_b key r posted_a posted_b
  apply unique_row packed.unique in_a in_b
  have at_a := ((packed.held a in_a).inside r posted_a).1
  have at_b := ((packed.held b in_b).inside r posted_b).1
  rw [rowKey, rowKey, key, held_segment (packed.held a in_a), held_segment (packed.held b in_b), ← at_a, ← at_b]

theorem decodedAt_iff {hwm : Int} {rows : List (SegmentRow Key)} (held : ∀ row ∈ rows, Held hwm row)
    {key : Key} {segment : Int} {r : Nat} :
    DecodedAt rows key segment r ↔ Posted rows key r ∧ segment = (r / segmentRows : Nat) := by
  constructor
  · rintro ⟨row, present, same, posted⟩
    obtain ⟨rfl, rfl⟩ := Prod.mk.inj same
    refine ⟨⟨row, present, rfl, posted⟩, ?_⟩
    rw [held_segment (held row present), ((held row present).inside r posted).1]
  · rintro ⟨posted, rfl⟩
    obtain ⟨row, present, same, found⟩ := posted_row held posted
    exact ⟨row, present, same, found⟩

theorem generation_nonneg {hwm : Int} {row : SegmentRow Key} (held : Held hwm row) : 0 ≤ row.generation := by
  have written : row.generation = row.generation.toNat := congrArg SegmentRow.generation held.written
  omega

theorem below_nextGeneration {segments : List (SegmentRow Key)} :
    ∀ row ∈ segments, row.generation < nextGeneration segments := by
  intro row present
  obtain ⟨above, _⟩ := @max_mark (segments.map SegmentRow.generation) 0
  have top := above _ (List.mem_map_of_mem present)
  unfold nextGeneration
  omega

theorem stamp_rows {first generation : Nat} {packed : List (SegmentRow Key)} {row : SegmentRow Key}
    (stamped : row ∈ stamp first generation packed) :
    row.generation = generation ∧ first ≤ row.postingRowid ∧ row.postingRowid < first + packed.length := by
  obtain ⟨i, source, listed, rfl⟩ := mem_stamp.mp stamped
  obtain ⟨inside, _⟩ := List.getElem?_eq_some_iff.mp listed
  refine ⟨rfl, ?_, ?_⟩
  · simp only
    omega
  · simp only
    omega

theorem stamp_postings (first generation : Nat) (packed : List (SegmentRow Key)) :
    (stamp first generation packed).map SegmentRow.postingRowid = List.range' first packed.length := by
  apply List.ext_getElem
  · simp [stamp]
  · intro i _ _
    simp [stamp]

theorem unique_of_contents {a b : List (SegmentRow Key)} (same : a.map content ~ b.map content)
    (unique : UniqueKeys a) : UniqueKeys b := by
  have keys : ∀ rows : List (SegmentRow Key),
      rows.map rowKey = (rows.map content).map fun c => (c.gramKey, c.segmentNo) := by
    intro rows
    rw [List.map_map]
    rfl
  rw [UniqueKeys, keys] at unique ⊢
  exact (same.map _).nodup_iff.mp unique

theorem stamp_packed {hwm : Int} {packed : List (SegmentRow Key)} (rows : Packed hwm packed)
    (first generation : Nat) : Packed hwm (stamp first generation packed) := by
  constructor
  · intro row stamped
    obtain ⟨i, source, listed, rfl⟩ := mem_stamp.mp stamped
    exact held_stored (rows.held source (List.mem_of_getElem? listed)) _ _
  · apply unique_of_contents _ rows.unique
    rw [stamp_contents]

theorem append_numbered {index : IndexState Key} {packed : List (SegmentRow Key)} {mark : Int}
    {generation : Nat} (numbered : Numbered index) (rows : Packed mark packed) (forward : index.hwm ≤ mark)
    (past : ∀ row ∈ packed, ∀ r ∈ row.rowids, index.hwm < r)
    (fresh : ∀ row ∈ index.segments, row.generation < generation) :
    Numbered { index.appendPacked generation packed with hwm := mark } := by
  have stamped := stamp_packed rows index.nextPosting generation
  have later : ∀ row ∈ stamp index.nextPosting generation packed, ∀ r ∈ row.rowids, index.hwm < r := by
    intro row present r posted
    obtain ⟨i, source, listed, rfl⟩ := mem_stamp.mp present
    exact past source (List.mem_of_getElem? listed) r posted
  constructor
  · intro row present
    rcases List.mem_append.mp present with old | new
    · exact held_mono (numbered.held row old) forward
    · exact stamped.held row new
  · show ((index.segments ++ stamp index.nextPosting generation packed).map rowNumber).Nodup
    rw [List.map_append]
    apply List.nodup_append.mpr
    refine ⟨numbered.numbers, numbers_of_unique stamped.unique, ?_⟩
    intro a old b new same
    obtain ⟨row, present, rfl⟩ := List.mem_map.mp old
    obtain ⟨added, present', rfl⟩ := List.mem_map.mp new
    have before := fresh row present
    have number : row.generation = added.generation := congrArg (fun n => n.2.2) same
    rw [(stamp_rows present').1] at number
    omega
  · intro a in_a b in_b key r posted_a posted_b
    rcases List.mem_append.mp in_a with old | new <;> rcases List.mem_append.mp in_b with old' | new'
    · exact numbered.apart a old b old' key r posted_a posted_b
    · have below := ((numbered.held a old).inside r posted_a).2
      have above := later b new' r posted_b
      omega
    · have below := ((numbered.held b old').inside r posted_b).2
      have above := later a new r posted_a
      omega
    · exact packed_apart stamped a new b new' key r posted_a posted_b
  · show ((index.segments ++ stamp index.nextPosting generation packed).map SegmentRow.postingRowid).Nodup
    rw [List.map_append, stamp_postings]
    apply List.nodup_append.mpr
    refine ⟨numbered.postings, List.nodup_range', ?_⟩
    intro a old b new same
    obtain ⟨row, present, rfl⟩ := List.mem_map.mp old
    have before := numbered.allocated row present
    have after := (List.mem_range'_1.mp new).1
    omega
  · intro row present
    show row.postingRowid < index.nextPosting + packed.length
    rcases List.mem_append.mp present with old | new
    · have before := numbered.allocated row old
      omega
    · exact (stamp_rows new).2.2

section Compactions
variable [DecidableEq Key]

theorem mem_compactKeys {purge : Bool} {segments : List (SegmentRow Key)} {key : Key × Int} :
    key ∈ compactKeys purge segments ↔ key ∈ segments.map rowKey ∧
      (purge = true ∨ 1 < (segments.map rowKey).count key) := by
  have keys : (segments.map fun row => (row.gramKey, row.segmentNo)) = segments.map rowKey := rfl
  cases purge with
  | true => simp [compactKeys, keys]
  | false => simp [compactKeys, keys]

/-- The keys of the table pass the check of a compaction under its mark. -/
theorem numbered_inside {index : IndexState Key} (numbered : Numbered index) (purge : Bool) :
    KeysInside index.hwm (compactKeys purge index.segments) := by
  intro key listed
  obtain ⟨row, present, rfl⟩ := List.mem_map.mp (mem_compactKeys.mp listed).1
  have held := numbered.held row present
  obtain ⟨r, posted⟩ := List.exists_mem_of_ne_nil _ held.nonempty
  obtain ⟨segment, below⟩ := held.inside r posted
  have last := (segment_of_rowid (le_refl _) below).2
  show 0 ≤ row.segmentNo ∧ row.segmentNo ≤ if index.hwm < 0 then -1 else index.hwm / segmentRows
  rw [if_neg (by omega), held_segment held]
  omega

omit [DecidableEq Key] in
/-- A row that packing wrote passes the checks of the unpacking. -/
theorem held_unpacks {hwm : Int} {row : SegmentRow Key} (mark : hwm < 2 ^ 63) (held : Held hwm row) :
    unpackRow hwm row = .ok (row.rowids.map fun r => (row.gramKey, r)) := by
  have truthful := held_truthful mark held
  have segment := held_segment held
  have generation := generation_nonneg held
  have head : row.minRowid = row.rowids.headD 0 := congrArg SegmentRow.minRowid held.written
  have last : row.maxRowid = row.rowids.getLastD 0 := congrArg SegmentRow.maxRowid held.written
  have count := truthful.rowidCount
  have decoded := (truthful_decodes mark truthful).1
  unfold unpackRow
  rw [decoded, bind_of_ok rfl, if_neg, if_neg]
  · have some_row := List.length_pos_of_ne_nil held.nonempty
    rintro (none_counted | other | drained | low | high | early)
    · omega
    · omega
    · exact held.nonempty drained
    · exact low head
    · exact high last
    · omega
  · intro bad
    obtain ⟨r, posted, outside⟩ := List.any_eq_true.mp bad
    obtain ⟨at_segment, below⟩ := held.inside r posted
    rw [← at_segment] at segment
    rcases of_decide_eq_true outside with negative | other | past
    · omega
    · exact other segment.symm
    · omega

theorem kept_unique (purge : Bool) (segments : List (SegmentRow Key)) :
    UniqueKeys (segments.filter fun row => !ofKeys (compactKeys purge segments) row) := by
  apply List.nodup_iff_count_le_one.mpr
  intro key
  by_contra several
  have whole := (List.filter_sublist (l := segments) (p := fun row =>
    !ofKeys (compactKeys purge segments) row)).map rowKey |>.count_le key
  have present : key ∈ (segments.filter fun row => !ofKeys (compactKeys purge segments) row).map rowKey :=
    List.count_pos_iff.mp (by omega)
  obtain ⟨row, kept, rfl⟩ := List.mem_map.mp present
  obtain ⟨listed, unchosen⟩ := List.mem_filter.mp kept
  rw [Bool.not_eq_true', ← Bool.not_eq_true, ofKeys_iff] at unchosen
  have many : 1 < (segments.map rowKey).count (rowKey row) := by omega
  exact unchosen (mem_compactKeys.mpr ⟨List.mem_map_of_mem listed, .inr many⟩)

structure Rewrites (script : CompactScript) (live : List Nat) (index : IndexState Key)
    (sources : List (List (Key × Nat))) : Prop where
  recorded : index.hwm = script.hwm
  run : (segmentAlignedRanges 0 script.hwm script.partitions false).mapM
    (compactPairs script (index.segments.filter (ofKeys (compactKeys script.purge index.segments))) live) =
      .ok sources

section Rewriting
variable {script : CompactScript} {live : List Nat} {index : IndexState Key} {sources : List (List (Key × Nat))}

theorem rewrites_packed (space : index.hwm < maxRowId) (rewrites : Rewrites script live index sources) :
    Packed index.hwm (sources.flatMap packPartition) := by
  have recorded := rewrites.recorded
  rw [recorded]
  have small : script.hwm < 2 ^ 63 := by
    simp only [maxRowId] at space
    omega
  exact compact_packed small rewrites.run

theorem rewrites_posted (numbered : Numbered index) (space : index.hwm < maxRowId)
    (rewrites : Rewrites script live index sources) (key : Key) (r : Nat) :
    Posted (sources.flatMap packPartition) key r ↔
      Posted (index.segments.filter (ofKeys (compactKeys script.purge index.segments))) key r ∧
        (script.purge = true → r ∈ live) := by
  have inside := numbered_inside numbered script.purge
  rw [rewrites.recorded] at inside space
  exact compacted_posted space inside rewrites.run key r

theorem compacted_rows {keys : List (Key × Int)} {row : SegmentRow Key}
    (present : row ∈ (compacted keys sources index).segments) :
    row.generation = 0 ∧
      ((∃ source ∈ index.segments, ofKeys keys source = false ∧ row = { source with generation := 0 }) ∨
        ∃ source ∈ stamp index.nextPosting 0 (sources.flatMap packPartition),
          row = { source with generation := 0 }) := by
  obtain ⟨source, listed, rfl⟩ := List.mem_map.mp present
  refine ⟨rfl, ?_⟩
  rcases List.mem_append.mp listed with kept | added
  · obtain ⟨standing, unchosen⟩ := List.mem_filter.mp kept
    exact .inl ⟨source, standing, by simpa using unchosen, rfl⟩
  · exact .inr ⟨source, added, rfl⟩

theorem compacted_packed (numbered : Numbered index) (space : index.hwm < maxRowId)
    (rewrites : Rewrites script live index sources) :
    Packed index.hwm (compacted (compactKeys script.purge index.segments) sources index).segments := by
  have packed := rewrites_packed space rewrites
  have stamped := stamp_packed packed index.nextPosting 0
  constructor
  · intro row present
    rcases (compacted_rows present).2 with ⟨source, standing, _, rfl⟩ | ⟨source, added, rfl⟩
    · exact held_stored (numbered.held source standing) _ 0
    · exact held_stored (stamped.held source added) _ 0
  · apply unique_of_contents (a := (index.segments.filter fun row =>
        !ofKeys (compactKeys script.purge index.segments) row) ++ sources.flatMap packPartition)
    · rw [compacted_contents, List.map_append]
    · rw [UniqueKeys, List.map_append]
      apply List.nodup_append.mpr
      refine ⟨kept_unique script.purge index.segments, packed.unique, ?_⟩
      intro a old b new same
      obtain ⟨row, kept, rfl⟩ := List.mem_map.mp old
      obtain ⟨added, present, rfl⟩ := List.mem_map.mp new
      obtain ⟨r, posted⟩ := List.exists_mem_of_ne_nil _ (packed.held added present).nonempty
      obtain ⟨⟨source, selected, of_key, found⟩, _⟩ :=
        (rewrites_posted numbered space rewrites added.gramKey r).mp ⟨added, present, rfl, posted⟩
      obtain ⟨standing, chosen⟩ := List.mem_filter.mp selected
      have source_held := numbered.held source standing
      have key : rowKey source = rowKey added := by
        rw [rowKey, rowKey, of_key, held_segment source_held, held_segment (packed.held added present),
          ← (source_held.inside r found).1, ← ((packed.held added present).inside r posted).1]
      have unchosen := (List.mem_filter.mp kept).2
      rw [Bool.not_eq_true', ← Bool.not_eq_true, ofKeys_iff] at unchosen
      rw [ofKeys_iff] at chosen
      apply unchosen
      have named : (row.gramKey, row.segmentNo) = (source.gramKey, source.segmentNo) := same.trans key.symm
      rwa [named]

theorem compacted_numbered (numbered : Numbered index) (space : index.hwm < maxRowId)
    (rewrites : Rewrites script live index sources) :
    Numbered (compacted (compactKeys script.purge index.segments) sources index) := by
  have packed := compacted_packed numbered space rewrites
  refine ⟨packed.held, numbers_of_unique packed.unique, packed_apart packed, ?_, ?_⟩
  · have postings : (compacted (compactKeys script.purge index.segments) sources index).segments.map
        SegmentRow.postingRowid = (index.segments.filter fun row =>
          !ofKeys (compactKeys script.purge index.segments) row).map SegmentRow.postingRowid ++
            List.range' index.nextPosting (sources.flatMap packPartition).length := by
      rw [← stamp_postings _ 0, ← List.map_append]
      unfold compacted
      rw [List.map_map]
      rfl
    rw [postings]
    apply List.nodup_append.mpr
    refine ⟨numbered.postings.sublist (List.filter_sublist.map _), List.nodup_range', ?_⟩
    intro a old b new same
    obtain ⟨row, kept, rfl⟩ := List.mem_map.mp old
    have before := numbered.allocated row (List.mem_filter.mp kept).1
    have after := (List.mem_range'_1.mp new).1
    omega
  · intro row present
    show row.postingRowid < index.nextPosting + (sources.flatMap packPartition).length
    rcases (compacted_rows present).2 with ⟨source, standing, _, rfl⟩ | ⟨source, added, rfl⟩
    · have before := numbered.allocated source standing
      show source.postingRowid < _
      omega
    · exact (stamp_rows added).2.2

end Rewriting

section Executions
variable {base : List (BaseRow Text)} {script : CompactScript} {index out : IndexState Key}

def Live (rows : List (BaseRow Text)) (r : Nat) : Prop := ∃ row ∈ rows, row.rowid = r ∧ row.value.isSome

theorem executeCompact_total (numbered : Numbered index) (space : index.hwm < maxRowId)
    (recorded : index.hwm = script.hwm) : ∃ out, executeCompact script base index = .ok out := by
  by_cases taken : script.purge = true ∨ script.mayHoldFragmentedKeys = true
  · have inside := numbered_inside numbered script.purge
    rw [recorded] at inside
    have decodes : ∀ row ∈ index.segments.filter (ofKeys (compactKeys script.purge index.segments)),
        ∃ pairs, unpackRow script.hwm row = .ok pairs := by
      intro row selected
      rw [← recorded]
      have small : index.hwm < 2 ^ 63 := by
        simp only [maxRowId] at space
        omega
      exact ⟨_, held_unpacks small (numbered.held row (List.mem_filter.mp selected).1)⟩
    obtain ⟨sources, run⟩ := (compactSources_total inside).mpr decodes
    exact ⟨_, executeCompact_rewrites recorded taken inside run⟩
  · rw [not_or] at taken
    unfold executeCompact
    exact ⟨index, by rw [if_neg (not_not.mpr recorded), if_pos taken]⟩

theorem executeCompact_keeps (numbered : Numbered index) (space : index.hwm < maxRowId)
    (run : executeCompact script base index = .ok out) :
    Numbered out ∧ out.hwm = index.hwm ∧
      (out = index ∧ script.purge = false ∧ script.mayHoldFragmentedKeys = false ∨
        Packed index.hwm out.segments ∧ ∀ row ∈ out.segments, row.generation = 0) := by
  obtain ⟨recorded, ⟨merges, whole, rfl⟩ | ⟨_, _, sources, decoded, rfl⟩⟩ := executeCompact_cases run
  · exact ⟨numbered, rfl, .inl ⟨rfl, merges, whole⟩⟩
  · have rewrites : Rewrites script _ index sources := ⟨recorded, decoded⟩
    exact ⟨compacted_numbered numbered space rewrites, rfl, .inr
      ⟨compacted_packed numbered space rewrites, fun row present => (compacted_rows present).1⟩⟩

theorem executeCompact_exact (numbered : Numbered index) (space : index.hwm < maxRowId)
    (run : executeCompact script base index = .ok out) (key : Key) (r : Nat) :
    Posted out.segments key r ↔ Posted index.segments key r ∧ (script.purge = true → Live base r) := by
  obtain ⟨recorded, ⟨merges, _, rfl⟩ | ⟨_, _, sources, decoded, rfl⟩⟩ := executeCompact_cases run
  · simp [merges]
  have rewritten := rewrites_posted numbered space ⟨recorded, decoded⟩ key r
  have live : ∀ row ∈ index.segments.filter (ofKeys (compactKeys script.purge index.segments)),
      r ∈ row.rowids →
      (r ∈ compactLive script.hwm (compactKeys script.purge index.segments) base ↔ Live base r) := by
    intro row selected posted
    obtain ⟨present, chosen⟩ := List.mem_filter.mp selected
    have held := numbered.held row present
    obtain ⟨segment, below⟩ := held.inside r posted
    rw [recorded] at below
    have at_segment : row.segmentNo = (r / segmentRows : Nat) := by rw [held_segment held, segment]
    rw [mem_compactLive]
    exact and_iff_right ⟨below, _, ofKeys_iff.mp chosen, at_segment⟩
  unfold compacted
  rw [posted_generation]
  unfold IndexState.appendPacked
  rw [posted_append, posted_stamp, rewritten]
  constructor
  · rintro (kept | ⟨⟨row, selected, of_key, posted⟩, confirmed⟩)
    · obtain ⟨row, present, unchosen, of_key, posted⟩ := posted_filter.mp kept
      refine ⟨⟨row, present, of_key, posted⟩, fun purges => ?_⟩
      -- a purge chooses every key
      rw [Bool.not_eq_true', ← Bool.not_eq_true, ofKeys_iff] at unchosen
      exact absurd (mem_compactKeys.mpr ⟨List.mem_map_of_mem present, .inl purges⟩) unchosen
    · exact ⟨⟨row, (List.mem_filter.mp selected).1, of_key, posted⟩,
        fun purges => (live row selected posted).mp (confirmed purges)⟩
  · rintro ⟨⟨row, present, of_key, posted⟩, confirmed⟩
    by_cases chosen : ofKeys (compactKeys script.purge index.segments) row = true
    · have selected := List.mem_filter.mpr ⟨present, chosen⟩
      exact .inr ⟨⟨row, selected, of_key, posted⟩, fun purges => (live row selected posted).mpr (confirmed purges)⟩
    · refine .inl (posted_filter.mpr ⟨row, present, ?_, of_key, posted⟩)
      rw [Bool.not_eq_true', ← Bool.not_eq_true]
      exact chosen

end Executions

end Compactions

section Refreshes
variable [DecidableEq Key]

omit [DecidableEq Key] in
theorem packed_below {hwm mark : Int} {rows : List (SegmentRow Key)} (packed : Packed hwm rows)
    (below : ∀ row ∈ rows, ∀ r ∈ row.rowids, (r : Int) ≤ mark) : Packed mark rows where
  held row present :=
    { written := (packed.held row present).written
      ascending := (packed.held row present).ascending
      nonempty := (packed.held row present).nonempty
      inside := fun r posted => ⟨((packed.held row present).inside r posted).1, below row present r posted⟩ }
  unique := packed.unique

/-- A packing pass writes one row for each key of a segment, all of them past the
    old mark and up to the new one. -/
theorem pass_packed {gramKeys : Text → List Key} {base : List (BaseRow Text)} {hwm : Int}
    {totalRows partitions : Nat} {maxRows : Option Int} {pass : RefreshPass} (low : -1 ≤ hwm)
    (some_row : ∀ rows, maxRows = some rows → 1 ≤ rows) (space : totalRows ≤ maxRowId)
    (expanded : refreshScript hwm totalRows partitions maxRows = ⟨hwm, some pass⟩) :
    Packed (refreshedHighWaterMark base hwm hwm pass.stopsShort pass.boundEnd)
      (packRanges gramKeys base pass.ranges) ∧
    ∀ key r, Posted (packRanges gramKeys base pass.ranges) key r ↔ ∃ row ∈ base, ∃ text, row.rowid = r ∧
      row.value = some text ∧ key ∈ gramKeys text ∧ hwm < r ∧
        (r : Int) ≤ refreshedHighWaterMark base hwm hwm pass.stopsShort pass.boundEnd := by
  have settled := @refreshedHighWaterMark_settled _ base hwm totalRows partitions maxRows pass
    low some_row space expanded
  have posted := fun key r => @pass_posted _ _ _ gramKeys base hwm totalRows partitions maxRows pass
    space expanded key r
  obtain ⟨reach, inside, ranges⟩ := pass_ranges space expanded
  generalize refreshedHighWaterMark base hwm hwm pass.stopsShort pass.boundEnd = mark at settled ⊢
  have packed : Packed (maxRowId - 1) (packRanges gramKeys base pass.ranges) := by
    apply packRanges_packed (by decide)
    · intro range listed
      have last := (inside range listed).2
      omega
    · rw [ranges]
      exact segmentAlignedRanges_apart _ _ _ _
  constructor
  · apply packed_below packed
    intro row present r in_row
    obtain ⟨base_row, there, _, rfl, _, _, past, reached⟩ := (posted row.gramKey r).mp ⟨row, present, rfl, in_row⟩
    exact settled.covered base_row there past reached
  · intro key r
    rw [posted]
    constructor
    · rintro ⟨row, present, text, rfl, value, in_text, past, reached⟩
      exact ⟨row, present, text, rfl, value, in_text, past, settled.covered row present past reached⟩
    · rintro ⟨row, present, text, rfl, value, in_text, past, below⟩
      have reached := settled.reached
      exact ⟨row, present, text, rfl, value, in_text, past, by omega⟩

/-- A refresh appends a generation past the mark, or leaves the mark and the rows. -/
theorem executeRefresh_numbered {gramKeys : Text → List Key} {script : RefreshScript}
    {base : List (BaseRow Text)} {index out : IndexState Key} {options : Options}
    (numbered : Numbered index) (low : -1 ≤ index.hwm) (expanded : Expanded (.refresh options script))
    (run : executeRefresh gramKeys script base index = .ok out) :
    Numbered out ∧ index.hwm ≤ out.hwm ∧ (out.hwm = index.hwm → out.segments = index.segments) := by
  obtain ⟨totalRows, partitions, maxRows, space, some_row, same⟩ := expanded
  unfold executeRefresh at run
  obtain ⟨recorded, run⟩ := check_ok run
  have recorded : index.hwm = script.hwm := not_not.mp recorded
  cases passes : script.pass with
  | none =>
    rw [passes] at run
    cases ok_inj run
    exact ⟨numbered, Int.le_refl _, fun _ => rfl⟩
  | some pass =>
    rw [passes] at run
    cases ok_inj run
    rw [recorded] at low
    have expansion : refreshScript script.hwm totalRows partitions maxRows = ⟨script.hwm, some pass⟩ := by
      rw [← same, ← passes]
    have forward := (@refreshedHighWaterMark_settled _ base script.hwm totalRows partitions maxRows pass
      low some_row space expansion).forward
    obtain ⟨packed, posted⟩ := @pass_packed _ _ _ gramKeys base script.hwm totalRows partitions maxRows pass
      low some_row space expansion
    simp only [recorded]
    generalize refreshedHighWaterMark base script.hwm script.hwm pass.stopsShort pass.boundEnd = mark at *
    have covers : ∀ row ∈ packRanges gramKeys base pass.ranges, ∀ r ∈ row.rowids,
        script.hwm < r ∧ (r : Int) ≤ mark := by
      intro row present r in_row
      obtain ⟨_, _, _, _, _, _, bounds⟩ := (posted row.gramKey r).mp ⟨row, present, rfl, in_row⟩
      exact bounds
    refine ⟨?_, forward, ?_⟩
    · apply append_numbered numbered packed (recorded.trans_le forward)
      · intro row present r in_row
        rw [recorded]
        exact (covers row present r in_row).1
      · intro row present
        exact below_nextGeneration row present
    · intro same_mark
      have none_packed : packRanges gramKeys base pass.ranges = [] := by
        apply List.eq_nil_iff_forall_not_mem.mpr
        intro row present
        obtain ⟨r, in_row⟩ := List.exists_mem_of_ne_nil _ (packed.held row present).nonempty
        have bounds := covers row present r in_row
        omega
      show index.segments ++ stamp _ _ (packRanges gramKeys base pass.ranges) = index.segments
      rw [none_packed]
      exact List.append_nil _

theorem createdIndex_numbered {gramKeys : Text → List Key} {base : List (BaseRow Text)}
    {totalRows partitions : Nat} (space : totalRows ≤ maxRowId) :
    Numbered (createdIndex gramKeys base totalRows partitions) := by
  have below : ∀ range ∈ segmentAlignedRanges 0 (totalRows - 1) partitions true, range.2 ≤ (maxRowId : Int) - 1 := by
    intro range listed
    have bounds := (segmentAlignedRanges_inside range listed).2
    simp only [if_true] at bounds
    omega
  have packed : Packed (maxRowId - 1)
      (packRanges gramKeys base (segmentAlignedRanges 0 (totalRows - 1) partitions true)) :=
    packRanges_packed (by decide) below (segmentAlignedRanges_apart _ _ _ _)
  have marked : ∀ row ∈ packRanges gramKeys base (segmentAlignedRanges 0 (totalRows - 1) partitions true),
      ∀ r ∈ row.rowids, (r : Int) ≤ createdMark base := by
    intro row present r in_row
    obtain ⟨range, listed, pair⟩ := (packRanges_posted fun range listed => by
      have last := below range listed
      omega).mp ⟨row, present, rfl, in_row⟩
    obtain ⟨base_row, there, _, rfl, _, _, _, high⟩ := mem_rangePairs.mp pair
    have last := below range listed
    exact (createdMark_spec base).1 base_row there (by omega)
  have low : -1 ≤ createdMark base := by
    rcases (createdMark_spec base).2 with unset | ⟨row, _, _, top⟩
    · omega
    · omega
  show Numbered { (⟨-1, [], 0⟩ : IndexState Key).appendPacked 0 _ with hwm := createdMark base }
  apply append_numbered (empty_numbered (-1) 0) (packed_below packed marked) low
  · intro _ _ r _
    show (-1 : Int) < r
    omega
  · exact nofun

end Refreshes

/-- Whether a segments table can hold two rows of one key and segment, by what the
    expansion sees of the generation column: rows of its own transaction, and the
    column's statistics, which are none without a minimum and a maximum. -/
def mayHoldFragmentedKeys (localStorage generationColumn : Bool) (stats : Option (Int × Int)) : Bool :=
  if localStorage then true
  else if !generationColumn then true
  else
    match stats with
    | none => true
    | some (low, high) => low != high

def StatsBound (segments : List (SegmentRow Key)) (stats : Option (Int × Int)) : Prop :=
  ∀ bounds, stats = some bounds → ∀ row ∈ segments, bounds.1 ≤ row.generation ∧ row.generation ≤ bounds.2

/-- An answer that the statistics of these rows can give. -/
def Answers (segments : List (SegmentRow Key)) (fragmented : Bool) : Prop :=
  ∃ localStorage generationColumn stats, StatsBound segments stats ∧
    fragmented = mayHoldFragmentedKeys localStorage generationColumn stats

/-- The host's statistics bound the stored generations at every expansion. -/
def Reported (w : IndexedTable Options Text Key) : IndexEvent Options Text → Prop
  | .prepareCompact _ fragmented _ => ∀ options index, w.index = some (options, index) →
      Answers index.segments fragmented
  | _ => True

theorem one_generation_of_stats {segments : List (SegmentRow Key)} {fragmented : Bool}
    (answers : Answers segments fragmented) (whole : fragmented = false) : OneGeneration segments := by
  obtain ⟨localStorage, generationColumn, stats, bound, rfl⟩ := answers
  cases localStorage with
  | true => exact nomatch whole
  | false =>
    cases generationColumn with
    | false => exact nomatch whole
    | true =>
      cases stats with
      | none => exact nomatch whole
      | some bounds =>
        refine ⟨bounds.1, fun row present => ?_⟩
        have inside := bound bounds rfl row present
        have equal : bounds.1 = bounds.2 := by simpa [mayHoldFragmentedKeys] using whole
        omega

/-- What a script that would skip its merge may rely on. -/
def Skips (script : CompactScript) (index : IndexState Key) : Prop :=
  script.hwm = index.hwm → script.purge = false → script.mayHoldFragmentedKeys = false →
    OneGeneration index.segments

/-- An index that maintenance put in the place of another: while the mark stays,
    one generation stays one generation. -/
structure Follows (before after : IndexState Key) : Prop where
  forward : before.hwm ≤ after.hwm
  generation : after.hwm = before.hwm → OneGeneration before.segments → OneGeneration after.segments

theorem follows_refl (index : IndexState Key) : Follows index index := ⟨Int.le_refl _, fun _ one => one⟩

def TableNumbered (w : IndexedTable Options Text Key) : Prop :=
  ∀ options index, w.index = some (options, index) → Numbered index

/-- What is left of every index after a step: itself, or what maintenance made of it. -/
def Evolves (w u : IndexedTable Options Text Key) : Prop :=
  ∀ options index, w.index = some (options, index) → ∃ next, u.index = some (options, next) ∧ Follows index next

/-- The pending scripts that would skip a merge belong to the index. -/
def Pending (w : IndexedTable Options Text Key) : Prop :=
  ∀ options script, Prepared.compact options script ∈ w.pending →
    ∃ recorded index, w.index = some (recorded, index) ∧ script.hwm ≤ index.hwm ∧ Skips script index

section Steps
variable {gramKeys : Options → Text → List Key} {w u : IndexedTable Options Text Key}

theorem unindexed_numbered (db : AttachedDatabase) (nextRowId : Nat) (rows : List (BaseRow Text)) :
    TableNumbered (unindexed db nextRowId rows : IndexedTable Options Text Key) :=
  fun _ _ found => nomatch found

theorem unindexed_pending (db : AttachedDatabase) (nextRowId : Nat) (rows : List (BaseRow Text)) :
    Pending (unindexed db nextRowId rows : IndexedTable Options Text Key) :=
  fun _ _ none => absurd none List.not_mem_nil

theorem index_kept (numbered : TableNumbered w) (index : u.index = w.index) : TableNumbered u ∧ Evolves w u := by
  constructor
  · intro options state found
    rw [index] at found
    exact numbered options state found
  · intro options state found
    exact ⟨state, index.trans found, follows_refl state⟩

theorem index_replaced {options : Options} {index next : IndexState Key}
    (found : w.index = some (options, index)) (numbered : Numbered next) (follows : Follows index next) :
    TableNumbered { w with index := some (options, next) } ∧ Evolves w { w with index := some (options, next) } := by
  constructor
  · intro _ _ same
    cases same
    exact numbered
  · intro other state same
    rw [found] at same
    cases same
    exact ⟨next, rfl, follows⟩

theorem evolved_pending (pending : Pending w) (evolves : Evolves w u) {options : Options}
    {script : CompactScript} (listed : Prepared.compact options script ∈ w.pending) :
    ∃ recorded index, u.index = some (recorded, index) ∧ script.hwm ≤ index.hwm ∧ Skips script index := by
  obtain ⟨recorded, index, found, below, skips⟩ := pending options script listed
  obtain ⟨next, there, follows⟩ := evolves recorded index found
  have forward := follows.forward
  refine ⟨recorded, next, there, by omega, fun same merges whole => ?_⟩
  exact follows.generation (by omega) (skips (by omega) merges whole)

theorem prepare_index (script : Except String (Prepared Options)) : (w.prepare script).index = w.index := by
  cases script with
  | error reason => rfl
  | ok prepared => rfl

theorem prepare_pending {script : Except String (Prepared Options)} {added : Prepared Options}
    (listed : added ∈ (w.prepare script).pending) : added ∈ w.pending ∨ script = .ok added := by
  cases script with
  | error reason => exact .inl listed
  | ok prepared =>
    rcases List.mem_append.mp listed with before | new
    · exact .inl before
    · rw [List.mem_singleton.mp new]
      exact .inr rfl

theorem resolved_index {options : Options} {index : IndexState Key}
    (resolved : resolveMaintenanceColumn w = .ok (options, index)) : w.index = some (options, index) := by
  unfold resolveMaintenanceColumn at resolved
  split at resolved
  · exact nomatch resolved
  · rename_i found
    split at resolved
    · exact nomatch resolved
    · cases ok_inj resolved
      exact found

variable [DecidableEq Options] [DecidableEq Key]

theorem runPrepared_evolves {script : Prepared Options} {token : String} {localRows : List (BaseRow Text)}
    (tracked : Tracked gramKeys w) (numbered : TableNumbered w) (expanded : Expanded script)
    (run : runPrepared gramKeys w token localRows script = .ok u) :
    TableNumbered u ∧ Evolves w u ∧ u.pending = w.pending := by
  cases script with
  | create options sharesGuard totalRows partitions =>
    obtain ⟨absent, run⟩ := check_ok run
    obtain ⟨table, guard, run⟩ := bind_ok run
    cases ok_inj run
    have nothing : w.index = none := by simpa using absent
    refine ⟨?_, ?_, rfl⟩
    · intro _ _ same
      cases same
      exact createdIndex_numbered expanded
    · intro _ _ found
      rw [nothing] at found
      exact nomatch found
  | refresh options script =>
    obtain ⟨index, checked, run⟩ := bind_ok run
    obtain ⟨refreshed, ran, run⟩ := bind_ok run
    cases ok_inj run
    obtain ⟨found, _, _⟩ := checkPreparedMaintenance_ok checked
    obtain ⟨packed, forward, idle⟩ := executeRefresh_numbered (numbered options index found)
      (tracked.mark options index found).1 expanded ran
    obtain ⟨after, evolves⟩ := index_replaced found packed ⟨forward, fun same one => by
      rw [idle same]
      exact one⟩
    exact ⟨after, evolves, rfl⟩
  | compact options script =>
    obtain ⟨index, checked, run⟩ := bind_ok run
    obtain ⟨compacted, ran, run⟩ := bind_ok run
    cases ok_inj run
    obtain ⟨found, _, _⟩ := checkPreparedMaintenance_ok checked
    obtain ⟨packed, same, outcome⟩ := executeCompact_keeps (numbered options index found)
      (tracked.mark options index found).2 ran
    have one_generation : OneGeneration index.segments → OneGeneration compacted.segments := by
      intro one
      rcases outcome with ⟨rfl, _⟩ | ⟨_, zero⟩
      · exact one
      · exact ⟨0, zero⟩
    obtain ⟨after, evolves⟩ := index_replaced found packed ⟨same.ge, fun _ => one_generation⟩
    exact ⟨after, evolves, rfl⟩

theorem index_step_evolves {e : IndexEvent Options Text} (tracked : Tracked gramKeys w)
    (numbered : TableNumbered w) (step : indexStep gramKeys w e = some u) :
    TableNumbered u ∧ Evolves w u ∧ ∀ options script, Prepared.compact options script ∈ u.pending →
      Prepared.compact options script ∈ w.pending ∨
      ∃ purge fragmented partitions recorded index, e = .prepareCompact purge fragmented partitions ∧
        w.index = some (recorded, index) ∧ script = ⟨index.hwm, purge, fragmented, partitions⟩ := by
  cases e with
  | host e values =>
    obtain ⟨_, _, index, pending, _⟩ := hostStep_cases step
    obtain ⟨after, evolves⟩ := index_kept numbered index
    refine ⟨after, evolves, fun options script listed => ?_⟩
    rw [pending] at listed
    exact .inl listed
  | indexOtherColumn token =>
    simp only [indexStep, Option.ite_none_right_eq_some, Option.some.injEq] at step
    obtain ⟨_, rfl⟩ := step
    obtain ⟨after, evolves⟩ := index_kept (u := { w with
      table := guardCreated w.table.db w.table.nextRowId w.table.live token
      guarded := true }) numbered rfl
    exact ⟨after, evolves, fun _ _ listed => .inl listed⟩
  | prepareCreate options totalRows partitions =>
    simp only [indexStep, Option.ite_none_right_eq_some, Option.some.injEq] at step
    obtain ⟨_, rfl⟩ := step
    obtain ⟨after, evolves⟩ := index_kept numbered (prepare_index _)
    refine ⟨after, evolves, fun options script listed => ?_⟩
    rcases prepare_pending listed with before | expanded
    · exact .inl before
    · obtain ⟨_, other⟩ := check_ok expanded
      cases other
  | prepareRefresh totalRows partitions maxRows =>
    simp only [indexStep, Option.ite_none_right_eq_some, Option.some.injEq] at step
    obtain ⟨_, rfl⟩ := step
    obtain ⟨after, evolves⟩ := index_kept numbered (prepare_index _)
    refine ⟨after, evolves, fun options script listed => ?_⟩
    rcases prepare_pending listed with before | expanded
    · exact .inl before
    · obtain ⟨_, _, expanded⟩ := bind_ok expanded
      obtain ⟨_, other⟩ := check_ok expanded
      cases other
  | prepareCompact purge fragmented partitions =>
    simp only [indexStep, Option.some.injEq] at step
    subst step
    obtain ⟨after, evolves⟩ := index_kept numbered (prepare_index _)
    refine ⟨after, evolves, fun options script listed => ?_⟩
    rcases prepare_pending listed with before | expanded
    · exact .inl before
    · obtain ⟨⟨recorded, index⟩, resolved, expanded⟩ := bind_ok expanded
      cases ok_inj expanded
      exact .inr ⟨purge, fragmented, partitions, recorded, index, rfl, resolved_index resolved, rfl⟩
  | run handle token localRows =>
    simp only [indexStep, Option.ite_none_right_eq_some, Option.map_eq_some_iff] at step
    obtain ⟨_, script, pending, step⟩ := step
    have others : ∀ other ∈ w.pending.eraseIdx handle, other ∈ w.pending := fun other kept =>
      List.mem_of_mem_eraseIdx kept
    obtain ⟨taken, _⟩ := pending_step tracked fun other kept => tracked.expanded other (others other kept)
    obtain ⟨left, evolves⟩ := index_kept (u := { w with pending := w.pending.eraseIdx handle }) numbered rfl
    split at step
    · subst step
      exact ⟨left, evolves, fun options script listed => .inl (others _ listed)⟩
    · rename_i done ran
      subst step
      obtain ⟨after, moved, same⟩ := runPrepared_evolves taken left
        (tracked.expanded script (List.mem_of_getElem? pending)) ran
      refine ⟨after, moved, fun options script listed => ?_⟩
      rw [same] at listed
      exact .inl (others _ listed)
  | rollback handle =>
    simp only [indexStep, Option.ite_none_right_eq_some, Option.some.injEq] at step
    obtain ⟨_, rfl⟩ := step
    obtain ⟨after, evolves⟩ := index_kept (u := { w with pending := w.pending.eraseIdx handle }) numbered rfl
    exact ⟨after, evolves, fun _ _ listed => .inl (List.mem_of_mem_eraseIdx listed)⟩

theorem pending_kept {e : IndexEvent Options Text} (tracked : Tracked gramKeys w) (numbered : TableNumbered w)
    (pending : Pending w) (reported : Reported w e) (step : indexStep gramKeys w e = some u) : Pending u := by
  obtain ⟨_, evolves, added⟩ := index_step_evolves tracked numbered step
  intro options script listed
  rcases added options script listed with before | ⟨purge, fragmented, partitions, recorded, index, rfl, found, rfl⟩
  · exact evolved_pending pending evolves before
  · obtain ⟨next, there, follows⟩ := evolves recorded index found
    have answers := reported recorded index found
    exact ⟨recorded, next, there, follows.forward, fun same _ whole =>
      follows.generation same.symm (one_generation_of_stats answers whole)⟩

theorem run_numbered {events : List (IndexEvent Options Text)} (tracked : Tracked gramKeys w)
    (numbered : TableNumbered w) (run : exec (indexStep gramKeys) w events = some u) :
    Tracked gramKeys u ∧ TableNumbered u := by
  have preserves : ∀ s e t, Tracked gramKeys s ∧ TableNumbered s → indexStep gramKeys s e = some t →
      Tracked gramKeys t ∧ TableNumbered t := by
    intro s e t held step
    exact ⟨(index_step held.1 step).1, (index_step_evolves held.1 held.2 step).1⟩
  exact exec_invariant preserves run ⟨tracked, numbered⟩

theorem run_pending {events : List (IndexEvent Options Text)} (tracked : Tracked gramKeys w)
    (numbered : TableNumbered w) (pending : Pending w)
    (reported : Along (indexStep gramKeys) Reported w events)
    (run : exec (indexStep gramKeys) w events = some u) : Pending u := by
  have preserves : ∀ s e t, (Tracked gramKeys s ∧ TableNumbered s) ∧ Pending s → Reported s e →
      indexStep gramKeys s e = some t → (Tracked gramKeys t ∧ TableNumbered t) ∧ Pending t := by
    rintro s e t ⟨⟨tracked, numbered⟩, pending⟩ met step
    exact ⟨⟨(index_step tracked step).1, (index_step_evolves tracked numbered step).1⟩,
      pending_kept tracked numbered pending met step⟩
  exact (exec_invariant_along preserves reported run ⟨⟨tracked, numbered⟩, pending⟩).2

end Steps

structure CompactOutcome (script : CompactScript) (rows : List (BaseRow Text)) (before after : IndexState Key) :
    Prop where
  merged : script.purge = false → ∀ key segment r,
    DecodedAt after.segments key segment r ↔ DecodedAt before.segments key segment r
  purged : script.purge = true → ∀ key segment r,
    DecodedAt after.segments key segment r ↔ DecodedAt before.segments key segment r ∧ Live rows r
  vanished : ∀ key segment, (∀ r, ¬ DecodedAt after.segments key segment r) →
    ∀ row ∈ after.segments, rowKey row ≠ (key, segment)
  oneRow : UniqueKeys after.segments
  oneGeneration : (∀ row ∈ after.segments, row.generation = 0) ∨
    script.purge = false ∧ script.mayHoldFragmentedKeys = false ∧ after = before ∧ OneGeneration after.segments

section Outcomes
variable [DecidableEq Key] {script : CompactScript} {rows localRows : List (BaseRow Text)}
  {index after : IndexState Key}

theorem live_committed (uncommitted : ∀ row ∈ localRows, maxRowId ≤ row.rowid) {r : Nat} (space : r < maxRowId) :
    Live (rows ++ localRows) r ↔ Live rows r := by
  constructor
  · rintro ⟨row, present, rfl, text⟩
    rcases List.mem_append.mp present with standing | own
    · exact ⟨row, standing, rfl, text⟩
    · have past := uncommitted row own
      omega
  · rintro ⟨row, present, same, text⟩
    exact ⟨row, List.mem_append_left _ present, same, text⟩

theorem decoded_after (numbered : Numbered index) (space : index.hwm < maxRowId)
    (uncommitted : ∀ row ∈ localRows, maxRowId ≤ row.rowid)
    (run : executeCompact script (rows ++ localRows) index = .ok after) (key : Key) (segment : Int) (r : Nat) :
    DecodedAt after.segments key segment r ↔
      DecodedAt index.segments key segment r ∧ (script.purge = true → Live rows r) := by
  obtain ⟨numbered', _, _⟩ := executeCompact_keeps numbered space run
  rw [decodedAt_iff numbered'.held, decodedAt_iff numbered.held, executeCompact_exact numbered space run]
  have live : Posted index.segments key r → (Live (rows ++ localRows) r ↔ Live rows r) := by
    rintro ⟨row, present, _, posted⟩
    have below := ((numbered.held row present).inside r posted).2
    exact live_committed uncommitted (by omega)
  constructor
  · rintro ⟨⟨posted, confirmed⟩, segment⟩
    exact ⟨⟨posted, segment⟩, fun purges => (live posted).mp (confirmed purges)⟩
  · rintro ⟨⟨posted, segment⟩, confirmed⟩
    exact ⟨⟨posted, fun purges => (live posted).mpr (confirmed purges)⟩, segment⟩

theorem compact_outcome (numbered : Numbered index) (space : index.hwm < maxRowId)
    (skips : script.purge = false → script.mayHoldFragmentedKeys = false → OneGeneration index.segments)
    (uncommitted : ∀ row ∈ localRows, maxRowId ≤ row.rowid)
    (run : executeCompact script (rows ++ localRows) index = .ok after) :
    CompactOutcome script rows index after := by
  have decoded := decoded_after numbered space uncommitted run
  obtain ⟨numbered', same, outcome⟩ := executeCompact_keeps numbered space run
  constructor
  · intro merges key segment r
    rw [decoded]
    simp [merges]
  · intro purges key segment r
    rw [decoded]
    simp [purges]
  · intro key segment nothing row present at_key
    obtain ⟨r, posted⟩ := List.exists_mem_of_ne_nil _ (numbered'.held row present).nonempty
    exact nothing r ⟨row, present, at_key, posted⟩
  · rcases outcome with ⟨rfl, merges, whole⟩ | ⟨packed, _⟩
    · exact unique_of_generation numbered.numbers (skips merges whole)
    · exact packed.unique
  · rcases outcome with ⟨rfl, merges, whole⟩ | ⟨_, zero⟩
    · exact .inr ⟨merges, whole, rfl, skips merges whole⟩
    · exact .inl zero

/-- The same compaction run again packs each key to the bytes it already has. -/
theorem compact_again (numbered : Numbered index) (space : index.hwm < maxRowId)
    (run : executeCompact script (rows ++ localRows) index = .ok after) :
    ∃ again, executeCompact script (rows ++ localRows) after = .ok again ∧
      again.segments.map content ~ after.segments.map content := by
  obtain ⟨numbered', same, outcome⟩ := executeCompact_keeps numbered space run
  have space' : after.hwm < maxRowId := by omega
  have recorded := (executeCompact_cases run).1
  obtain ⟨again, run'⟩ := @executeCompact_total _ _ _ (rows ++ localRows) script after numbered' space'
    (same.trans recorded)
  refine ⟨again, run', ?_⟩
  obtain ⟨_, _, outcome'⟩ := executeCompact_keeps numbered' space' run'
  rcases outcome' with ⟨rfl, _⟩ | ⟨packed', _⟩
  · exact List.Perm.refl _
  · rcases outcome with ⟨rfl, merges, whole⟩ | ⟨packed, _⟩
    · rw [run] at run'
      cases ok_inj run'
      exact List.Perm.refl _
    · apply contents_perm packed' packed
      intro key r
      rw [executeCompact_exact numbered' space' run', executeCompact_exact numbered space run]
      constructor
      · exact And.left
      · intro posted
        exact ⟨posted, posted.2⟩

end Outcomes

/-- A script that a table's compaction can run: one that waits since some expansion
    at the same mark, or one that is expanded now. -/
def Runnable (w : IndexedTable Options Text Key) (index : IndexState Key) (script : CompactScript) : Prop :=
  script.hwm = index.hwm ∧
    ((∃ options, Prepared.compact options script ∈ w.pending) ∨
      Answers index.segments script.mayHoldFragmentedKeys)

theorem generations_over_runs [DecidableEq Options] [DecidableEq Key] (gramKeys : Options → Text → List Key)
    (db : AttachedDatabase) {nextRowId : Nat} {rows : List (BaseRow Text)}
    (distinct : (rows.map BaseRow.rowid).Nodup) (below : ∀ row ∈ rows, row.rowid < nextRowId)
    {events : List (IndexEvent Options Text)} {w : IndexedTable Options Text Key}
    (reported : Along (indexStep gramKeys) Reported (unindexed db nextRowId rows) events)
    (run : exec (indexStep gramKeys) (unindexed db nextRowId rows) events = some w)
    {options : Options} {index : IndexState Key} (found : w.index = some (options, index)) :
    (index.segments.map rowNumber).Nodup ∧
    (∀ a ∈ index.segments, ∀ b ∈ index.segments, a.gramKey = b.gramKey → a.generation ≠ b.generation →
      ∀ r ∈ a.rowids, r ∉ b.rowids) ∧
    (OneGeneration index.segments → UniqueKeys index.segments) ∧
    ∀ script, Runnable w index script →
      (script.purge = false → script.mayHoldFragmentedKeys = false → UniqueKeys index.segments) ∧
      ∀ localRows, (∀ row ∈ localRows, maxRowId ≤ row.rowid) →
        ∃ after, executeCompact script (w.rows ++ localRows) index = .ok after ∧
          CompactOutcome script w.rows index after ∧
          ∃ again, executeCompact script (w.rows ++ localRows) after = .ok again ∧
            again.segments.map content ~ after.segments.map content := by
  have tracked_start : Tracked gramKeys (unindexed db nextRowId rows : IndexedTable Options Text Key) :=
    unindexed_tracked db distinct below
  obtain ⟨tracked, table_numbered⟩ := run_numbered tracked_start (unindexed_numbered db nextRowId rows) run
  have pending := run_pending tracked_start (unindexed_numbered db nextRowId rows)
    (unindexed_pending db nextRowId rows) reported run
  have numbered := table_numbered options index found
  have space := (tracked.mark options index found).2
  refine ⟨numbered.numbers, ?_, unique_of_generation numbered.numbers, ?_⟩
  · intro a in_a b in_b key differ r posted_a posted_b
    exact differ (congrArg SegmentRow.generation (numbered.apart a in_a b in_b key r posted_a posted_b))
  · rintro script ⟨recorded, planned⟩
    have skips : script.purge = false → script.mayHoldFragmentedKeys = false → OneGeneration index.segments := by
      rcases planned with ⟨other, listed⟩ | answers
      · obtain ⟨_, state, same, _, skips⟩ := pending other script listed
        rw [found] at same
        cases same
        exact skips recorded
      · exact fun _ whole => one_generation_of_stats answers whole
    refine ⟨fun merges whole => unique_of_generation numbered.numbers (skips merges whole), ?_⟩
    intro localRows uncommitted
    obtain ⟨after, ran⟩ := @executeCompact_total _ _ _ (w.rows ++ localRows) script index numbered space
      recorded.symm
    exact ⟨after, ran, compact_outcome numbered space skips uncommitted ran, compact_again numbered space ran⟩

def twoGenerationRun : List (IndexEvent Unit (List Nat)) :=
  [.prepareCreate () 2 1, .run 0 "guard" [],
    .host .beginAppend [], .host (.chunk (.sequence 2 1 2)) [], .host .commitAppend [some [7], some [7, 9]],
    .prepareRefresh 4 1 none, .run 0 "" []]

theorem two_generations_merged : ∃ (w : IndexedTable Unit (List Nat) Nat) (index after : IndexState Nat),
    w.index = some ((), index) ∧
    index.segments.map (fun row => (row.gramKey, row.generation, row.rowids)) =
      [(7, 0, [0]), (8, 0, [0]), (7, 1, [2, 3]), (9, 1, [3])] ∧
    executeCompact ⟨index.hwm, false, true, 1⟩ (w.rows ++ []) index = .ok after ∧
    UniqueKeys after.segments ∧ (∀ row ∈ after.segments, row.generation = 0) ∧
    ∀ key segment r, DecodedAt after.segments key segment r ↔ DecodedAt index.segments key segment r := by
  have ran : ((exec (indexStep fun _ text => text)
      (unindexed ⟨false, false, 7⟩ 2 [⟨0, some [7, 8]⟩, ⟨1, none⟩]) twoGenerationRun).bind fun w =>
        w.index.map fun index => index.2.segments.map fun row => (row.gramKey, row.generation, row.rowids)) =
      some [(7, 0, [0]), (8, 0, [0]), (7, 1, [2, 3]), (9, 1, [3])] := by decide +kernel
  obtain ⟨w, run, described⟩ := Option.bind_eq_some_iff.mp ran
  obtain ⟨⟨_, index⟩, found, rows⟩ := Option.map_eq_some_iff.mp described
  have reported : Along (indexStep fun _ text => text) Reported
      (unindexed ⟨false, false, 7⟩ 2 [⟨0, some [7, 8]⟩, ⟨1, none⟩]) twoGenerationRun := by
    apply along_of_forall
    unfold twoGenerationRun
    simp [Reported]
  have kept := (generations_over_runs (fun _ text => text) _ (by decide) (by decide) reported run found).2.2.2
  obtain ⟨_, outcomes⟩ := kept ⟨index.hwm, false, true, 1⟩
    ⟨rfl, .inr ⟨false, true, none, nofun, rfl⟩⟩
  obtain ⟨after, compacted, outcome, _⟩ := outcomes [] nofun
  refine ⟨w, index, after, found, rows, compacted, outcome.oneRow, ?_, outcome.merged rfl⟩
  rcases outcome.oneGeneration with zero | ⟨_, whole, _⟩
  · exact zero
  · exact nomatch whole

end NgramGenerations
