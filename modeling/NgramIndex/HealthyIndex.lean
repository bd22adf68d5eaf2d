import NgramIndex.Generations
import NgramIndex.ProbeIntersection

/- What packing writes passes every check of every reader. The manifest scan, the
   admission, the decode and the compaction name an index malformed on some
   fifteen conditions, and on a reachable index none of them holds. -/
namespace NgramHealthyIndex
open AscendingLists NgramPostings NgramPackSegment NgramProbe NgramMaintenance NgramRowIdGuard
open NgramSegmentRows NgramCoverage NgramGenerations LabelledRun Fallible
variable {Options Text Key : Type} {hwm : Int}

theorem numbered_wellFormed {index : IndexState Key} (numbered : Numbered index) (space : index.hwm < maxRowId) :
    WellFormed index.segments index.hwm := by
  have mark : index.hwm < 2 ^ 63 := by
    simp only [maxRowId] at space
    omega
  constructor
  · exact mark
  · exact numbered.postings
  · intro row present
    exact held_truthful mark (numbered.held row present)
  · intro a in_a b in_b differ key r posted_a posted_b
    exact differ (congrArg SegmentRow.postingRowid (numbered.apart a in_a b in_b key r posted_a posted_b))

theorem ascending_span {l : List Nat} (asc : Ascending l) (nonempty : l ≠ []) :
    l.headD 0 ≤ l.getLastD 0 ∧ l.length ≤ l.getLastD 0 - l.headD 0 + 1 := by
  have last : l.getLastD 0 = l.getLast nonempty := by
    rw [List.getLastD_eq_getLast?, List.getLast?_eq_some_getLast nonempty, Option.getD_some]
  obtain ⟨first, rest, rfl⟩ := List.exists_cons_of_ne_nil nonempty
  rw [last, List.headD_cons]
  have low := ascending_head_le asc _ (List.getLast_mem nonempty)
  refine ⟨low, @window_length _ first _ (ascending_nodup asc) fun x present => ?_⟩
  have above := ascending_head_le asc x present
  have below := ascending_le_getLast asc nonempty x present
  omega

section Manifest
variable [DecidableEq Key]

abbrev Overflows {α : Type} (x : Except String α) : Prop := FailsOnly (· = overflow) x

theorem add_overflows (target value : Nat) : Overflows (checkedAdd target value) :=
  fails_raise rfl fun _ => fails_ok _

theorem multiply_overflows (left right : Nat) : Overflows (checkedMultiply left right) :=
  fails_raise rfl fun _ => fails_ok _

omit [DecidableEq Key] in
theorem held_columns {row : SegmentRow Key} (held : Held hwm row) :
    ∃ segment low high : Nat, row.segmentNo = segment ∧ row.minRowid = low ∧ row.maxRowid = high ∧
      row.rowidCount = row.rowids.length ∧ 0 < row.rowids.length ∧ row.rowids.length ≤ high - low + 1 ∧
      low ≤ high ∧ low / segmentRows = segment ∧ high / segmentRows = segment ∧ (high : Int) ≤ hwm := by
  obtain ⟨ordered, span⟩ := ascending_span held.ascending held.nonempty
  have first := held.inside _ (List.head_mem held.nonempty)
  have last := held.inside _ (List.getLast_mem held.nonempty)
  have head_eq : row.rowids.headD 0 = row.rowids.head held.nonempty := by
    rw [List.headD_eq_head?_getD, List.head?_eq_some_head held.nonempty, Option.getD_some]
  have last_eq : row.rowids.getLastD 0 = row.rowids.getLast held.nonempty := by
    rw [List.getLastD_eq_getLast?, List.getLast?_eq_some_getLast held.nonempty, Option.getD_some]
  rw [← head_eq] at first
  rw [← last_eq] at last
  exact ⟨row.segmentNo.toNat, row.rowids.headD 0, row.rowids.getLastD 0, held_segment held,
    congrArg SegmentRow.minRowid held.written, congrArg SegmentRow.maxRowid held.written,
    congrArg SegmentRow.rowidCount held.written, List.length_pos_of_ne_nil held.nonempty, span, ordered,
    first.1, last.1, last.2⟩

theorem descriptor_accepted {row : SegmentRow Key} (held : Held hwm row) (keyIndex : Nat) (rows : GramRows) :
    Overflows (appendRow keyIndex row.gramKey hwm rows row) := by
  obtain ⟨segment, low, high, at_segment, at_low, at_high, count, some_row, span, ordered, first, last, below⟩ :=
    held_columns held
  have shift : segmentRows = 1048576 := rfl
  rw [shift] at first last
  unfold appendRow maxSegment
  simp only [at_segment, at_low, at_high, count, shift]
  apply fails_check
  · rw [if_neg (by omega)]
    simp only [ne_eq, not_true_eq_false, false_or]
    omega
  apply fails_check
  · omega
  apply fails_check
  · omega
  apply fails_check
  · omega
  exact fails_bind (add_overflows _ _) fun _ _ => fails_ok _

theorem chunks_accepted {key : Key} (keyIndex maxRows : Nat) (chunks : List (List (SegmentRow Key)))
    (each : ∀ row ∈ chunks.flatten, Held hwm row ∧ row.gramKey = key) (total : Nat) (rows : GramRows) :
    Overflows (consumeChunks keyIndex key hwm maxRows chunks total rows) := by
  induction chunks generalizing total rows with
  | nil => exact fails_ok _
  | cons chunk rest ih =>
    rw [consumeChunks]
    split
    · exact fails_ok _
    · refine fails_bind (fails_foldlM chunk rows fun rows row listed => ?_) fun rows _ => ?_
      · obtain ⟨held, rfl⟩ := each row (List.mem_flatten.mpr ⟨chunk, List.mem_cons_self, listed⟩)
        exact descriptor_accepted held keyIndex rows
      · apply ih
        intro row later
        obtain ⟨other, listed, present⟩ := List.mem_flatten.mp later
        exact each row (List.mem_flatten.mpr ⟨other, List.mem_cons_of_mem chunk listed, present⟩)

variable {visible : List (SegmentRow Key)} {chunks : Key → List (List (SegmentRow Key))}

theorem manifest_accepted (held : ∀ row ∈ visible, Held hwm row) (maxRows : Nat) (keys : List Key)
    (scans : Scans visible chunks keys) (start total : Nat) :
    Overflows (collectGramRows chunks hwm maxRows start keys total) := by
  induction keys generalizing start total with
  | nil => exact fails_ok _
  | cons key keys ih =>
    rw [collectGramRows]
    refine fails_bind (chunks_accepted start maxRows (chunks key) ?_ total _) fun first _ => ?_
    · intro row scanned
      have found := (scans key List.mem_cons_self).mem_iff.mp scanned
      obtain ⟨present, of_key⟩ := List.mem_filter.mp found
      exact ⟨held row present, of_decide_eq_true of_key⟩
    · cases first with
      | none => exact fails_ok _
      | some first =>
        have later := ih (fun other listed => scans other (List.mem_cons_of_mem key listed)) (start + 1) first.1
        refine fails_bind later fun others _ => ?_
        cases others with
        | none => exact fails_ok _
        | some others => exact fails_ok _

/-- The rowids of one key in one segment lie between its start and the mark. -/
theorem decoded_capacity (wf : WellFormed visible hwm) {key : Key} {segmentNo : Nat}
    {rows : List (SegmentRow Key)} (perm : rows.Perm (rowsAt visible key segmentNo)) :
    (decodedRows rows).length ≤ min segmentRows (hwm.toNat - segmentNo * segmentRows + 1) := by
  refine Nat.le_min.mpr ⟨decodedRows_length wf perm, ?_⟩
  refine @window_length _ (segmentNo * segmentRows) _ (decodedRows_nodup wf perm) fun r listed => ?_
  obtain ⟨⟨row, present, _, posted⟩, at_segment⟩ := (mem_decodedRows wf perm r).mp listed
  have below := ((wf.truthful row present).inside r posted).2
  have shift : segmentRows = 1048576 := rfl
  rw [shift] at at_segment ⊢
  omega

theorem span_capacity {keys : List Key} (wf : WellFormed visible hwm) (scans : Scans visible chunks keys)
    (segmentNo : Nat) :
    ∀ span ∈ spansOf (groupAt (sortManifest (manifestOf chunks 0 keys)) segmentNo),
      span.count ≤ min segmentRows (hwm.toNat - segmentNo * segmentRows + 1) := by
  intro span listed
  have sorted := group_grams_sorted (sortManifest_sorted (manifestOf chunks 0 keys)) segmentNo
  rw [spansOf, grams_eq sorted, List.map_map] at listed
  obtain ⟨g, at_gram, rfl⟩ := List.mem_map.mp listed
  obtain ⟨d, in_group, rfl⟩ := List.mem_map.mp (mem_unique.mp at_gram)
  obtain ⟨_, key, row, at_key, _, _⟩ := mem_group scans in_group
  obtain ⟨rows, perm, described⟩ := perm_of_map (gram_rows scans at_key segmentNo)
  have present : ∀ row ∈ rows, row ∈ visible := fun row hr => (mem_rowsAt.mp (perm.mem_iff.mp hr)).1
  have counted := counts_decodedRows d.gramIndex wf rows present
  show ((gramAt _ d.gramIndex).map ProbeDescriptor.postingCount).sum ≤ _
  rw [described, counted]
  exact decoded_capacity wf perm

theorem peaks_overflow (capacity bound peak : Nat) (counts : List Nat) :
    Overflows (stepPeaks capacity bound peak counts) := by
  induction counts generalizing bound peak with
  | nil => exact fails_ok _
  | cons count rest ih =>
    refine fails_bind (add_overflows _ _) fun first _ => ?_
    exact fails_bind (add_overflows _ _) fun second _ => ih _ _

theorem charge_overflows (limit capacity spanRows : Nat) (counts : List Nat) (a : Admission) :
    Overflows (chargeSegment limit capacity spanRows counts a) := by
  refine fails_bind (fails_foldlM counts _ fun total count _ => add_overflows total count) fun estimated _ => ?_
  split
  · exact fails_ok _
  · refine fails_bind (add_overflows _ _) fun upper _ => ?_
    refine fails_bind (add_overflows _ _) fun rows _ => ?_
    refine fails_bind ?_ fun bytes _ => fails_ok _
    refine fails_bind (peaks_overflow _ _ _ _) fun peak _ => ?_
    exact fails_bind (multiply_overflows _ _) fun bytes _ => add_overflows _ _

theorem admission_accepts {keys : List Key} (wf : WellFormed visible hwm) (scans : Scans visible chunks keys)
    (keyCount limit : Nat) :
    Overflows (admitSegments keyCount hwm limit (sortManifest (manifestOf chunks 0 keys))) := by
  refine fails_foldlM _ _ fun a group listed => ?_
  rw [groups_eq (sortManifest_sorted _)] at listed
  obtain ⟨segmentNo, in_manifest, rfl⟩ := List.mem_map.mp listed
  have group_ne : groupAt (sortManifest (manifestOf chunks 0 keys)) segmentNo ≠ [] := by
    obtain ⟨d, present, at_segment⟩ := List.mem_map.mp (mem_unique.mp in_manifest)
    exact List.ne_nil_of_mem (List.mem_filter.mpr ⟨present, by simp [at_segment]⟩)
  have number : ((groupAt (sortManifest (manifestOf chunks 0 keys)) segmentNo).map
      ProbeDescriptor.segmentNo).headD 0 = segmentNo := segmentOf_no group_ne
  refine fails_bind (fails_mapM _ fun run _ => ?_) fun spans spanned => ?_
  · exact fails_bind (fails_foldlM run _ fun total d _ => add_overflows _ _) fun _ _ => fails_ok _
  · obtain rfl := spans_ok spanned
    apply fails_check
    · rintro ⟨count, counted, excess⟩
      obtain ⟨span, in_spans, rfl⟩ := List.mem_map.mp counted
      have fits := span_capacity wf scans segmentNo span in_spans
      rw [number] at excess
      omega
    · refine fails_branch (fun _ => fails_ok _) fun _ => ?_
      refine fails_branch (fun _ => fails_ok _) fun _ => ?_
      exact fails_branch (fun _ => fails_ok _) fun _ => charge_overflows _ _ _ _ _

theorem gates_accept {settings : ProbeSettings} {reserved : Nat} {plan : ProbePlan Key}
    (wf : WellFormed visible plan.hwm) (scans : Scans visible chunks plan.keys)
    (described : plan.descriptors = sortManifest (manifestOf chunks 0 plan.keys)) :
    Overflows (admitManifest settings reserved plan) := by
  unfold admitManifest
  rw [described]
  refine fails_bind (admission_accepts wf scans _ _) fun a _ => ?_
  refine fails_branch (fun _ => fails_ok _) fun _ => ?_
  refine fails_raise rfl fun _ => ?_
  refine fails_bind (add_overflows _ _) fun weight _ => ?_
  refine fails_bind (multiply_overflows _ _) fun rows _ => ?_
  refine fails_branch (fun _ => fails_ok _) fun _ => ?_
  refine fails_branch (fun _ => fails_ok _) fun _ => ?_
  refine fails_branch (fun _ => fails_ok _) fun _ => ?_
  refine fails_bind (add_overflows _ _) fun bytes _ => ?_
  refine fails_branch (fun _ => fails_ok _) fun _ => ?_
  refine fails_bind (multiply_overflows _ _) fun first _ => ?_
  refine fails_bind (multiply_overflows _ _) fun alive _ => ?_
  exact fails_bind (add_overflows _ _) fun total _ => fails_ok _

/-- A plan over a healthy index is made or fails on its arithmetic. -/
theorem plan_accepts {keys : List Key} (held : ∀ row ∈ visible, Held hwm row) (wf : WellFormed visible hwm)
    (scans : Scans visible chunks keys) (settings : ProbeSettings) (maxGrams : Nat) :
    Overflows (planIndexProbe settings chunks keys maxGrams hwm) := by
  have preflights : ∀ keyCount workers, Overflows (preflightProbeBytes keyCount workers) := by
    intro keyCount workers
    refine fails_bind (multiply_overflows _ _) fun perKey _ => ?_
    refine fails_bind (multiply_overflows _ _) fun perWorker _ => ?_
    exact fails_bind (add_overflows _ _) fun bytes _ => add_overflows _ _
  refine fails_bind (preflights _ _) fun keyBytes _ => ?_
  refine fails_branch (fun _ => fails_ok _) fun _ => ?_
  refine fails_bind (preflights _ _) fun preflightBytes _ => ?_
  refine fails_bind (manifest_accepted held _ keys scans 0 0) fun collected collected_eq => ?_
  cases collected with
  | none => exact fails_ok _
  | some collected =>
    have selection := @selectRarestGrams_spec _ _ _ _ maxGrams (collectGramRows_descriptors collected_eq)
    dsimp only at selection ⊢
    generalize selectRarestGrams keys collected.2 maxGrams = picked at selection ⊢
    obtain ⟨_, selected_keys, _, manifest⟩ := selection
    apply gates_accept wf
    · intro key selected
      exact scans key (selected_keys key selected)
    · exact manifest

end Manifest

/-- A query or a compaction over a reachable index never finds it malformed. What
    a plan may still raise is the overflow of its own arithmetic. -/
theorem healthy_index_accepted [DecidableEq Options] [DecidableEq Key] (gramKeys : Options → Text → List Key)
    (db : AttachedDatabase) {nextRowId : Nat} {rows : List (BaseRow Text)}
    (distinct : (rows.map BaseRow.rowid).Nodup) (below : ∀ row ∈ rows, row.rowid < nextRowId)
    {events : List (IndexEvent Options Text)} {w : IndexedTable Options Text Key}
    (run : exec (indexStep gramKeys) (unindexed db nextRowId rows) events = some w)
    {options : Options} {index : IndexState Key} (found : w.index = some (options, index)) :
    (∀ settings chunks keys maxGrams, Scans index.segments chunks keys → keys ≠ [] → 1 ≤ maxGrams →
      (∀ reason, planIndexProbe settings chunks keys maxGrams index.hwm = .error reason → reason = overflow) ∧
      ∀ plan, planIndexProbe settings chunks keys maxGrams index.hwm = .ok plan → plan.admitted = true →
        ∀ segment ∈ plan.segments, ∀ order : List Nat, order.Perm segment.gramOrder → ∃ rowids,
          decodeCandidateSegment plan (fetchFrom index.segments) { segment with gramOrder := order } = .ok rowids) ∧
    (∀ script localRows, script.hwm = index.hwm →
      ∃ after, executeCompact script (w.rows ++ localRows) index = .ok after) ∧
    ∀ row ∈ index.segments, ∃ pairs, unpackRow index.hwm row = .ok pairs := by
  have start : Tracked gramKeys (unindexed db nextRowId rows : IndexedTable Options Text Key) :=
    unindexed_tracked db distinct below
  obtain ⟨tracked, table_numbered⟩ := run_numbered start (unindexed_numbered db nextRowId rows) run
  have numbered := table_numbered options index found
  have space := (tracked.mark options index found).2
  have wf := numbered_wellFormed numbered space
  refine ⟨?_, ?_, ?_⟩
  · intro settings chunks keys maxGrams scans some_key some_gram
    refine ⟨plan_accepts numbered.held wf scans settings maxGrams, ?_⟩
    intro plan planned admitted segment present order perm
    obtain ⟨same_hwm, selected_length, selected_keys, _, segments⟩ := planIndexProbe_spec planned admitted
    have some_selected : plan.keys ≠ [] := by
      have keys_pos := List.length_pos_of_ne_nil some_key
      exact List.ne_nil_of_length_pos (by omega)
    obtain ⟨rowids, _, _, decodes⟩ := admitted_decodes (same_hwm ▸ wf)
      (fun key selected => scans key (selected_keys selected)) some_selected (segments ▸ present)
    exact ⟨rowids, decodes order perm⟩
  · intro script localRows recorded
    exact executeCompact_total numbered space recorded.symm
  · intro row present
    exact ⟨_, held_unpacks wf.mark (numbered.held row present)⟩

def gramScans (index : IndexState Nat) (key : Nat) : List (List (SegmentRow Nat)) :=
  [index.segments.filter fun row => decide (row.gramKey = key)]

/-- Two generations share a segment, one of them past a mark inside it. A query is
    admitted and its segment decoded. -/
theorem split_segment_accepted : ∃ (w : IndexedTable Unit (List Nat) Nat) (index : IndexState Nat),
    w.index = some ((), index) ∧
    index.segments.map (fun row => (row.gramKey, row.generation, row.rowids)) =
      [(7, 0, [0]), (8, 0, [0]), (7, 1, [2, 3]), (9, 1, [3])] ∧
    (∃ plan segment rowids, planIndexProbe roomySettings (gramScans index) [7, 9] 2 index.hwm = .ok plan ∧
      plan.admitted = true ∧ segment ∈ plan.segments ∧
      decodeCandidateSegment plan (fetchFrom index.segments) segment = .ok rowids) ∧
    ∃ after, executeCompact ⟨index.hwm, true, true, 1⟩ (w.rows ++ []) index = .ok after := by
  have ran : ((exec (indexStep fun _ text => text)
      (unindexed ⟨false, false, 7⟩ 2 [⟨0, some [7, 8]⟩, ⟨1, none⟩]) twoGenerationRun).bind fun w =>
        w.index.map fun index => (index.2.segments.map fun row => (row.gramKey, row.generation, row.rowids),
          (planIndexProbe roomySettings (gramScans index.2) [7, 9] 2 index.2.hwm).toOption.map fun plan =>
            (plan.admitted, plan.segments.length))) =
      some ([(7, 0, [0]), (8, 0, [0]), (7, 1, [2, 3]), (9, 1, [3])], some (true, 1)) := by decide +kernel
  obtain ⟨w, run, described⟩ := Option.bind_eq_some_iff.mp ran
  obtain ⟨⟨_, index⟩, found, facts⟩ := Option.map_eq_some_iff.mp described
  obtain ⟨rows, planned⟩ := Prod.mk.inj facts
  obtain ⟨plan, planned, shown⟩ := Option.map_eq_some_iff.mp planned
  obtain ⟨admitted, one⟩ := Prod.mk.inj shown
  obtain ⟨segment, segments⟩ := List.length_eq_one_iff.mp one
  have present : segment ∈ plan.segments := segments ▸ List.mem_singleton_self segment
  obtain ⟨queries, compactions, _⟩ := healthy_index_accepted (fun _ text => text) _ (by decide) (by decide)
    run found
  obtain ⟨_, decodes⟩ := queries roomySettings (gramScans index) [7, 9] 2 (fun key _ => by simp [gramScans]) (by decide)
    (by decide)
  obtain ⟨rowids, decoded⟩ := decodes plan (toOption_ok planned) admitted segment present segment.gramOrder
    (List.Perm.refl _)
  exact ⟨w, index, found, rows, ⟨plan, segment, rowids, toOption_ok planned, admitted, present, decoded⟩,
    compactions _ [] rfl⟩

end NgramHealthyIndex
