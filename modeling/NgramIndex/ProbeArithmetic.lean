import NgramIndex.ManifestScan
import NgramIndex.Maintenance
import NgramIndex.ProbeMemory
import NgramIndex.WordPlanner

/- The planner in words does what the planner over the natural numbers does. Each
   gate gives the bound that the next unchecked operation needs, and the worker
   count is the inverse of a division that fits the budget again. -/
namespace NgramProbeArithmetic
open AscendingLists NgramPostings NgramPackSegment NgramProbe NgramMaintenance NgramManifestScan MachineWord
open Fallible LabelledRun
open NgramStorage (standardVectorSize)
variable {Key : Type} [DecidableEq Key]

section Manifest
variable {hwm : Int} {chunks : Key → List (List (SegmentRow Key))}

theorem int64Max_eq : (int64Max : Int) = 9223372036854775807 := by decide

theorem row_agrees (space : hwm < maxRowId) (keyIndex : Nat) (key : Key) (rows : GramRows) (row : SegmentRow Key) :
    Agrees (appendRow64 keyIndex key hwm rows row) (appendRow keyIndex key hwm rows row) := by
  unfold appendRow64 appendRow
  simp only [maxRowId] at space
  refine agrees_check fun valid => ?_
  refine agrees_check fun capped => ?_
  simp only [not_or, Int.not_lt, Int.not_le, maxSegment, segmentRows_eq] at valid capped ⊢
  obtain ⟨_, positive, inside, _⟩ := valid
  have start : row.segmentNo * 1048576 ≤ hwm := by
    split at inside <;> omega
  refine agrees_signed (by omega) (by rw [int64Max_eq]; omega) ?_
  refine agrees_signed (by omega) (by rw [int64Max_eq]; omega) ?_
  refine agrees_check fun span => ?_
  refine agrees_signed (by omega) (by rw [int64Max_eq]; omega) ?_
  refine agrees_signed (by omega) (by rw [int64Max_eq]; omega) ?_
  refine agrees_check fun _ => ?_
  exact agrees_bind (agrees_lift _) fun count _ => agrees_ok _

theorem consume_agrees (space : hwm < maxRowId) {budget preflight maxRows : Nat}
    (room : Room preflight maxRows budget 0) (keyIndex : Nat) (key : Key) {scanned : List (List (SegmentRow Key))}
    (vectors : ∀ chunk ∈ scanned, chunk.length ≤ standardVectorSize) {total : Nat} (rows : GramRows)
    (inside : total ≤ maxRows) :
    Agrees (consumeChunks64 budget keyIndex key hwm maxRows scanned total (preflight + total * manifestBytesPerRow) rows)
      ((consumeChunks keyIndex key hwm maxRows scanned total rows).map
        (Option.map fun result => (result.1, preflight + result.1 * manifestBytesPerRow, result.2))) := by
  have words := room.overshoot
  have bytes := room.reserve
  have top := room.budget
  induction scanned generalizing total rows with
  | nil => rfl
  | cons chunk rest ih =>
    have small := vectors chunk List.mem_cons_self
    unfold consumeChunks64 consumeChunks
    refine agrees_add (by omega) ?_
    split
    · rfl
    · rename_i fits
      have scaled := Nat.mul_le_mul_right manifestBytesPerRow (Nat.le_of_not_lt fits)
      rw [Nat.add_mul] at scaled
      refine agrees_mul (by omega) (agrees_grow (by omega) ?_)
      have folded := agrees_foldlM (f := appendRow64 keyIndex key hwm) (g := appendRow keyIndex key hwm)
        (fun _ => True) chunk (s := rows) trivial fun s row _ _ => ⟨row_agrees space keyIndex key s row, fun _ _ => trivial⟩
      cases ran : chunk.foldlM (appendRow keyIndex key hwm) rows with
      | error reason =>
        rw [ran] at folded
        unfold Agrees at folded
        rw [folded]
        rfl
      | ok grown =>
        rw [ran] at folded
        unfold Agrees at folded
        rw [folded, Nat.add_assoc, ← Nat.add_mul]
        exact ih (fun other listed => vectors other (List.mem_cons_of_mem chunk listed)) grown
          (Nat.le_of_not_lt fits)

/-- What a scan counts are the rows that it describes. -/
theorem consumed_total {keyIndex maxRows total : Nat} {key : Key} {scanned : List (List (SegmentRow Key))}
    {rows : GramRows} {result : Nat × GramRows} (inside : total ≤ maxRows)
    (run : consumeChunks keyIndex key hwm maxRows scanned total rows = .ok (some result)) :
    result.1 = total + scanned.flatten.length ∧ result.1 ≤ maxRows := by
  induction scanned generalizing total rows with
  | nil =>
    obtain rfl : (total, rows) = result := Option.some.inj (ok_inj run)
    exact ⟨rfl, inside⟩
  | cons chunk rest ih =>
    rw [consumeChunks] at run
    split at run
    · cases ok_inj run
    · obtain ⟨grown, _, run⟩ := bind_ok run
      obtain ⟨counted, below⟩ := ih (by omega) run
      rw [List.flatten_cons, List.length_append]
      exact ⟨by omega, below⟩

theorem collected_total {maxRows start total : Nat} {keys : List Key} {result : Nat × List GramRows}
    (inside : total ≤ maxRows)
    (run : collectGramRows chunks hwm maxRows start keys total = .ok (some result)) :
    result.1 = total + (keys.map fun key => (chunks key).flatten.length).sum ∧ result.1 ≤ maxRows := by
  induction keys generalizing start total result with
  | nil =>
    obtain rfl : (total, []) = result := Option.some.inj (ok_inj run)
    exact ⟨rfl, inside⟩
  | cons key keys ih =>
    obtain ⟨first, consumed, run⟩ := bind_ok run
    cases first with
    | none => cases ok_inj run
    | some first =>
      obtain ⟨others, collected, run⟩ := bind_ok run
      cases others with
      | none => cases ok_inj run
      | some others =>
        obtain rfl := Option.some.inj (ok_inj run)
        obtain ⟨counted, below⟩ := consumed_total inside consumed
        obtain ⟨total_eq, bound⟩ := ih below collected
        rw [List.map_cons, List.sum_cons]
        exact ⟨by simp only; omega, bound⟩

theorem collect_agrees (space : hwm < maxRowId) {budget preflight maxRows : Nat}
    (room : Room preflight maxRows budget 0) {keys : List Key}
    (vectors : ∀ key ∈ keys, ∀ chunk ∈ chunks key, chunk.length ≤ standardVectorSize) (keyIndex : Nat)
    {total : Nat} (inside : total ≤ maxRows) :
    Agrees (collectGramRows64 budget chunks hwm maxRows keyIndex keys total (preflight + total * manifestBytesPerRow))
      ((collectGramRows chunks hwm maxRows keyIndex keys total).map
        (Option.map fun result => (result.1, preflight + result.1 * manifestBytesPerRow, result.2))) := by
  induction keys generalizing keyIndex total with
  | nil => rfl
  | cons key keys ih =>
    have first := @consume_agrees _ _ hwm space budget preflight maxRows room keyIndex key (chunks key)
      (vectors key List.mem_cons_self) total ⟨[], 0⟩ inside
    unfold Agrees at first
    unfold collectGramRows64 collectGramRows
    rw [first]
    cases ran : consumeChunks keyIndex key hwm maxRows (chunks key) total ⟨[], 0⟩ with
    | error reason => rfl
    | ok consumed =>
      cases consumed with
      | none => rfl
      | some consumed =>
        have below := (consumed_total inside ran).2
        have rest := ih (fun other listed => vectors other (List.mem_cons_of_mem key listed)) (keyIndex + 1) below
        unfold Agrees at rest
        show ((collectGramRows64 budget chunks hwm maxRows (keyIndex + 1) keys consumed.1
          (preflight + consumed.1 * manifestBytesPerRow)) >>= _) = _
        rw [rest]
        cases ran' : collectGramRows chunks hwm maxRows (keyIndex + 1) keys consumed.1 with
        | error reason =>
          show _ = lift ((collectGramRows chunks hwm maxRows (keyIndex + 1) keys consumed.1 >>= _).map _)
          rw [ran']
          rfl
        | ok others =>
          show _ = lift ((collectGramRows chunks hwm maxRows (keyIndex + 1) keys consumed.1 >>= _).map _)
          rw [ran']
          cases others with
          | none => rfl
          | some others => rfl

def RowChecked (hwm : Int) (row : SegmentRow Key) : Prop :=
  row.segmentNo.toNat * segmentRows ≤ hwm.toNat ∧ row.maxRowid.toNat ≤ hwm.toNat

theorem row_checked {keyIndex : Nat} {key : Key} {rows grown : GramRows} {row : SegmentRow Key}
    (run : appendRow keyIndex key hwm rows row = .ok grown) : RowChecked hwm row := by
  obtain ⟨valid, run⟩ := check_ok run
  obtain ⟨_, run⟩ := check_ok run
  obtain ⟨span, _⟩ := check_ok run
  simp only [not_or, Int.not_lt, Int.not_le, maxSegment, segmentRows_eq] at valid span
  have rows_eq : segmentRows = 1048576 := rfl
  unfold RowChecked
  rw [rows_eq]
  obtain ⟨_, positive, inside, _⟩ := valid
  split at inside <;> omega

/-- A row is scanned only where something lies at or below the mark. -/
theorem row_mark {keyIndex : Nat} {key : Key} {rows grown : GramRows} {row : SegmentRow Key}
    (run : appendRow keyIndex key hwm rows row = .ok grown) : 0 ≤ hwm := by
  obtain ⟨valid, _⟩ := check_ok run
  simp only [not_or, Int.not_lt, maxSegment] at valid
  obtain ⟨_, positive, inside, _⟩ := valid
  split at inside <;> omega

theorem consumed_each {holds : SegmentRow Key → Prop} {keyIndex maxRows total : Nat} {key : Key}
    {scanned : List (List (SegmentRow Key))} {rows : GramRows} {result : Nat × GramRows}
    (checks : ∀ rows row grown, appendRow keyIndex key hwm rows row = .ok grown → holds row)
    (run : consumeChunks keyIndex key hwm maxRows scanned total rows = .ok (some result)) :
    ∀ row ∈ scanned.flatten, holds row := by
  induction scanned generalizing total rows with
  | nil =>
    intro row listed
    exact absurd listed List.not_mem_nil
  | cons chunk rest ih =>
    rw [consumeChunks] at run
    split at run
    · cases ok_inj run
    · obtain ⟨grown, folded, run⟩ := bind_ok run
      have each : ∀ row ∈ chunk, holds row := by
        refine foldlM_prefix (fun done _ => ∀ row ∈ done, holds row) chunk ?_
          (fun _ listed => absurd listed List.not_mem_nil) folded
        intro done row before after held step other listed
        rcases List.mem_append.mp listed with old | new
        · exact held other old
        · obtain rfl := List.mem_singleton.mp new
          exact checks _ _ _ step
      intro row listed
      rw [List.flatten_cons] at listed
      rcases List.mem_append.mp listed with here | later
      · exact each row here
      · exact ih run row later

theorem collected_each {holds : SegmentRow Key → Prop} {maxRows start total : Nat} {keys : List Key}
    {result : Nat × List GramRows}
    (checks : ∀ keyIndex key rows row grown, appendRow keyIndex key hwm rows row = .ok grown → holds row)
    (run : collectGramRows chunks hwm maxRows start keys total = .ok (some result)) :
    ∀ key ∈ keys, ∀ row ∈ (chunks key).flatten, holds row := by
  induction keys generalizing start total result with
  | nil => exact nofun
  | cons key keys ih =>
    obtain ⟨first, consumed, run⟩ := bind_ok run
    cases first with
    | none => cases ok_inj run
    | some first =>
      obtain ⟨others, collected, run⟩ := bind_ok run
      cases others with
      | none => cases ok_inj run
      | some others => exact List.forall_mem_cons.mpr ⟨consumed_each (checks _ _) consumed, ih collected⟩

def Checked (hwm : Int) (d : ProbeDescriptor) : Prop :=
  d.segmentNo * segmentRows ≤ hwm.toNat ∧ d.maxRowid ≤ hwm.toNat

omit [DecidableEq Key] in
theorem manifest_checked {keys : List Key} (each : ∀ key ∈ keys, ∀ row ∈ (chunks key).flatten, RowChecked hwm row) :
    ∀ d ∈ sortManifest (manifestOf chunks 0 keys), Checked hwm d := by
  intro d present
  obtain ⟨entry, in_keys, described⟩ :=
    List.mem_flatMap.mp ((List.perm_insertionSort _ _).mem_iff.mp present)
  obtain ⟨row, listed, rfl⟩ := List.mem_map.mp described
  exact each entry.1 (List.fst_mem_of_mem_zipIdx in_keys) row listed

def pickedRows (perKey : List GramRows) (maxGrams : Nat) : Nat :=
  (((rarestFirst (perKey.map GramRows.rowCount)).take maxGrams).map fun index =>
    (perKey.getD index ⟨[], 0⟩).descriptors.length).sum

theorem pickedRows_le (perKey : List GramRows) (maxGrams : Nat) :
    pickedRows perKey maxGrams ≤ (perKey.map fun rows => rows.descriptors.length).sum := by
  have perm := rarestFirst_perm (perKey.map GramRows.rowCount)
  rw [List.length_map] at perm
  have whole : ((List.range perKey.length).map fun i => (perKey.getD i ⟨[], 0⟩).descriptors.length) =
      perKey.map fun rows => rows.descriptors.length := by
    apply List.ext_getElem
    · simp
    · intro i left right
      simp only [List.length_map, List.length_range] at left
      simp [left]
  rw [← whole, ← (perm.map _).sum_nat, pickedRows]
  generalize rarestFirst (perKey.map GramRows.rowCount) = order
  conv => right; rw [← List.take_append_drop maxGrams order, List.map_append, List.sum_append]
  exact Nat.le_add_right _ _

omit [DecidableEq Key] in
theorem selected_length (keys : List Key) (perKey : List GramRows) (maxGrams : Nat) :
    (selectRarestGrams keys perKey maxGrams).2.length = pickedRows perKey maxGrams := by
  have taken : ∀ (order : List Nat) (start : Nat), (((order.zipIdx start).flatMap fun entry =>
      (perKey.getD entry.1 ⟨[], 0⟩).descriptors.map fun d => { d with gramIndex := entry.2 }).length) =
        (order.map fun i => (perKey.getD i ⟨[], 0⟩).descriptors.length).sum := by
    intro order
    induction order with
    | nil => exact fun _ => rfl
    | cons i order ih =>
      intro start
      rw [List.zipIdx_cons, List.flatMap_cons, List.length_append, ih, List.length_map, List.map_cons, List.sum_cons]
  simp only [selectRarestGrams, sortManifest, List.length_insertionSort, taken]
  rfl

end Manifest

section Admission
variable {hwm : Int}

theorem sums_ok {counts : List Nat} {first total : Nat} (run : counts.foldlM checkedAdd first = .ok total) :
    total = first + counts.sum := by
  induction counts generalizing first with
  | nil =>
    obtain rfl : first = total := ok_inj run
    rfl
  | cons count counts ih =>
    obtain ⟨next, added, rest⟩ := foldlM_cons_ok run
    rw [ih rest, checkedAdd_ok added, List.sum_cons]
    omega

theorem workerBytes_scratch {counts : List Nat} {capacity bytes : Nat}
    (run : segmentWorkerBytes counts capacity = .ok bytes) : fetchScratchBytes ≤ bytes := by
  obtain ⟨peak, _, run⟩ := bind_ok run
  obtain ⟨peakBytes, _, run⟩ := bind_ok run
  rw [checkedAdd_ok run]
  exact Nat.le_add_left _ _

structure Admitted (a : Admission) : Prop where
  upper : a.candidateUpperBound ≤ a.estimatedDecodedRowids
  candidate : a.peakCandidateBytes ≤ segmentRows * rowBytes
  worker : a.segments ≠ [] → a.declineReason = "" → fetchScratchBytes ≤ a.peakWorkerBytes

theorem charge_admitted {limit capacity spanRows : Nat} {counts : List Nat} {a b : Admission}
    (upper : a.candidateUpperBound ≤ a.estimatedDecodedRowids)
    (candidate : a.peakCandidateBytes ≤ segmentRows * rowBytes) (some_gram : counts ≠ [])
    (room : capacity ≤ segmentRows) (run : chargeSegment limit capacity spanRows counts a = .ok b) :
    Admitted b := by
  obtain ⟨estimated, summed, run⟩ := bind_ok run
  have total := sums_ok summed
  rcases branch_ok run with ⟨_, run⟩ | ⟨_, run⟩
  · rw [← ok_inj run]
    refine ⟨?_, candidate, fun _ declined => ?_⟩
    · simp only
      omega
    · simp at declined
  · obtain ⟨bound, added, run⟩ := bind_ok run
    obtain ⟨rows, _, run⟩ := bind_ok run
    obtain ⟨bytes, estimate, run⟩ := bind_ok run
    rw [← ok_inj run]
    obtain ⟨first, rest, rfl⟩ := List.exists_cons_of_ne_nil some_gram
    obtain ⟨within, each⟩ := foldl_min_le (first :: rest) capacity
    have smallest := each first List.mem_cons_self
    have scratch := workerBytes_scratch estimate
    have vector := Nat.mul_le_mul_right rowBytes (within.trans room)
    rw [List.sum_cons] at total
    refine ⟨?_, ?_, fun _ _ => ?_⟩
    · rw [checkedAdd_ok added]
      simp only
      omega
    · simp only
      omega
    · simp only
      omega

omit [DecidableEq Key] in
theorem spans_ne_nil {group : List ProbeDescriptor} (nonempty : group ≠ []) : spansOf group ≠ [] := by
  obtain ⟨d, rest, rfl⟩ := List.exists_cons_of_ne_nil nonempty
  obtain ⟨run, others, runs⟩ := runsBy_cons_head
    (fun d e : ProbeDescriptor => decide (d.gramIndex = e.gramIndex)) d rest
  simp [spansOf, runs]

theorem segment_admitted {keyCount limit : Nat} {a b : Admission} {group : List ProbeDescriptor}
    (admitted : Admitted a) (nonempty : group ≠ [])
    (run : admitSegment keyCount hwm limit a group = .ok b) : Admitted b := by
  obtain ⟨spans, spanned, run⟩ := bind_ok run
  obtain rfl := spans_ok spanned
  obtain ⟨_, run⟩ := check_ok run
  rcases branch_ok run with ⟨_, run⟩ | ⟨_, run⟩
  · rw [← ok_inj run]
    exact admitted
  rcases branch_ok run with ⟨_, run⟩ | ⟨_, run⟩
  · rw [← ok_inj run]
    exact admitted
  rcases branch_ok run with ⟨declined, run⟩ | ⟨fits, run⟩
  · rw [← ok_inj run]
    exact ⟨admitted.upper, admitted.candidate, fun _ whole => absurd whole declined⟩
  · have counts : (spansOf group).map GramSpan.count ≠ [] := by
      simpa using spans_ne_nil nonempty
    refine charge_admitted ?_ ?_ counts (Nat.min_le_left _ _) run
    · exact admitted.upper
    · exact admitted.candidate

theorem segments_admitted {keyCount limit : Nat} {descriptors : List ProbeDescriptor} {a : Admission}
    (run : admitSegments keyCount hwm limit descriptors = .ok a) : Admitted a := by
  refine foldlM_prefix (fun done a => (∀ group ∈ done, group ≠ []) → Admitted a) _ ?_ ?_ run
    (runsBy_ne_nil descriptors)
  · intro done group a b held step nonempty
    have before := held fun other listed => nonempty other (List.mem_append_left _ listed)
    exact segment_admitted before (nonempty group (List.mem_append_right _ List.mem_cons_self)) step
  · intro _
    exact ⟨Nat.le_refl _, Nat.zero_le _, fun some_segment => absurd rfl some_segment⟩

theorem segmentRows_val : segmentRows = 1048576 := rfl
theorem idxMax_val : idxMax = 18446744073709551615 := rfl

theorem charge_agrees {limit capacity spanRows : Nat} {counts : List Nat} {a : Admission}
    (room : capacity ≤ segmentRows) (span : spanRows ≤ maxRowId) :
    Agrees (chargeSegment64 limit capacity spanRows counts a) (chargeSegment limit capacity spanRows counts a) := by
  have within := (foldl_min_le counts capacity).1
  have bytes : rowBytes = 8 := rfl
  have fetch : rangeRowsPerFetch = 4 := rfl
  simp only [segmentRows_val, maxRowId] at room span
  refine agrees_bind (agrees_lift _) fun estimated _ => ?_
  refine agrees_branch (fun _ => agrees_ok _) fun _ => ?_
  refine agrees_bind (agrees_lift _) fun upper _ => ?_
  refine agrees_add (by rw [idxMax_val]; omega) (agrees_sub (by omega) ?_)
  refine agrees_bind (agrees_lift _) fun rows _ => ?_
  refine agrees_bind (agrees_lift _) fun worker _ => ?_
  exact agrees_mul (by rw [idxMax_val, bytes]; omega) (agrees_ok _)

omit [DecidableEq Key] in
theorem spanHigh_le {group : List ProbeDescriptor} (checked : ∀ d ∈ group, Checked hwm d)
    (nonempty : group ≠ []) : spanHigh group ≤ hwm.toNat := by
  obtain ⟨first, rest, spans⟩ := List.exists_cons_of_ne_nil (spans_ne_nil nonempty)
  have listed : first ∈ spansOf group := by
    rw [spans]
    exact List.mem_cons_self
  obtain ⟨run, in_runs, rfl⟩ := List.mem_map.mp listed
  have high : (spanOf run).high ≤ hwm.toNat := by
    apply foldl_max_le (Nat.zero_le _)
    intro rowid present
    obtain ⟨d, in_run, rfl⟩ := List.mem_map.mp present
    apply (checked d _).2
    have flat : (runsBy (fun d e : ProbeDescriptor => decide (d.gramIndex = e.gramIndex)) group).flatten = group :=
      runsBy_flatten group
    rw [← flat]
    exact List.mem_flatten.mpr ⟨run, in_runs, in_run⟩
  unfold spanHigh
  exact ((foldl_min_le _ _).2 _ (List.mem_map_of_mem listed)).trans high

theorem segment_agrees (space : hwm < maxRowId) {keyCount limit : Nat} {a : Admission}
    {group : List ProbeDescriptor} (checked : ∀ d ∈ group, Checked hwm d) (nonempty : group ≠ []) :
    Agrees (admitSegment64 keyCount hwm limit a group) (admitSegment keyCount hwm limit a group) := by
  have start : (group.map ProbeDescriptor.segmentNo).headD 0 * segmentRows ≤ hwm.toNat := by
    obtain ⟨d, rest, rfl⟩ := List.exists_cons_of_ne_nil nonempty
    exact (checked d List.mem_cons_self).1
  have top : hwm.toNat < maxRowId := by
    simp only [maxRowId] at space ⊢
    omega
  have words : maxRowId < idxMax := by decide
  have high := spanHigh_le checked nonempty
  refine agrees_bind (agrees_lift _) fun spans spanned => ?_
  obtain rfl := spans_ok spanned
  refine agrees_mul (by omega) (agrees_sub start (agrees_add (by omega) ?_))
  refine agrees_check fun _ => ?_
  refine agrees_branch (fun _ => agrees_ok _) fun _ => ?_
  refine agrees_branch (fun _ => agrees_ok _) fun meets => ?_
  change ¬ spanHigh group < spanLow group at meets
  change Agrees (sub64 (spanHigh group) (spanLow group) >>= _) _
  refine agrees_sub (Nat.le_of_not_lt meets) (agrees_add (by omega) ?_)
  refine agrees_branch (fun _ => agrees_ok _) fun _ => ?_
  apply charge_agrees (Nat.min_le_left _ _)
  show spanHigh group - spanLow group + 1 ≤ maxRowId
  omega

theorem segments_agree (space : hwm < maxRowId) {keyCount limit : Nat} {descriptors : List ProbeDescriptor}
    (checked : ∀ d ∈ descriptors, Checked hwm d) :
    Agrees (admitSegments64 keyCount hwm limit descriptors) (admitSegments keyCount hwm limit descriptors) := by
  refine agrees_foldlM (fun _ => True) _ trivial fun a group listed _ => ⟨?_, fun _ _ => trivial⟩
  refine segment_agrees space (fun d present => checked d ?_) (runsBy_ne_nil descriptors group listed)
  have flat : (runsBy (fun d e : ProbeDescriptor => decide (d.segmentNo = e.segmentNo)) descriptors).flatten =
      descriptors := runsBy_flatten descriptors
  rw [← flat]
  exact List.mem_flatten.mpr ⟨group, listed, present⟩

end Admission

section Gates
variable {settings : ProbeSettings} {reserved : Nat} {a : Admission} {plan : ProbePlan Key}

/-- The inverse of the division that gives the worker count fits. -/
theorem workspace_fits {available worker candidate threads : Nat} (positive : 0 < worker + candidate)
    (possible : threads ≤ (available + 2 * candidate) / (worker + candidate)) (several : 2 ≤ threads) :
    worker * threads + candidate * (threads - 2) ≤ available := by
  obtain ⟨others, rfl⟩ := Nat.exists_eq_add_of_le' several
  have fits := (Nat.le_div_iff_mul_le positive).mp possible
  have spread : (others + 2) * (worker + candidate) =
      worker * (others + 2) + candidate * others + 2 * candidate := by ring
  rw [Nat.add_sub_cancel]
  omega

omit [DecidableEq Key] in
theorem workers_agree (budget : settings.memoryBudget ≤ maxProbeMemoryBytes)
    (within : reserved ≤ settings.memoryBudget) (admitted : Admitted a)
    (scratch : fetchScratchBytes ≤ a.peakWorkerBytes) (counted : a.estimatedDecodedRowids ≤ idxMax / rowBytes)
    (room : ¬ settings.memoryBudget - reserved < a.peakWorkerBytes) :
    Agrees (chargeWorkers64 settings reserved a plan)
      (chargeWorkers settings (settings.memoryBudget - reserved) a plan) := by
  have upper := admitted.upper
  have candidate := admitted.candidate
  have batch : fetchBatchRows = 256 := rfl
  have bytes : rowBytes = 8 := rfl
  have fetch : fetchScratchBytes = 262144 := rfl
  have top : maxProbeMemoryBytes = 268435456 := rfl
  rw [segmentRows_val, bytes] at candidate
  rw [idxMax_val, bytes] at counted
  refine agrees_sub within ?_
  refine agrees_bind (agrees_lift _) fun perWorker summed => ?_
  obtain rfl := checkedAdd_ok summed
  refine agrees_mul (by rw [idxMax_val]; omega) (agrees_add (by rw [idxMax_val]; omega) ?_)
  refine agrees_div (by omega) (agrees_add (by rw [idxMax_val]; omega) (agrees_sub (by omega) ?_))
  refine agrees_branch (fun _ => agrees_grow (by omega) (agrees_ok _)) fun several => ?_
  refine agrees_bind (agrees_lift _) fun decode product => ?_
  refine agrees_sub (by omega) ?_
  refine agrees_bind (agrees_lift _) fun alive vectors => ?_
  refine agrees_bind (agrees_lift _) fun workspace total => ?_
  have fits := @workspace_fits (settings.memoryBudget - reserved) a.peakWorkerBytes a.peakCandidateBytes _
    (by omega) ((Nat.min_le_right _ _).trans ((Nat.min_le_right _ _).trans (Nat.min_le_right _ _)))
    (Nat.lt_of_not_le several)
  rw [← checkedMultiply_ok product, ← checkedMultiply_ok vectors, ← checkedAdd_ok total] at fits
  exact agrees_grow (by omega) (agrees_ok _)

omit [DecidableEq Key] in
theorem manifest_agrees (space : plan.hwm < maxRowId) (budget : settings.memoryBudget ≤ maxProbeMemoryBytes)
    (within : reserved ≤ settings.memoryBudget) (checked : ∀ d ∈ plan.descriptors, Checked plan.hwm d) :
    Agrees (admitManifest64 settings reserved plan) (admitManifest settings reserved plan) := by
  refine agrees_bind (segments_agree space checked) fun a run => ?_
  have admitted := segments_admitted run
  refine agrees_branch (fun _ => agrees_ok _) fun undeclined => ?_
  refine agrees_check fun counted => ?_
  refine agrees_bind (agrees_lift _) fun weight _ => ?_
  refine agrees_bind (agrees_lift _) fun rows _ => ?_
  have past : plan.hwm.toNat + 1 ≤ idxMax := by
    have words : maxRowId < idxMax := by decide
    omega
  refine agrees_add past ?_
  refine agrees_branch (fun _ => agrees_ok _) fun _ => ?_
  refine agrees_branch (fun _ => agrees_ok _) fun some_segment => ?_
  refine agrees_sub within ?_
  refine agrees_branch (fun _ => agrees_ok _) fun room => ?_
  exact workers_agree budget within admitted (admitted.worker some_segment (not_not.mp undeclined))
    (Nat.le_of_not_lt counted) room

theorem preflight_ok {keyCount workers bytes : Nat} (run : preflightProbeBytes keyCount workers = .ok bytes) :
    bytes = preflightFixedBytes + keyCount * preflightBytesPerKey + workers * preflightBytesPerWorker := by
  obtain ⟨keys, first, run⟩ := bind_ok run
  obtain ⟨each, second, run⟩ := bind_ok run
  obtain ⟨sum, third, run⟩ := bind_ok run
  rw [checkedAdd_ok run, checkedAdd_ok third, checkedMultiply_ok first, checkedMultiply_ok second]

theorem checkedMultiply_of_le {left right : Nat} (fits : left * right ≤ idxMax) :
    checkedMultiply left right = .ok (left * right) := by
  apply if_neg
  rintro ⟨nonzero, excess⟩
  have past := (Nat.div_lt_iff_lt_mul (Nat.pos_of_ne_zero nonzero)).mp excess
  rw [Nat.mul_comm] at past
  omega

theorem preflight_of_le {keyCount workers : Nat}
    (fits : preflightFixedBytes + keyCount * preflightBytesPerKey + workers * preflightBytesPerWorker ≤ idxMax) :
    preflightProbeBytes keyCount workers =
      .ok (preflightFixedBytes + keyCount * preflightBytesPerKey + workers * preflightBytesPerWorker) := by
  unfold preflightProbeBytes
  rw [checkedMultiply_of_le (by omega), bind_of_ok rfl, checkedMultiply_of_le (by omega), bind_of_ok rfl,
    checkedAdd_of_le (by omega), bind_of_ok rfl, checkedAdd_of_le fits]

/-- The keys of a probe, 16 bytes each, lie in memory. -/
def InMemory (keys : List Key) : Prop := keys.length * 16 < 2 ^ 59

theorem first_gate_passes {budget keyCount : Nat} (capped : budget ≤ maxProbeMemoryBytes) (some_key : 0 < keyCount)
    (few : keyCount ≤ maxProbeKeys budget) :
    ∃ keyBytes, preflightProbeBytes keyCount 0 = .ok keyBytes ∧ keyBytes + preflightBytesPerWorker ≤ budget := by
  have top : maxProbeMemoryBytes = 268435456 := rfl
  have worker : preflightBytesPerWorker = 262144 := rfl
  have per_key : preflightBytesPerKey = 256 := rfl
  have fixed : preflightFixedBytes = 4096 := rfl
  by_cases room : budget > preflightFixedBytes + preflightBytesPerWorker
  · rw [maxProbeKeys, if_pos room] at few
    rw [fixed, worker, per_key] at few
    rw [fixed, worker] at room
    have fits : preflightFixedBytes + keyCount * preflightBytesPerKey + 0 * preflightBytesPerWorker ≤ idxMax := by
      rw [fixed, per_key, idxMax_val]
      omega
    refine ⟨_, preflight_of_le fits, ?_⟩
    rw [fixed, per_key, worker]
    omega
  · rw [maxProbeKeys, if_neg room] at few
    omega

omit [DecidableEq Key] in
/-- What the first gate and the preflight leave to the manifest. -/
theorem preflight_room {settings : ProbeSettings} {keys : List Key} {keyBytes preflight : Nat}
    (budget : settings.memoryBudget ≤ maxProbeMemoryBytes)
    (first : preflightProbeBytes keys.length 0 = .ok keyBytes)
    (passes : keyBytes + preflightBytesPerWorker ≤ settings.memoryBudget)
    (second : preflightProbeBytes keys.length (min (min settings.threads keys.length)
      ((settings.memoryBudget - keyBytes) / preflightBytesPerWorker)) = .ok preflight) :
    preflight ≤ settings.memoryBudget ∧
      Room preflight ((settings.memoryBudget - preflight) / manifestBytesPerRow) settings.memoryBudget keys.length := by
  have key_bytes := preflight_ok first
  have reserved := preflight_ok second
  generalize workers_eq : min (min settings.threads keys.length)
    ((settings.memoryBudget - keyBytes) / preflightBytesPerWorker) = workers at reserved
  have few : workers ≤ (settings.memoryBudget - keyBytes) / preflightBytesPerWorker := by
    rw [← workers_eq]
    exact Nat.min_le_right _ _
  have top : maxProbeMemoryBytes = 268435456 := rfl
  have worker : preflightBytesPerWorker = 262144 := rfl
  have per_key : preflightBytesPerKey = 256 := rfl
  have fixed : preflightFixedBytes = 4096 := rfl
  have row : manifestBytesPerRow = 104 := rfl
  have vector : standardVectorSize = 2048 := rfl
  rw [worker] at few passes reserved key_bytes
  rw [per_key, fixed] at reserved key_bytes
  refine ⟨by omega, ?_, ?_, ?_⟩
  · rw [row]
    omega
  · rw [idxMax_val]
    omega
  · rw [row, vector, idxMax_val]
    omega

/-- The selection keeps no more rows than the scan has read. -/
theorem picked_scanned {chunks : Key → List (List (SegmentRow Key))} {keys : List Key} {hwm : Int} {maxRows : Nat}
    {result : Nat × List GramRows} (run : collectGramRows chunks hwm maxRows 0 keys 0 = .ok (some result))
    (maxGrams : Nat) : pickedRows result.2 maxGrams ≤ result.1 := by
  have described := congrArg (fun lists => (lists.map List.length).sum) (collectGramRows_descriptors run)
  have entries : (keys.zipIdx 0).map (fun entry => (chunks entry.1).flatten.length) =
      keys.map fun key => (chunks key).flatten.length := by
    conv => right; rw [← List.zipIdx_map_fst 0 keys, List.map_map]
    rfl
  have lengths : (result.2.map fun rows => rows.descriptors.length).sum =
      (keys.map fun key => (chunks key).flatten.length).sum := by
    rw [← entries]
    simpa [Function.comp_def] using described
  have kept := pickedRows_le result.2 maxGrams
  have counted := (collected_total (Nat.zero_le maxRows) run).1
  omega

theorem plan_agrees {chunks : Key → List (List (SegmentRow Key))} {keys : List Key} {hwm : Int}
    (budget : settings.memoryBudget ≤ maxProbeMemoryBytes) (in_memory : InMemory keys) (space : hwm < maxRowId)
    (vectors : ∀ key ∈ keys, ∀ chunk ∈ chunks key, chunk.length ≤ standardVectorSize) (maxGrams : Nat) :
    Agrees (planIndexProbe64 settings chunks keys maxGrams hwm) (planIndexProbe settings chunks keys maxGrams hwm) := by
  refine agrees_bind (agrees_lift _) fun keyBytes first => ?_
  have key_bytes := preflight_ok first
  have worker : preflightBytesPerWorker = 262144 := rfl
  have per_key : preflightBytesPerKey = 256 := rfl
  have fixed : preflightFixedBytes = 4096 := rfl
  unfold InMemory at in_memory
  refine agrees_add (by rw [idxMax_val, worker]; rw [per_key, fixed] at key_bytes; omega) ?_
  refine agrees_branch (fun _ => agrees_ok _) fun passes => ?_
  have passed := Nat.le_of_not_lt passes
  refine agrees_sub (by omega) ?_
  refine agrees_bind (agrees_lift _) fun preflight second => ?_
  obtain ⟨within, room⟩ := preflight_room budget first passed second
  refine agrees_grow (by omega) (agrees_sub within ?_)
  dsimp only
  rw [Nat.zero_add]
  generalize manifest_eq : (settings.memoryBudget - preflight) / manifestBytesPerRow = maxRows at room ⊢
  have alone : Room preflight maxRows settings.memoryBudget 0 :=
    ⟨room.reserve, room.budget, by have words := room.overshoot; rw [Nat.succ_mul] at words; omega⟩
  have collected := @collect_agrees _ _ hwm chunks space settings.memoryBudget preflight maxRows alone keys vectors
    0 0 (Nat.zero_le _)
  unfold Agrees at collected
  rw [Nat.zero_mul, Nat.add_zero] at collected
  rw [collected]
  cases ran : collectGramRows chunks hwm maxRows 0 keys 0 with
  | error reason => rfl
  | ok result =>
    cases result with
    | none => rfl
    | some result =>
      obtain ⟨scanned, perKey⟩ := result
      obtain ⟨counted, below⟩ := collected_total (Nat.zero_le maxRows) ran
      have kept := picked_scanned ran maxGrams
      have selection := selectRarestGrams_spec maxGrams (collectGramRows_descriptors ran)
      have checked := collected_each (fun _ _ _ _ _ => row_checked) ran
      have row : manifestBytesPerRow = 104 := rfl
      have reserve := room.reserve
      have top := room.budget
      have summed : descriptorCount64 perKey maxGrams = .ok (pickedRows perKey maxGrams) := by
        have total := @sumWords_ok String _ idxMax 0 (fun index => (perKey.getD index ⟨[], 0⟩).descriptors.length)
          ((rarestFirst (perKey.map GramRows.rowCount)).take maxGrams) (by
            rw [Nat.zero_add]
            change pickedRows perKey maxGrams ≤ idxMax
            change pickedRows perKey maxGrams ≤ scanned at kept
            rw [row] at reserve
            simp only at below
            omega)
        rw [Nat.zero_add] at total
        exact total
      rw [← selected_length keys perKey maxGrams] at kept
      show Agrees (descriptorCount64 perKey maxGrams >>= _) _
      rw [summed]
      show Agrees (mul64 (selectRarestGrams keys perKey maxGrams).2.length manifestBytesPerRow >>= _)
        (admitManifest settings (preflight + (selectRarestGrams keys perKey maxGrams).2.length * manifestBytesPerRow) _)
      generalize selectRarestGrams keys perKey maxGrams = picked at kept selection ⊢
      obtain ⟨_, selected_keys, _, manifest⟩ := selection
      dsimp only at kept counted below ⊢
      rw [row] at reserve ⊢
      refine agrees_mul (by omega) (agrees_sub kept (agrees_mul (by omega) ?_))
      refine agrees_sub (by omega) (agrees_add (by omega) ?_)
      have shrunk : preflight + scanned * 104 - (scanned - picked.2.length) * 104 = preflight + picked.2.length * 104 := by
        omega
      rw [shrunk, if_neg (not_not.mpr rfl)]
      apply manifest_agrees space budget (by omega)
      show ∀ d ∈ picked.2, Checked hwm d
      rw [manifest]
      exact manifest_checked fun key listed => checked key (selected_keys key listed)

omit [DecidableEq Key] in
theorem workers_fit {available : Nat} {planned : ProbePlan Key} (cap : 1 ≤ settings.workerCap)
    (scratch : fetchScratchBytes ≤ a.peakWorkerBytes) (room : ¬ available < a.peakWorkerBytes)
    (run : chargeWorkers settings available a plan = .ok planned) :
    planned.descriptors = plan.descriptors ∧ 1 ≤ planned.maxThreads ∧
      planned.maxThreads ≤ settings.workerCap ∧ planned.workspaceBytes ≤ available := by
  have fetch : fetchScratchBytes = 262144 := rfl
  obtain ⟨perWorker, summed, run⟩ := bind_ok run
  obtain rfl := checkedAdd_ok summed
  rcases branch_ok run with ⟨_, run⟩ | ⟨several, run⟩
  · rw [← ok_inj run]
    exact ⟨rfl, Nat.le_refl _, cap, Nat.le_of_not_lt room⟩
  · obtain ⟨decode, product, run⟩ := bind_ok run
    obtain ⟨alive, vectors, run⟩ := bind_ok run
    obtain ⟨workspace, total, run⟩ := bind_ok run
    have fits := @workspace_fits available a.peakWorkerBytes a.peakCandidateBytes _
      (by omega) ((Nat.min_le_right _ _).trans ((Nat.min_le_right _ _).trans (Nat.min_le_right _ _)))
      (Nat.lt_of_not_le several)
    rw [← checkedMultiply_ok product, ← checkedMultiply_ok vectors, ← checkedAdd_ok total] at fits
    rw [← ok_inj run]
    refine ⟨rfl, ?_, (Nat.min_le_right _ _).trans (Nat.min_le_left _ _), fits⟩
    simp only
    omega

omit [DecidableEq Key] in
theorem gates_fit {planned : ProbePlan Key} (cap : 1 ≤ settings.workerCap) (within : reserved ≤ settings.memoryBudget)
    (run : admitManifest settings reserved plan = .ok planned) (undecided : plan.admitted = false)
    (admitted : planned.admitted = true) :
    planned.descriptors = plan.descriptors ∧ (planned.segments ≠ [] → 1 ≤ planned.maxThreads ∧
      planned.maxThreads ≤ settings.workerCap ∧ reserved + planned.workspaceBytes ≤ settings.memoryBudget) := by
  obtain ⟨a, admission, run⟩ := bind_ok run
  rcases branch_ok run with ⟨_, run⟩ | ⟨undeclined, run⟩
  · rw [← ok_inj run] at admitted
    exact absurd admitted (by simp [undecided])
  obtain ⟨_, run⟩ := check_ok run
  obtain ⟨weight, _, run⟩ := bind_ok run
  obtain ⟨rows, _, run⟩ := bind_ok run
  rcases branch_ok run with ⟨_, run⟩ | ⟨_, run⟩
  · rw [← ok_inj run] at admitted
    exact absurd admitted (by simp [undecided])
  rcases branch_ok run with ⟨none_left, run⟩ | ⟨some_segment, run⟩
  · rw [← ok_inj run]
    exact ⟨rfl, fun some_segment => absurd none_left some_segment⟩
  rcases branch_ok run with ⟨_, run⟩ | ⟨room, run⟩
  · rw [← ok_inj run] at admitted
    exact absurd admitted (by simp [undecided])
  have scratch := (segments_admitted admission).worker some_segment (not_not.mp undeclined)
  obtain ⟨descriptors, threads, capped, fits⟩ := workers_fit cap scratch room run
  exact ⟨descriptors, fun _ => ⟨threads, capped, by omega⟩⟩

/-- What an admitted plan holds of the budget: the preflight, the manifest and
    the workspace. -/
structure WithinBudget (settings : ProbeSettings) (keys : List Key) (plan : ProbePlan Key) : Prop where
  threads : 1 ≤ plan.maxThreads
  capped : plan.maxThreads ≤ settings.workerCap
  reserved : ∃ keyBytes preflight, preflightProbeBytes keys.length 0 = .ok keyBytes ∧
    preflightProbeBytes keys.length (min (min settings.threads keys.length)
      ((settings.memoryBudget - keyBytes) / preflightBytesPerWorker)) = .ok preflight ∧
    preflight + plan.descriptors.length * manifestBytesPerRow + plan.workspaceBytes ≤ settings.memoryBudget

theorem planned_fits {chunks : Key → List (List (SegmentRow Key))} {keys : List Key} {hwm : Int} {maxGrams : Nat}
    {planned : ProbePlan Key} (budget : settings.memoryBudget ≤ maxProbeMemoryBytes) (cap : 1 ≤ settings.workerCap)
    (run : planIndexProbe settings chunks keys maxGrams hwm = .ok planned) (admitted : planned.admitted = true) :
    (∀ segment ∈ planned.segments, segment.segmentNo * segmentRows ≤ hwm.toNat) ∧
      (planned.segments ≠ [] → WithinBudget settings keys planned) := by
  obtain ⟨keyBytes, first, run⟩ := bind_ok run
  rcases branch_ok run with ⟨_, run⟩ | ⟨passes, run⟩
  · obtain rfl := ok_inj run
    cases admitted
  obtain ⟨preflight, second, run⟩ := bind_ok run
  obtain ⟨collected, collected_eq, run⟩ := bind_ok run
  obtain ⟨within, room⟩ := preflight_room budget first (Nat.le_of_not_lt passes) second
  cases collected with
  | none =>
    obtain rfl := ok_inj run
    cases admitted
  | some collected =>
    have kept := picked_scanned collected_eq maxGrams
    rw [← selected_length keys collected.2 maxGrams] at kept
    have below := (collected_total (Nat.zero_le _) collected_eq).2
    have selection := selectRarestGrams_spec maxGrams (collectGramRows_descriptors collected_eq)
    have checked := collected_each (fun _ _ _ _ _ => row_checked) collected_eq
    dsimp only at run selection
    generalize selectRarestGrams keys collected.2 maxGrams = picked at run selection kept
    obtain ⟨_, selected_keys, _, manifest⟩ := selection
    have scaled := Nat.mul_le_mul_right manifestBytesPerRow (kept.trans below)
    have reserve := room.reserve
    obtain ⟨descriptors, fits⟩ := gates_fit cap (by omega) run rfl admitted
    obtain ⟨_, _, a, admission, segments⟩ := admitManifest_fields run
    constructor
    · intro segment listed
      rw [segments, admitSegments_segments admission] at listed
      obtain ⟨group, chosen, rfl⟩ := List.mem_map.mp listed
      have in_runs := (List.mem_filter.mp chosen).1
      obtain ⟨d, rest, rfl⟩ := List.exists_cons_of_ne_nil (runsBy_ne_nil _ group in_runs)
      have flat : (runsBy (fun d e : ProbeDescriptor => decide (d.segmentNo = e.segmentNo)) picked.2).flatten =
          picked.2 := runsBy_flatten picked.2
      have present : d ∈ picked.2 := by
        rw [← flat]
        exact List.mem_flatten.mpr ⟨_, in_runs, List.mem_cons_self⟩
      rw [manifest] at present
      exact (manifest_checked (fun key key_listed => checked key (selected_keys key key_listed)) d present).1
    · intro some_segment
      obtain ⟨threads, capped, total⟩ := fits some_segment
      refine ⟨threads, capped, keyBytes, preflight, first, second, ?_⟩
      rw [descriptors]
      exact total

end Gates

section Decode
variable {plan : ProbePlan Key} {fetch : Nat → Option (SegmentRow Key)}

theorem postings_agree {segmentNo gramIndex expected : Nat} {postings : List Nat}
    (fits : postings.length ≤ expected) (entry : ProbeDescriptor × SegmentRow Key) :
    Agrees (appendPostings64 plan segmentNo gramIndex expected postings entry)
        (appendPostings plan segmentNo gramIndex expected postings entry) ∧
      ∀ appended, appendPostings plan segmentNo gramIndex expected postings entry = .ok appended →
        appended.length ≤ expected := by
  constructor
  · refine agrees_bind (agrees_lift _) fun encodedCount _ => ?_
    refine agrees_sub fits (agrees_check fun _ => ?_)
    refine agrees_bind (agrees_lift _) fun decoded _ => ?_
    exact agrees_check fun _ => agrees_ok _
  · intro appended run
    obtain ⟨encodedCount, counted, run⟩ := bind_ok run
    obtain ⟨room, run⟩ := check_ok run
    obtain ⟨decoded, read, run⟩ := bind_ok run
    obtain ⟨_, run⟩ := check_ok run
    have same : encodedCount = decoded.length := ok_inj (counted.symm.trans (decodePostings_count read))
    simp only [not_or, Nat.not_lt] at room
    rw [← ok_inj run, List.length_append]
    omega

/-- The rowids left of what is expected never underflow. -/
theorem range_agrees {segment : ProbeSegment} {gramIndex : Nat}
    (inside : segment.segmentNo * segmentRows ≤ maxRowId) :
    Agrees (decodeDescriptorRange64 plan fetch segment gramIndex)
      (decodeDescriptorRange plan fetch segment gramIndex) := by
  have words : maxRowId + segmentRows ≤ int64Max := by decide
  refine agrees_bind (agrees_lift _) fun expected _ => ?_
  refine agrees_check fun _ => ?_
  refine agrees_bind ?_ fun postings _ => ?_
  · refine agrees_foldlM (fun postings => postings.length ≤ expected) _ (Nat.zero_le _) ?_
    intro postings batch _ fits
    constructor
    · refine agrees_bind (agrees_lift _) fun rows _ => ?_
      exact agrees_foldlM (fun postings => postings.length ≤ expected) rows fits fun held entry _ within =>
        postings_agree within entry
    · intro appended run
      obtain ⟨rows, _, run⟩ := bind_ok run
      refine foldlM_prefix (fun _ postings => postings.length ≤ expected) rows ?_ fits run
      intro _ entry before after within step
      exact (postings_agree within entry).2 after step
  · refine agrees_check fun _ => ?_
    refine agrees_check fun _ => ?_
    refine agrees_mul (by omega) (agrees_add (by omega) ?_)
    exact agrees_check fun _ => agrees_ok _

end Decode

/-- Each manifest scan that the planner starts: its row bound and its reservation. -/
def PlannedScan (settings : ProbeSettings) (chunks : Key → List (List (SegmentRow Key))) (keys : List Key)
    (preflight maxRows : Nat) (s : ManifestState) : Prop :=
  ∃ keyBytes events, preflightProbeBytes keys.length 0 = .ok keyBytes ∧
    keyBytes + preflightBytesPerWorker ≤ settings.memoryBudget ∧
    preflightProbeBytes keys.length (min (min settings.threads keys.length)
      ((settings.memoryBudget - keyBytes) / preflightBytesPerWorker)) = .ok preflight ∧
    maxRows = (settings.memoryBudget - preflight) / manifestBytesPerRow ∧
    exec (manifestStep maxRows) (startScan preflight (keys.map fun key => (chunks key).map List.length)) events = some s

theorem planning_arithmetic_safe (limit : Nat) {settings : ProbeSettings}
    (budget : settings.memoryBudget = probeMemoryBudget limit) (cap : 1 ≤ settings.workerCap) {hwm : Int}
    (space : hwm < maxRowId) {chunks : Key → List (List (SegmentRow Key))} {keys : List Key} (some_key : keys ≠ [])
    (in_memory : InMemory keys) (vectors : ∀ key ∈ keys, ∀ chunk ∈ chunks key, chunk.length ≤ standardVectorSize)
    (maxGrams : Nat) :
    Agrees (planIndexProbe64 settings chunks keys maxGrams hwm) (planIndexProbe settings chunks keys maxGrams hwm) ∧
    (keys.length ≤ maxProbeKeys settings.memoryBudget → ∃ keyBytes,
      preflightProbeBytes keys.length 0 = .ok keyBytes ∧
        keyBytes + preflightBytesPerWorker ≤ settings.memoryBudget) ∧
    (∀ preflight maxRows s, PlannedScan settings chunks keys preflight maxRows s →
      s.reserved ≤ settings.memoryBudget ∧ StepsFit settings.memoryBudget s ∧ (Done s →
        let rows := (keys.map fun key => (chunks key).flatten.length).sum
        (s.declined = false ↔ rows ≤ maxRows) ∧
          (s.declined = false → s.totalRows = rows ∧ s.reserved = preflight + rows * manifestBytesPerRow))) ∧
    ∀ plan, planIndexProbe settings chunks keys maxGrams hwm = .ok plan → plan.admitted = true →
      (plan.segments ≠ [] → WithinBudget settings keys plan) ∧
      ∀ segment ∈ plan.segments, ∀ fetch gramIndex, Agrees (decodeDescriptorRange64 plan fetch segment gramIndex)
        (decodeDescriptorRange plan fetch segment gramIndex) := by
  have capped : settings.memoryBudget ≤ maxProbeMemoryBytes := by
    rw [budget]
    exact Nat.min_le_right _ _
  refine ⟨plan_agrees capped in_memory space vectors maxGrams, ?_, ?_, ?_⟩
  · exact first_gate_passes capped (List.length_pos_of_ne_nil some_key)
  · rintro preflight maxRows s ⟨keyBytes, events, first, passed, second, rfl, run⟩
    obtain ⟨_, room⟩ := preflight_room capped first passed second
    have sizes : ∀ sizes ∈ keys.map (fun key => (chunks key).map List.length), ∀ size ∈ sizes,
        size ≤ standardVectorSize := by
      intro sizes listed size in_sizes
      obtain ⟨key, in_keys, rfl⟩ := List.mem_map.mp listed
      obtain ⟨chunk, scanned, rfl⟩ := List.mem_map.mp in_sizes
      exact vectors key in_keys chunk scanned
    rw [← @List.length_map _ _ keys fun key => (chunks key).map List.length] at room
    have bounded := manifest_run_bounded room sizes run
    have rows : scanRows (keys.map fun key => (chunks key).map List.length) =
        (keys.map fun key => (chunks key).flatten.length).sum := by
      simp only [scanRows, List.map_map, List.length_flatten]
      rfl
    refine ⟨?_, steps_fit bounded room, fun done => ?_⟩
    · have owed := reserve_fits bounded room
      omega
    · rw [← rows]
      exact done_exact bounded done
  · intro plan planned admitted
    obtain ⟨inside, fits⟩ := planned_fits capped cap planned admitted
    refine ⟨fits, fun segment listed fetch gramIndex => range_agrees ?_⟩
    have start := inside segment listed
    omega

def twoGenerationsSettings : ProbeSettings :=
  ⟨probeMemoryBudget (8 * 1024 * 1024 * 1024), 4, 4, 0, 1000000, fun _ _ => false⟩

theorem two_generations_planned :
    planIndexProbe64 twoGenerationsSettings twoGenerationsScans [8, 7] 2 1048580 = .ok twoGenerationsPlan ∧
    WithinBudget twoGenerationsSettings [8, 7] twoGenerationsPlan := by
  have vectors : ∀ key ∈ [8, 7], ∀ chunk ∈ twoGenerationsScans key, chunk.length ≤ standardVectorSize := by
    decide +kernel
  obtain ⟨agrees, _, _, admitted⟩ := planning_arithmetic_safe (8 * 1024 * 1024 * 1024)
    (show twoGenerationsSettings.memoryBudget = _ from rfl) (by decide)
    (show (1048580 : Int) < maxRowId by decide) (by decide) (show InMemory [8, 7] by unfold InMemory; decide) vectors 2
  have planned : planIndexProbe twoGenerationsSettings twoGenerationsScans [8, 7] 2 1048580 =
      .ok twoGenerationsPlan := by decide +kernel
  refine ⟨?_, (admitted twoGenerationsPlan planned rfl).1 (by decide)⟩
  rw [agrees, planned]
  rfl

end NgramProbeArithmetic
