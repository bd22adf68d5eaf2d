import NgramIndex.MachineWord
import NgramIndex.Probe

/- The planner in the machine's words. Every operation that the planner leaves
   unchecked reports here when it would wrap, a division by zero included, and
   every growth of the reservation reports when it would pass the budget. -/
namespace NgramProbeArithmetic
open AscendingLists NgramPostings NgramProbe MachineWord
variable {Key : Type} [DecidableEq Key]

abbrev Word (α : Type) : Type := Except (Fault String) α

def add64 (left right : Nat) : Word Nat := addWord idxMax left right
def sub64 (left right : Nat) : Word Nat := subWord left right
def mul64 (left right : Nat) : Word Nat := mulWord idxMax left right
def div64 (left right : Nat) : Word Nat := divWord left right
def signed64 (value : Int) : Word Int := signedWord int64Max value

def maxProbeMemoryBytes : Nat := 256 * 1024 * 1024

def probeMemoryBudget (limit : Nat) : Nat := min (limit / 4) maxProbeMemoryBytes

def maxProbeKeys (budget : Nat) : Nat :=
  let fixed := preflightFixedBytes + preflightBytesPerWorker
  if budget > fixed then (budget - fixed) / preflightBytesPerKey else 0

def appendRow64 (keyIndex : Nat) (key : Key) (hwm : Int) (rows : GramRows) (row : SegmentRow Key) :
    Word GramRows := do
  if row.gramKey ≠ key ∨ row.segmentNo < 0 ∨ row.segmentNo > maxSegment hwm ∨ row.rowidCount ≤ 0 then
    .error (.thrown invalidDescriptor)
  if row.rowidCount > segmentRows then .error (.thrown rowCountRange)
  let segmentStart ← signed64 (row.segmentNo * segmentRows)
  let segmentEnd ← signed64 (segmentStart + segmentRows)
  if row.minRowid < segmentStart ∨ row.maxRowid < row.minRowid ∨
      row.maxRowid ≥ segmentEnd ∨ row.maxRowid > hwm then
    .error (.thrown spanOutside)
  let span ← signed64 (row.maxRowid - row.minRowid)
  let span ← signed64 (span + 1)
  if row.rowidCount > span then .error (.thrown postingCountRange)
  let rowCount ← lift (checkedAdd rows.rowCount row.rowidCount.toNat)
  return {
    descriptors := rows.descriptors ++ [{
      segmentNo := row.segmentNo.toNat
      gramIndex := keyIndex
      postingRowid := row.postingRowid
      postingCount := row.rowidCount.toNat
      minRowid := row.minRowid.toNat
      maxRowid := row.maxRowid.toNat }]
    rowCount := rowCount }

def consumeChunks64 (budget keyIndex : Nat) (key : Key) (hwm : Int) (maxRows : Nat) :
    List (List (SegmentRow Key)) → Nat → Nat → GramRows → Word (Option (Nat × Nat × GramRows))
  | [], total, reserved, rows => .ok (some (total, reserved, rows))
  | chunk :: rest, total, reserved, rows => do
      let total ← add64 total chunk.length
      if total > maxRows then .ok none
      else do
        let bytes ← mul64 chunk.length manifestBytesPerRow
        let reserved ← grow budget reserved bytes
        let rows ← chunk.foldlM (appendRow64 keyIndex key hwm) rows
        consumeChunks64 budget keyIndex key hwm maxRows rest total reserved rows

def collectGramRows64 (budget : Nat) (chunks : Key → List (List (SegmentRow Key))) (hwm : Int) (maxRows : Nat) :
    Nat → List Key → Nat → Nat → Word (Option (Nat × Nat × List GramRows))
  | _, [], total, reserved => .ok (some (total, reserved, []))
  | keyIndex, key :: keys, total, reserved => do
      match ← consumeChunks64 budget keyIndex key hwm maxRows (chunks key) total reserved ⟨[], 0⟩ with
      | none => return none
      | some (total, reserved, rows) =>
          match ← collectGramRows64 budget chunks hwm maxRows (keyIndex + 1) keys total reserved with
          | none => return none
          | some (total, reserved, others) => return some (total, reserved, rows :: others)

def chargeSegment64 (hardWorkLimit segmentCapacity spanRows : Nat) (counts : List Nat)
    (a : Admission) : Word Admission := do
  let estimated ← lift (counts.foldlM checkedAdd a.estimatedDecodedRowids)
  if hardWorkLimit < estimated then
    return { a with
      estimatedDecodedRowids := estimated
      declineReason := "decoded-rowid work budget exceeded" }
  else
    let vectorBound := counts.foldl min segmentCapacity
    let candidateBound := min vectorBound spanRows
    let upper ← lift (checkedAdd a.candidateUpperBound candidateBound)
    let rounded ← add64 spanRows rangeRowsPerFetch
    let rounded ← sub64 rounded 1
    let admissionRows ← lift (checkedAdd a.admissionRows (min candidateBound (rounded / rangeRowsPerFetch)))
    let workerBytes ← lift (segmentWorkerBytes counts segmentCapacity)
    let candidateBytes ← mul64 vectorBound rowBytes
    return { a with
      estimatedDecodedRowids := estimated
      candidateUpperBound := upper
      admissionRows := admissionRows
      peakWorkerBytes := max a.peakWorkerBytes workerBytes
      peakCandidateBytes := max a.peakCandidateBytes candidateBytes }

def admitSegment64 (keyCount : Nat) (hwm : Int) (hardWorkLimit : Nat) (a : Admission)
    (group : List ProbeDescriptor) : Word Admission := do
  let spans ← lift ((runsBy (fun d e => decide (d.gramIndex = e.gramIndex)) group).mapM gramSpan)
  let counts := spans.map GramSpan.count
  let segmentNo := (group.map ProbeDescriptor.segmentNo).headD 0
  let segmentStart ← mul64 segmentNo segmentRows
  let below ← sub64 hwm.toNat segmentStart
  let below ← add64 below 1
  let segmentCapacity := min segmentRows below
  if ∃ count ∈ counts, segmentCapacity < count then .error (.thrown postingCountRange)
  if counts.length ≠ keyCount then return a
  else
    let spanLow := (spans.map GramSpan.low).foldl max 0
    let spanHigh := (spans.map GramSpan.high).foldl min ((spans.map GramSpan.high).headD 0)
    if spanHigh < spanLow then return a
    else do
      let spanRows ← sub64 spanHigh spanLow
      let spanRows ← add64 spanRows 1
      let admitted := { a with
        segments := a.segments ++ [⟨segmentNo, group, rarestFirst counts⟩] }
      if admitted.declineReason ≠ "" then return admitted
      else chargeSegment64 hardWorkLimit segmentCapacity spanRows counts admitted

def admitSegments64 (keyCount : Nat) (hwm : Int) (hardWorkLimit : Nat)
    (descriptors : List ProbeDescriptor) : Word Admission :=
  (runsBy (fun d e => decide (d.segmentNo = e.segmentNo)) descriptors).foldlM
    (admitSegment64 keyCount hwm hardWorkLimit) ⟨[], 0, 0, 0, 0, 0, ""⟩

/-- The worker count and the workspace; the reservation grows by the workspace. -/
def chargeWorkers64 (settings : ProbeSettings) (reservedBytes : Nat) (a : Admission)
    (plan : ProbePlan Key) : Word (ProbePlan Key) := do
  let availableBytes ← sub64 settings.memoryBudget reservedBytes
  let perWorkerBytes ← lift (checkedAdd a.peakWorkerBytes a.peakCandidateBytes)
  let twice ← mul64 2 a.peakCandidateBytes
  let shared ← add64 availableBytes twice
  let possibleWorkers ← div64 shared perWorkerBytes
  let rounded ← add64 a.candidateUpperBound fetchBatchRows
  let rounded ← sub64 rounded 1
  let fetchUnits := max plan.segments.length (rounded / fetchBatchRows)
  let maxThreads := min fetchUnits (min settings.workerCap (min settings.threads possibleWorkers))
  if maxThreads ≤ 1 then do
    let _ ← grow settings.memoryBudget reservedBytes a.peakWorkerBytes
    return { plan with maxThreads := 1, workspaceBytes := a.peakWorkerBytes, admitted := true }
  else do
    let workspaceBytes ← lift (checkedMultiply a.peakWorkerBytes maxThreads)
    let others ← sub64 maxThreads 2
    let aliveBytes ← lift (checkedMultiply a.peakCandidateBytes others)
    let workspaceBytes ← lift (checkedAdd workspaceBytes aliveBytes)
    let _ ← grow settings.memoryBudget reservedBytes workspaceBytes
    return { plan with
      maxThreads := maxThreads, workspaceBytes := workspaceBytes, admitted := true }

def admitManifest64 (settings : ProbeSettings) (reservedBytes : Nat) (plan : ProbePlan Key) :
    Word (ProbePlan Key) := do
  let a ← admitSegments64 plan.keys.length plan.hwm settings.maxProbeRowids plan.descriptors
  let plan := { plan with
    segments := a.segments
    candidateUpperBound := a.candidateUpperBound
    admissionRows := a.admissionRows
    declineReason := a.declineReason }
  if a.declineReason ≠ "" then return plan
  else
    if idxMax / rowBytes < a.estimatedDecodedRowids then .error (.thrown overflow)
    let projectionWeight ← lift (checkedAdd 1 settings.extraColumns)
    let admissionRows ← lift (checkedMultiply a.admissionRows projectionWeight)
    let plan := { plan with admissionRows := admissionRows }
    let past ← add64 plan.hwm.toNat 1
    let indexedRows := if plan.hwm < 0 then 0 else past
    if settings.exceedsFraction admissionRows indexedRows then
      return { plan with declineReason := "candidate fraction exceeded" }
    else if plan.segments = [] then return { plan with admitted := true }
    else do
      let available ← sub64 settings.memoryBudget reservedBytes
      if available < a.peakWorkerBytes then
        return { plan with declineReason := "one posting segment exceeds query memory budget" }
      else chargeWorkers64 settings reservedBytes a plan

def descriptorCount64 (perKey : List GramRows) (maxGrams : Nat) : Word Nat :=
  ((rarestFirst (perKey.map GramRows.rowCount)).take maxGrams).foldlM
    (fun count index => add64 count (perKey.getD index ⟨[], 0⟩).descriptors.length) 0

def planIndexProbe64 (settings : ProbeSettings) (chunks : Key → List (List (SegmentRow Key)))
    (keys : List Key) (maxGrams : Nat) (hwm : Int) : Word (ProbePlan Key) := do
  let keyBytes ← lift (preflightProbeBytes keys.length 0)
  let needed ← add64 keyBytes preflightBytesPerWorker
  if settings.memoryBudget < needed then
    return { emptyPlan hwm with declineReason := "query grams exceed query memory budget" }
  else do
    let spare ← sub64 settings.memoryBudget keyBytes
    let workers := min (min settings.threads keys.length) (spare / preflightBytesPerWorker)
    let preflightBytes ← lift (preflightProbeBytes keys.length workers)
    let reserved ← grow settings.memoryBudget 0 preflightBytes
    let spare ← sub64 settings.memoryBudget preflightBytes
    let maxManifestRows := spare / manifestBytesPerRow
    match ← collectGramRows64 settings.memoryBudget chunks hwm maxManifestRows 0 keys 0 reserved with
    | none =>
        return { emptyPlan hwm with
          manifestRowsScanned := rowsCounted maxManifestRows ((keys.flatMap chunks).map List.length) 0
          declineReason := "segment manifest exceeds query memory budget" }
    | some (scanned, reserved, perKey) => do
        let _ ← descriptorCount64 perKey maxGrams
        let (selected, descriptors) := selectRarestGrams keys perKey maxGrams
        let manifestBytes ← mul64 descriptors.length manifestBytesPerRow
        let released ← sub64 scanned descriptors.length
        let released ← mul64 released manifestBytesPerRow
        let kept ← sub64 reserved released
        let reservedBytes ← add64 preflightBytes manifestBytes
        -- the shrunk reservation is what the later gates subtract
        if kept ≠ reservedBytes then .error .overrun
        admitManifest64 settings reservedBytes { (emptyPlan hwm : ProbePlan Key) with
          keys := selected
          descriptors := descriptors
          manifestRowsScanned := scanned }

def appendPostings64 (plan : ProbePlan Key) (segmentNo gramIndex expected : Nat) (postings : List Nat)
    (entry : ProbeDescriptor × SegmentRow Key) : Word (List Nat) := do
  let (d, row) := entry
  let encodedCount ← lift (postingsCount row.postings)
  let left ← sub64 expected postings.length
  if plan.keys[gramIndex]? ≠ some row.gramKey ∨ row.segmentNo ≠ segmentNo ∨ row.rowidCount ≤ 0 ∨
      row.rowidCount.toNat ≠ d.postingCount ∨ encodedCount ≠ d.postingCount ∨ left < encodedCount then
    .error (.thrown rowDisagrees)
  let decoded ← lift (decodePostings row.postings)
  if decoded.head? ≠ some d.minRowid ∨ decoded.getLast? ≠ some d.maxRowid then .error (.thrown spanDisagrees)
  return postings ++ decoded

def decodeDescriptorRange64 (plan : ProbePlan Key) (fetch : Nat → Option (SegmentRow Key))
    (segment : ProbeSegment) (gramIndex : Nat) : Word (List Nat) := do
  let range := (segment.descriptors.dropWhile fun d => decide (d.gramIndex ≠ gramIndex)).takeWhile
    fun d => decide (d.gramIndex = gramIndex)
  let expected ← lift (range.foldlM (fun expected d => checkedAdd expected d.postingCount) 0)
  if range = [] then .error (.thrown missingGram)
  let postings ← (vectorBatches range).foldlM (fun postings batch => do
    let rows ← lift (fetchRows fetch batch)
    rows.foldlM (appendPostings64 plan segment.segmentNo gramIndex expected) postings) []
  if postings.length ≠ expected then .error (.thrown countDisagrees)
  let postings := if 1 < range.length then postings.insertionSort (· ≤ ·) else postings
  if 1 < range.length ∧ ¬ postings.IsChain (· ≠ ·) then .error (.thrown duplicateRowids)
  let segmentStart ← mulWord int64Max segment.segmentNo segmentRows
  let segmentEnd ← addWord int64Max segmentStart segmentRows
  if ∃ rowid ∈ postings, rowid < segmentStart ∨ segmentEnd ≤ rowid ∨ plan.hwm < (rowid : Int) then
    .error (.thrown rowidOutside)
  return postings

end NgramProbeArithmetic
