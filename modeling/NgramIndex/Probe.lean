import Mathlib.Data.Prod.Lex
import NgramIndex.PackSegment
import NgramIndex.Storage

/- Planning an index probe and decoding the segments it admits. The manifest of
   every needle key is read and checked, the rarest keys are selected, and a
   segment is admitted when it holds all of them on rowid spans that meet. -/
namespace NgramProbe
open AscendingLists NgramPostings NgramPackSegment
open NgramStorage (standardVectorSize)
variable {Key : Type} [DecidableEq Key]

structure SegmentRow (Key : Type) where
  postingRowid : Nat
  gramKey : Key
  segmentNo : Int
  generation : Int
  postings : List UInt8
  rowidCount : Int
  minRowid : Int
  maxRowid : Int
  deriving DecidableEq, Repr

structure ProbeDescriptor where
  segmentNo : Nat
  gramIndex : Nat
  postingRowid : Nat
  postingCount : Nat
  minRowid : Nat
  maxRowid : Nat
  deriving DecidableEq, Repr

structure GramRows where
  descriptors : List ProbeDescriptor
  rowCount : Nat
  deriving DecidableEq, Repr

/-- One admitted segment with the slice of the manifest that describes it. -/
structure ProbeSegment where
  segmentNo : Nat
  descriptors : List ProbeDescriptor
  gramOrder : List Nat
  deriving DecidableEq, Repr

def idxMax : Nat := 2 ^ 64 - 1
def overflow : String := "ngram: probe arithmetic overflow"
def invalidDescriptor : String :=
  "ngram: invalid segments-table descriptor; the index is malformed"
def rowCountRange : String :=
  "ngram: segment row_count exceeds its rowid range; the index is malformed"
def spanOutside : String :=
  "ngram: segment rowid span lies outside its segment or past the high-water mark; the index is malformed"
def postingCountRange : String :=
  "ngram: gram posting count exceeds its segment rowid range; the index is malformed"
def missingGram : String := "ngram: admitted segment is missing a gram; the index is malformed"
def rowVanished : String := "ngram: a manifest posting row vanished; the index is malformed"
def rowDisagrees : String :=
  "ngram: posting row disagrees with its manifest; the index is malformed"
def spanDisagrees : String :=
  "ngram: posting rowids disagree with the row's rowid span; the index is malformed"
def countDisagrees : String :=
  "ngram: posting row count disagrees with its manifest; the index is malformed"
def duplicateRowids : String :=
  "ngram: refresh generations contain duplicate rowids; the index is malformed"
def rowidOutside : String :=
  "ngram: posting rowid lies outside its segment; the index is malformed"

def checkedAdd (target value : Nat) : Except String Nat :=
  if idxMax - target < value then .error overflow else .ok (target + value)

def checkedMultiply (left right : Nat) : Except String Nat :=
  if left ≠ 0 ∧ idxMax / left < right then .error overflow else .ok (left * right)

def segmentRows : Nat := 2 ^ segmentShift

def maxSegment (hwm : Int) : Int := if hwm < 0 then -1 else hwm / segmentRows

def appendRow (keyIndex : Nat) (key : Key) (hwm : Int) (rows : GramRows) (row : SegmentRow Key) :
    Except String GramRows := do
  if row.gramKey ≠ key ∨ row.segmentNo < 0 ∨ row.segmentNo > maxSegment hwm ∨ row.rowidCount ≤ 0 then
    .error invalidDescriptor
  if row.rowidCount > segmentRows then .error rowCountRange
  let segmentStart := row.segmentNo * segmentRows
  if row.minRowid < segmentStart ∨ row.maxRowid < row.minRowid ∨
      row.maxRowid ≥ segmentStart + segmentRows ∨ row.maxRowid > hwm then
    .error spanOutside
  if row.rowidCount > row.maxRowid - row.minRowid + 1 then .error postingCountRange
  let rowCount ← checkedAdd rows.rowCount row.rowidCount.toNat
  return {
    descriptors := rows.descriptors ++ [{
      segmentNo := row.segmentNo.toNat
      gramIndex := keyIndex
      postingRowid := row.postingRowid
      postingCount := row.rowidCount.toNat
      minRowid := row.minRowid.toNat
      maxRowid := row.maxRowid.toNat }]
    rowCount := rowCount }

/-- The chunks of one key's scans. None is the decline past maxRows. -/
def consumeChunks (keyIndex : Nat) (key : Key) (hwm : Int) (maxRows : Nat) :
    List (List (SegmentRow Key)) → Nat → GramRows → Except String (Option (Nat × GramRows))
  | [], total, rows => .ok (some (total, rows))
  | chunk :: rest, total, rows =>
      if total + chunk.length > maxRows then .ok none
      else do
        let rows ← chunk.foldlM (appendRow keyIndex key hwm) rows
        consumeChunks keyIndex key hwm maxRows rest (total + chunk.length) rows

/-- CollectGramRows with its units in key order. The chunks of a key are what
    the host's scans return for it. -/
def collectGramRows (chunks : Key → List (List (SegmentRow Key))) (hwm : Int) (maxRows : Nat) :
    Nat → List Key → Nat → Except String (Option (Nat × List GramRows))
  | _, [], total => .ok (some (total, []))
  | keyIndex, key :: keys, total => do
      match ← consumeChunks keyIndex key hwm maxRows (chunks key) total ⟨[], 0⟩ with
      | none => return none
      | some (total, rows) =>
          match ← collectGramRows chunks hwm maxRows (keyIndex + 1) keys total with
          | none => return none
          | some (total, others) => return some (total, rows :: others)

/-- Every chunk is counted before it is read, the first one past maxRows too. -/
def rowsCounted (maxRows : Nat) : List Nat → Nat → Nat
  | [], total => total
  | size :: rest, total =>
      if total + size > maxRows then total + size else rowsCounted maxRows rest (total + size)

def ProbeDescriptor.place (d : ProbeDescriptor) : Nat ×ₗ (Nat ×ₗ Nat) :=
  toLex (d.segmentNo, toLex (d.gramIndex, d.postingRowid))

def sortManifest (descriptors : List ProbeDescriptor) : List ProbeDescriptor :=
  descriptors.insertionSort fun a b => a.place ≤ b.place

def rarestFirst (counts : List Nat) : List Nat :=
  (List.range counts.length).insertionSort fun a b => counts.getD a 0 ≤ counts.getD b 0

def selectRarestGrams (keys : List Key) (perKey : List GramRows) (maxGrams : Nat) :
    List Key × List ProbeDescriptor :=
  let order := (rarestFirst (perKey.map GramRows.rowCount)).take maxGrams
  let manifest := order.zipIdx.flatMap fun entry =>
    (perKey.getD entry.1 ⟨[], 0⟩).descriptors.map fun d => { d with gramIndex := entry.2 }
  (order.filterMap fun index => keys[index]?, sortManifest manifest)

def rowBytes : Nat := 8
def fetchScratchBytes : Nat := 256 * 1024

/-- The peak rows of one intersection step after another. -/
def stepPeaks (segmentCapacity : Nat) : Nat → Nat → List Nat → Except String Nat
  | _, peak, [] => .ok peak
  | currentBound, peak, count :: rest => do
      let resultBound := min currentBound (min segmentCapacity count)
      let stepPeak ← checkedAdd currentBound count
      let stepPeak ← checkedAdd stepPeak resultBound
      stepPeaks segmentCapacity resultBound (max peak stepPeak) rest

def segmentWorkerBytes (counts : List Nat) (segmentCapacity : Nat) : Except String Nat := do
  let first := counts.headD 0
  let peakRows ← stepPeaks segmentCapacity (min segmentCapacity first) first counts.tail
  let peakBytes ← checkedMultiply peakRows rowBytes
  checkedAdd peakBytes fetchScratchBytes

structure GramSpan where
  count : Nat
  low : Nat
  high : Nat
  deriving DecidableEq, Repr

def gramSpan (run : List ProbeDescriptor) : Except String GramSpan := do
  let count ← run.foldlM (fun count d => checkedAdd count d.postingCount) 0
  return {
    count := count
    low := (run.map ProbeDescriptor.minRowid).foldl min ((run.map ProbeDescriptor.minRowid).headD 0)
    high := (run.map ProbeDescriptor.maxRowid).foldl max 0 }

structure Admission where
  segments : List ProbeSegment
  estimatedDecodedRowids : Nat
  candidateUpperBound : Nat
  admissionRows : Nat
  peakWorkerBytes : Nat
  peakCandidateBytes : Nat
  declineReason : String
  deriving DecidableEq, Repr

def rangeRowsPerFetch : Nat := 4

def chargeSegment (hardWorkLimit segmentCapacity spanRows : Nat) (counts : List Nat)
    (a : Admission) : Except String Admission := do
  let estimated ← counts.foldlM checkedAdd a.estimatedDecodedRowids
  if hardWorkLimit < estimated then
    return { a with
      estimatedDecodedRowids := estimated
      declineReason := "decoded-rowid work budget exceeded" }
  else
    let vectorBound := counts.foldl min segmentCapacity
    let candidateBound := min vectorBound spanRows
    let upper ← checkedAdd a.candidateUpperBound candidateBound
    let rangeEquivalent := (spanRows + rangeRowsPerFetch - 1) / rangeRowsPerFetch
    let admissionRows ← checkedAdd a.admissionRows (min candidateBound rangeEquivalent)
    let workerBytes ← segmentWorkerBytes counts segmentCapacity
    return { a with
      estimatedDecodedRowids := estimated
      candidateUpperBound := upper
      admissionRows := admissionRows
      peakWorkerBytes := max a.peakWorkerBytes workerBytes
      peakCandidateBytes := max a.peakCandidateBytes (vectorBound * rowBytes) }

/-- One segment of the manifest. It is left out when it lacks a selected gram
    or when the grams' spans share no row. -/
def admitSegment (keyCount : Nat) (hwm : Int) (hardWorkLimit : Nat) (a : Admission)
    (group : List ProbeDescriptor) : Except String Admission := do
  let spans ← (runsBy (fun d e => decide (d.gramIndex = e.gramIndex)) group).mapM gramSpan
  let counts := spans.map GramSpan.count
  let segmentNo := (group.map ProbeDescriptor.segmentNo).headD 0
  let segmentStart := segmentNo * segmentRows
  let segmentCapacity := min segmentRows (hwm.toNat - segmentStart + 1)
  if ∃ count ∈ counts, segmentCapacity < count then .error postingCountRange
  if counts.length ≠ keyCount then return a
  else
    let spanLow := (spans.map GramSpan.low).foldl max 0
    let spanHigh := (spans.map GramSpan.high).foldl min ((spans.map GramSpan.high).headD 0)
    if spanHigh < spanLow then return a
    else
      let admitted := { a with
        segments := a.segments ++ [⟨segmentNo, group, rarestFirst counts⟩] }
      if admitted.declineReason ≠ "" then return admitted
      else chargeSegment hardWorkLimit segmentCapacity (spanHigh - spanLow + 1) counts admitted

def admitSegments (keyCount : Nat) (hwm : Int) (hardWorkLimit : Nat)
    (descriptors : List ProbeDescriptor) : Except String Admission :=
  (runsBy (fun d e => decide (d.segmentNo = e.segmentNo)) descriptors).foldlM
    (admitSegment keyCount hwm hardWorkLimit) ⟨[], 0, 0, 0, 0, 0, ""⟩

def preflightFixedBytes : Nat := 4096
def preflightBytesPerKey : Nat := 256
def preflightBytesPerWorker : Nat := 256 * 1024
def manifestBytesPerRow : Nat := 48 + 48 + 8
def fetchBatchRows : Nat := 256

def preflightProbeBytes (keyCount workers : Nat) : Except String Nat := do
  let perKeyBytes ← checkedMultiply keyCount preflightBytesPerKey
  let workerBytes ← checkedMultiply workers preflightBytesPerWorker
  let bytes ← checkedAdd preflightFixedBytes perKeyBytes
  checkedAdd bytes workerBytes

/-- What the planner reads from the session. The candidate fraction is a
    comparison of doubles, kept as a test on the two row counts. -/
structure ProbeSettings where
  memoryBudget : Nat
  threads : Nat
  workerCap : Nat
  extraColumns : Nat
  maxProbeRowids : Nat
  exceedsFraction : Nat → Nat → Bool

structure ProbePlan (Key : Type) where
  hwm : Int
  keys : List Key
  descriptors : List ProbeDescriptor
  segments : List ProbeSegment
  candidateUpperBound : Nat
  admissionRows : Nat
  manifestRowsScanned : Nat
  maxThreads : Nat
  workspaceBytes : Nat
  admitted : Bool
  declineReason : String
  deriving DecidableEq, Repr

def emptyPlan (hwm : Int) : ProbePlan Key := ⟨hwm, [], [], [], 0, 0, 0, 0, 0, false, ""⟩

def chargeWorkers (settings : ProbeSettings) (availableBytes : Nat) (a : Admission)
    (plan : ProbePlan Key) : Except String (ProbePlan Key) := do
  let perWorkerBytes ← checkedAdd a.peakWorkerBytes a.peakCandidateBytes
  let possibleWorkers := (availableBytes + 2 * a.peakCandidateBytes) / perWorkerBytes
  let fetchUnits := max plan.segments.length
    ((a.candidateUpperBound + fetchBatchRows - 1) / fetchBatchRows)
  let maxThreads := min fetchUnits (min settings.workerCap (min settings.threads possibleWorkers))
  if maxThreads ≤ 1 then
    return { plan with maxThreads := 1, workspaceBytes := a.peakWorkerBytes, admitted := true }
  else
    let workspaceBytes ← checkedMultiply a.peakWorkerBytes maxThreads
    let aliveBytes ← checkedMultiply a.peakCandidateBytes (maxThreads - 2)
    let workspaceBytes ← checkedAdd workspaceBytes aliveBytes
    return { plan with
      maxThreads := maxThreads, workspaceBytes := workspaceBytes, admitted := true }

/-- The gates after the manifest is read and the rarest keys are selected. -/
def admitManifest (settings : ProbeSettings) (reservedBytes : Nat) (plan : ProbePlan Key) :
    Except String (ProbePlan Key) := do
  let a ← admitSegments plan.keys.length plan.hwm settings.maxProbeRowids plan.descriptors
  let plan := { plan with
    segments := a.segments
    candidateUpperBound := a.candidateUpperBound
    admissionRows := a.admissionRows
    declineReason := a.declineReason }
  if a.declineReason ≠ "" then return plan
  else
    if idxMax / rowBytes < a.estimatedDecodedRowids then .error overflow
    let projectionWeight ← checkedAdd 1 settings.extraColumns
    let admissionRows ← checkedMultiply a.admissionRows projectionWeight
    let plan := { plan with admissionRows := admissionRows }
    let indexedRows := if plan.hwm < 0 then 0 else plan.hwm.toNat + 1
    if settings.exceedsFraction admissionRows indexedRows then
      return { plan with declineReason := "candidate fraction exceeded" }
    else if plan.segments = [] then return { plan with admitted := true }
    else if settings.memoryBudget - reservedBytes < a.peakWorkerBytes then
      return { plan with declineReason := "one posting segment exceeds query memory budget" }
    else chargeWorkers settings (settings.memoryBudget - reservedBytes) a plan

def planIndexProbe (settings : ProbeSettings) (chunks : Key → List (List (SegmentRow Key)))
    (keys : List Key) (maxGrams : Nat) (hwm : Int) : Except String (ProbePlan Key) := do
  let keyBytes ← preflightProbeBytes keys.length 0
  if settings.memoryBudget < keyBytes + preflightBytesPerWorker then
    return { emptyPlan hwm with declineReason := "query grams exceed query memory budget" }
  else
    let workers := min (min settings.threads keys.length)
      ((settings.memoryBudget - keyBytes) / preflightBytesPerWorker)
    let preflightBytes ← preflightProbeBytes keys.length workers
    let maxManifestRows := (settings.memoryBudget - preflightBytes) / manifestBytesPerRow
    match ← collectGramRows chunks hwm maxManifestRows 0 keys 0 with
    | none =>
        return { emptyPlan hwm with
          manifestRowsScanned := rowsCounted maxManifestRows ((keys.flatMap chunks).map List.length) 0
          declineReason := "segment manifest exceeds query memory budget" }
    | some (scanned, perKey) =>
        let (selected, descriptors) := selectRarestGrams keys perKey maxGrams
        let manifestBytes := descriptors.length * manifestBytesPerRow
        admitManifest settings (preflightBytes + manifestBytes) { (emptyPlan hwm : ProbePlan Key) with
          keys := selected
          descriptors := descriptors
          manifestRowsScanned := scanned }

/-- A rowid vector with the capacity its last reserve asked for. -/
structure Buffer where
  rows : List Nat
  capacity : Nat
  deriving DecidableEq, Repr

def reserveExactly (rows : Nat) : Buffer := ⟨[], rows⟩

structure DecodeBuffers where
  candidates : Buffer
  postings : Buffer
  intersection : Buffer
  deriving DecidableEq, Repr

def DecodeBuffers.rows (b : DecodeBuffers) : Nat :=
  b.candidates.capacity + b.postings.capacity + b.intersection.capacity

def vectorBatches {α : Type} : List α → List (List α)
  | [] => []
  | a :: rest =>
      (a :: rest.take (standardVectorSize - 1)) :: vectorBatches (rest.drop (standardVectorSize - 1))
termination_by l => l.length

theorem vectorBatches_flatten {α : Type} (l : List α) : (vectorBatches l).flatten = l := by
  induction l using vectorBatches.induct with
  | case1 => simp [vectorBatches]
  | case2 a rest ih => rw [vectorBatches, List.flatten_cons, ih, List.cons_append, List.take_append_drop]

/-- One fetched posting row: checked against its manifest entry, decoded and
    appended. -/
def appendPostings (plan : ProbePlan Key) (segmentNo gramIndex expected : Nat) (postings : List Nat)
    (entry : ProbeDescriptor × SegmentRow Key) : Except String (List Nat) := do
  let (d, row) := entry
  let encodedCount ← postingsCount row.postings
  if plan.keys[gramIndex]? ≠ some row.gramKey ∨ row.segmentNo ≠ segmentNo ∨ row.rowidCount ≤ 0 ∨
      row.rowidCount.toNat ≠ d.postingCount ∨ encodedCount ≠ d.postingCount ∨
      expected - postings.length < encodedCount then
    .error rowDisagrees
  let decoded ← decodePostings row.postings
  if decoded.head? ≠ some d.minRowid ∨ decoded.getLast? ≠ some d.maxRowid then .error spanDisagrees
  return postings ++ decoded

def fetchRows (fetch : Nat → Option (SegmentRow Key)) (batch : List ProbeDescriptor) :
    Except String (List (ProbeDescriptor × SegmentRow Key)) :=
  batch.mapM fun d =>
    match fetch d.postingRowid with
    | none => .error rowVanished
    | some row => .ok (d, row)

def decodeDescriptorRange (plan : ProbePlan Key) (fetch : Nat → Option (SegmentRow Key))
    (segment : ProbeSegment) (gramIndex : Nat) : Except String (List Nat) := do
  let range := (segment.descriptors.dropWhile fun d => decide (d.gramIndex ≠ gramIndex)).takeWhile
    fun d => decide (d.gramIndex = gramIndex)
  let expected ← range.foldlM (fun expected d => checkedAdd expected d.postingCount) 0
  if range = [] then .error missingGram
  let postings ← (vectorBatches range).foldlM (fun postings batch => do
    let rows ← fetchRows fetch batch
    rows.foldlM (appendPostings plan segment.segmentNo gramIndex expected) postings) []
  if postings.length ≠ expected then .error countDisagrees
  let postings := if 1 < range.length then postings.insertionSort (· ≤ ·) else postings
  if 1 < range.length ∧ ¬ postings.IsChain (· ≠ ·) then .error duplicateRowids
  let segmentStart := segment.segmentNo * segmentRows
  if ∃ rowid ∈ postings, rowid < segmentStart ∨ segmentStart + segmentRows ≤ rowid ∨
      plan.hwm < (rowid : Int) then
    .error rowidOutside
  return postings

/-- The intersection steps over the remaining grams. Each step leaves its
    buffers at three points: the list decoded, the output reserved and filled,
    the superseded candidates released. -/
def intersectGrams (plan : ProbePlan Key) (fetch : Nat → Option (SegmentRow Key))
    (segment : ProbeSegment) : List Nat → DecodeBuffers → Except String (List DecodeBuffers)
  | [], b => .ok [b]
  | gramIndex :: rest, b =>
      if b.candidates.rows = [] then .ok [b]
      else do
        let postings ← decodeDescriptorRange plan fetch segment gramIndex
        let decoded := { b with postings := ⟨postings, postings.length⟩ }
        let met := intersect b.candidates.rows postings
        let filled := { decoded with
          intersection := ⟨met, min b.candidates.rows.length postings.length⟩ }
        let swapped := { filled with
          candidates := filled.intersection
          intersection := reserveExactly 0 }
        let later ← intersectGrams plan fetch segment rest swapped
        return b :: decoded :: filled :: later

def decodeTrace (plan : ProbePlan Key) (fetch : Nat → Option (SegmentRow Key))
    (segment : ProbeSegment) : Except String (List DecodeBuffers) :=
  match segment.gramOrder with
  | [] => .error missingGram
  | gramIndex :: rest => do
      let postings ← decodeDescriptorRange plan fetch segment gramIndex
      intersectGrams plan fetch segment rest
        ⟨⟨postings, postings.length⟩, reserveExactly 0, reserveExactly 0⟩

def decodeCandidateSegment (plan : ProbePlan Key) (fetch : Nat → Option (SegmentRow Key))
    (segment : ProbeSegment) : Except String (List Nat) := do
  let trace ← decodeTrace plan fetch segment
  return (trace.getLast?.map fun b => b.candidates.rows).getD []

end NgramProbe
