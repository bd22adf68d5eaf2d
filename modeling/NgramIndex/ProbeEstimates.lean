import Mathlib.Algebra.Order.BigOperators.Group.List
import NgramIndex.CandidateBatches
import NgramIndex.Metered
import NgramIndex.ProbeArithmetic

/- The estimates of an admission bound the work of its plan. The decode is run again
   with the counter of decoded rowids that it keeps, which an error does not take
   back, and each gram pays from the posting count that its manifest rows add up to. -/
namespace NgramProbeEstimates
open AscendingLists Fallible MeteredRun MeteredRun.Metered NgramPostings NgramPackSegment NgramProbe
open NgramProbeArithmetic NgramCandidateQueue
variable {Key : Type} [DecidableEq Key]

section metered
variable (plan : ProbePlan Key) (fetch : Nat → Option (SegmentRow Key)) (segment : ProbeSegment)

/-- The counter grows after a blob is decoded and before its span is checked. -/
def appendMetered (segmentNo gramIndex expected : Nat) (postings : List Nat)
    (entry : ProbeDescriptor × SegmentRow Key) : Metered String (List Nat) := do
  let (d, row) := entry
  let encodedCount ← lift (postingsCount row.postings)
  if plan.keys[gramIndex]? ≠ some row.gramKey ∨ row.segmentNo ≠ segmentNo ∨ row.rowidCount ≤ 0 ∨
      row.rowidCount.toNat ≠ d.postingCount ∨ encodedCount ≠ d.postingCount ∨
      expected - postings.length < encodedCount then
    raise rowDisagrees
  else
    let decoded ← lift (decodePostings row.postings)
    spend encodedCount
    if decoded.head? ≠ some d.minRowid ∨ decoded.getLast? ≠ some d.maxRowid then raise spanDisagrees
    else return postings ++ decoded

/-- The checks of a decoded range, none of which reads a blob. -/
def checkRange (range : List ProbeDescriptor) (expected : Nat) (postings : List Nat) : Except String (List Nat) := do
  if postings.length ≠ expected then .error countDisagrees
  let postings := if 1 < range.length then postings.insertionSort (· ≤ ·) else postings
  if 1 < range.length ∧ ¬ postings.IsChain (· ≠ ·) then .error duplicateRowids
  let segmentStart := segment.segmentNo * segmentRows
  if ∃ rowid ∈ postings, rowid < segmentStart ∨ segmentStart + segmentRows ≤ rowid ∨
      plan.hwm < (rowid : Int) then
    .error rowidOutside
  return postings

def batchMetered (gramIndex expected : Nat) (postings : List Nat) (batch : List ProbeDescriptor) :
    Metered String (List Nat) := do
  let rows ← lift (fetchRows fetch batch)
  rows.foldlM (appendMetered plan segment.segmentNo gramIndex expected) postings

def rangeMetered (gramIndex : Nat) : Metered String (List Nat) := do
  let range := (segment.descriptors.dropWhile fun d => decide (d.gramIndex ≠ gramIndex)).takeWhile
    fun d => decide (d.gramIndex = gramIndex)
  let expected ← lift (range.foldlM (fun expected d => checkedAdd expected d.postingCount) 0)
  if range = [] then raise missingGram
  else
    let postings ← (vectorBatches range).foldlM (batchMetered plan fetch segment gramIndex expected) []
    lift (checkRange plan segment range expected postings)

def intersectMetered : List Nat → List Nat → Metered String (List Nat)
  | [], candidates => pure candidates
  | gramIndex :: rest, candidates =>
      if candidates = [] then pure []
      else do
        let postings ← rangeMetered plan fetch segment gramIndex
        intersectMetered rest (intersect candidates postings)

def decodeMetered : Metered String (List Nat) :=
  match segment.gramOrder with
  | [] => raise missingGram
  | gramIndex :: rest => do
      let postings ← rangeMetered plan fetch segment gramIndex
      intersectMetered plan fetch segment rest postings

end metered

section erasure
variable {plan : ProbePlan Key} {fetch : Nat → Option (SegmentRow Key)} {segment : ProbeSegment}

theorem result_ite {c : Prop} [Decidable c] {α : Type} {left right : Metered String α} :
    (if c then left else right).result = if c then left.result else right.result := by
  split <;> rfl

theorem append_result (segmentNo gramIndex expected : Nat) (postings : List Nat)
    (entry : ProbeDescriptor × SegmentRow Key) :
    (appendMetered plan segmentNo gramIndex expected postings entry).result =
      appendPostings plan segmentNo gramIndex expected postings entry := by
  obtain ⟨d, row⟩ := entry
  unfold appendMetered appendPostings
  simp only [result_bind, result_lift]
  refine congrArg (Except.bind _) (funext fun encodedCount => ?_)
  rw [result_ite]
  refine if_congr Iff.rfl rfl ?_
  simp only [result_bind, result_lift]
  refine congrArg (Except.bind _) (funext fun decoded => ?_)
  exact result_ite

theorem batch_result (gramIndex expected : Nat) (postings : List Nat) (batch : List ProbeDescriptor) :
    (batchMetered plan fetch segment gramIndex expected postings batch).result = (do
      let rows ← fetchRows fetch batch
      rows.foldlM (appendPostings plan segment.segmentNo gramIndex expected) postings) := by
  unfold batchMetered
  rw [result_bind, result_lift]
  refine congrArg (Except.bind _) (funext fun rows => ?_)
  exact result_foldlM (append_result segment.segmentNo gramIndex expected) rows postings

theorem range_result (gramIndex : Nat) :
    (rangeMetered plan fetch segment gramIndex).result = decodeDescriptorRange plan fetch segment gramIndex := by
  unfold rangeMetered decodeDescriptorRange
  simp only [result_bind, result_lift]
  refine congrArg (Except.bind _) (funext fun expected => ?_)
  rw [result_ite]
  refine if_congr Iff.rfl rfl ?_
  rw [result_bind, result_foldlM (batch_result gramIndex expected)]
  exact congrArg (Except.bind _) (funext fun postings => rfl)

def published (trace : List DecodeBuffers) : List Nat := (trace.getLast?.map fun b => b.candidates.rows).getD []

theorem intersect_result (order : List Nat) (b : DecodeBuffers) :
    (intersectMetered plan fetch segment order b.candidates.rows).result =
      (intersectGrams plan fetch segment order b).map published := by
  induction order generalizing b with
  | nil => rfl
  | cons gramIndex rest ih =>
    unfold intersectMetered intersectGrams
    rw [result_ite]
    by_cases nothing : b.candidates.rows = []
    · rw [if_pos nothing, if_pos nothing]
      exact congrArg Except.ok nothing.symm
    · rw [if_neg nothing, if_neg nothing, result_bind, range_result]
      cases decodeDescriptorRange plan fetch segment gramIndex with
      | error e => rfl
      | ok postings =>
        let swapped : DecodeBuffers := ⟨⟨intersect b.candidates.rows postings,
          min b.candidates.rows.length postings.length⟩, ⟨postings, postings.length⟩, reserveExactly 0⟩
        refine (ih swapped).trans ?_
        change _ = Except.map published (intersectGrams plan fetch segment rest swapped >>= _)
        cases later : intersectGrams plan fetch segment rest swapped with
        | error e => rfl
        | ok trace =>
          obtain ⟨final, ends, _⟩ := intersectGrams_sublist later
          refine congrArg Except.ok ?_
          simp only [published, List.getLast?_cons, ends, Option.getD_some, Option.map_some]

theorem decode_result : (decodeMetered plan fetch segment).result = decodeCandidateSegment plan fetch segment := by
  unfold decodeMetered decodeCandidateSegment decodeTrace
  cases segment.gramOrder with
  | nil => rfl
  | cons gramIndex rest =>
    dsimp only
    rw [result_bind, range_result]
    cases decodeDescriptorRange plan fetch segment gramIndex with
    | error e => rfl
    | ok postings =>
      refine (intersect_result rest ⟨⟨postings, postings.length⟩, reserveExactly 0, reserveExactly 0⟩).trans ?_
      change _ = (intersectGrams plan fetch segment rest _ >>= _)
      cases intersectGrams plan fetch segment rest _ with
      | error e => rfl
      | ok trace => rfl

end erasure

section payments
variable {plan : ProbePlan Key} {fetch : Nat → Option (SegmentRow Key)} {segment : ProbeSegment}

theorem append_pays (segmentNo gramIndex expected : Nat) (postings : List Nat)
    (entry : ProbeDescriptor × SegmentRow Key) :
    Pays (expected - postings.length) (fun postings => expected - postings.length)
      (appendMetered plan segmentNo gramIndex expected postings entry) := by
  obtain ⟨d, row⟩ := entry
  unfold appendMetered
  refine pays_lift_bind fun encodedCount counted => ?_
  split
  · exact pays_raise _
  · rename_i agrees
    simp only [not_or, Nat.not_lt] at agrees
    obtain ⟨_, _, _, _, _, fits⟩ := agrees
    refine pays_lift_bind fun decoded read => ?_
    have same : encodedCount = decoded.length := ok_inj (counted.symm.trans (decodePostings_count read))
    refine pays_spend_bind fits ?_
    split
    · exact pays_raise _
    · refine pays_pure ?_
      rw [List.length_append, same]
      omega

theorem range_pays (sorted : (segment.descriptors.map ProbeDescriptor.gramIndex).Pairwise (· ≤ ·))
    (gramIndex : Nat) :
    Pays (gramCount segment.descriptors gramIndex) (fun _ => 0) (rangeMetered plan fetch segment gramIndex) := by
  unfold rangeMetered
  simp only [range_eq_gramAt gramIndex sorted]
  refine pays_lift_bind fun expected summed => ?_
  have total : expected = gramCount segment.descriptors gramIndex := by
    rw [sumCounts_ok summed, Nat.zero_add]
    rfl
  rw [← total]
  split
  · exact pays_raise _
  · have batch_pays (postings : List Nat) (batch : List ProbeDescriptor) :
        Pays (expected - postings.length) (fun postings => expected - postings.length)
          (batchMetered plan fetch segment gramIndex expected postings batch) := by
      refine pays_lift_bind fun rows _ => ?_
      exact pays_foldlM rows (fun postings entry _ => append_pays _ _ _ postings entry) postings
    have batches : Pays expected (fun postings => expected - postings.length)
        ((vectorBatches (gramAt segment.descriptors gramIndex)).foldlM
          (batchMetered plan fetch segment gramIndex expected) []) :=
      pays_foldlM _ (fun postings batch _ => batch_pays postings batch) []
    exact pays_bind batches fun postings _ => pays_lift fun _ _ => Nat.zero_le _

theorem intersect_pays (sorted : (segment.descriptors.map ProbeDescriptor.gramIndex).Pairwise (· ≤ ·))
    (order candidates : List Nat) : Pays (order.map (gramCount segment.descriptors)).sum (fun _ => 0)
      (intersectMetered plan fetch segment order candidates) := by
  induction order generalizing candidates with
  | nil => exact pays_pure (Nat.zero_le _)
  | cons gramIndex rest ih =>
    unfold intersectMetered
    rw [List.map_cons, List.sum_cons]
    split
    · exact pays_pure (Nat.zero_le _)
    · refine pays_bind (pays_frame (range_pays sorted gramIndex) _) fun postings _ => ?_
      rw [Nat.zero_add]
      exact ih (intersect candidates postings)

theorem decode_pays (sorted : (segment.descriptors.map ProbeDescriptor.gramIndex).Pairwise (· ≤ ·)) :
    Pays (segment.gramOrder.map (gramCount segment.descriptors)).sum (fun _ => 0)
      (decodeMetered plan fetch segment) := by
  unfold decodeMetered
  cases segment.gramOrder with
  | nil => exact pays_raise _
  | cons gramIndex rest =>
    rw [List.map_cons, List.sum_cons]
    refine pays_bind (pays_frame (range_pays sorted gramIndex) _) fun postings _ => ?_
    rw [Nat.zero_add]
    exact intersect_pays sorted rest postings

end payments

section candidates
variable {plan : ProbePlan Key} {fetch : Nat → Option (SegmentRow Key)} {segment : ProbeSegment}

/-- A decoded blob lies exactly within the span of its manifest entry. -/
theorem append_spans {segmentNo gramIndex expected : Nat} {postings grown : List Nat}
    {entry : ProbeDescriptor × SegmentRow Key}
    (run : appendPostings plan segmentNo gramIndex expected postings entry = .ok grown) :
    ∀ r ∈ grown, r ∈ postings ∨ entry.1.minRowid ≤ r ∧ r ≤ entry.1.maxRowid := by
  obtain ⟨count, _, run⟩ := bind_ok run
  obtain ⟨_, run⟩ := check_ok run
  obtain ⟨decoded, read, run⟩ := bind_ok run
  obtain ⟨spans, run⟩ := check_ok run
  obtain rfl := ok_inj run
  simp only [ne_eq, not_or, not_not] at spans
  obtain ⟨head, last⟩ := spans
  have ascending := decodePostings_ascending read
  intro r present
  refine (List.mem_append.mp present).imp id fun here => ?_
  have nonempty : decoded ≠ [] := List.ne_nil_of_mem here
  have top := ascending_le_getLast ascending nonempty r here
  rw [List.getLast?_eq_some_getLast nonempty, Option.some.injEq] at last
  obtain ⟨first, rest, rfl⟩ := List.exists_cons_of_ne_nil nonempty
  obtain rfl : first = entry.1.minRowid := by simpa using head
  exact ⟨ascending_head_le ascending r here, top.trans_eq last⟩

theorem rows_spans {segmentNo gramIndex expected : Nat} {before after : List Nat}
    {rows : List (ProbeDescriptor × SegmentRow Key)}
    (run : rows.foldlM (appendPostings plan segmentNo gramIndex expected) before = .ok after) :
    ∀ r ∈ after, r ∈ before ∨ ∃ entry ∈ rows, entry.1.minRowid ≤ r ∧ r ≤ entry.1.maxRowid := by
  induction rows generalizing before with
  | nil =>
    obtain rfl := ok_inj run
    exact fun r present => .inl present
  | cons entry rows ih =>
    obtain ⟨grown, first, rest⟩ := foldlM_cons_ok run
    intro r present
    rcases ih rest r present with early | ⟨other, listed, within⟩
    · exact (append_spans first r early).imp id fun within => ⟨entry, List.mem_cons_self, within⟩
    · exact .inr ⟨other, List.mem_cons_of_mem _ listed, within⟩

omit [DecidableEq Key] in
theorem fetched_entry {batch : List ProbeDescriptor} {rows : List (ProbeDescriptor × SegmentRow Key)}
    (fetched : fetchRows fetch batch = .ok rows) : ∀ entry ∈ rows, entry.1 ∈ batch := by
  intro entry listed
  obtain ⟨d, in_batch, one⟩ := mapM_ok_right fetched entry listed
  split at one
  · cases one
  · obtain rfl := ok_inj one
    exact in_batch

theorem range_spans {gramIndex : Nat} {postings : List Nat}
    (sorted : (segment.descriptors.map ProbeDescriptor.gramIndex).Pairwise (· ≤ ·))
    (run : decodeDescriptorRange plan fetch segment gramIndex = .ok postings) :
    ∀ r ∈ postings, ∃ d ∈ gramAt segment.descriptors gramIndex, d.minRowid ≤ r ∧ r ≤ d.maxRowid := by
  rw [decodeDescriptorRange, range_eq_gramAt gramIndex sorted] at run
  obtain ⟨expected, _, run⟩ := bind_ok run
  obtain ⟨_, run⟩ := check_ok run
  obtain ⟨decoded, read, run⟩ := bind_ok run
  obtain ⟨_, run⟩ := check_ok run
  obtain ⟨_, run⟩ := check_ok run
  obtain ⟨_, run⟩ := check_ok run
  have spans : ∀ r ∈ decoded, ∃ d ∈ gramAt segment.descriptors gramIndex, d.minRowid ≤ r ∧ r ≤ d.maxRowid := by
    rw [← vectorBatches_flatten (gramAt segment.descriptors gramIndex)]
    refine foldlM_prefix (fun done postings => ∀ r ∈ postings, ∃ d ∈ done.flatten, d.minRowid ≤ r ∧ r ≤ d.maxRowid)
      _ ?_ (fun _ listed => absurd listed List.not_mem_nil) read
    intro done batch before after held step r present
    obtain ⟨rows, fetched, step⟩ := bind_ok step
    rw [List.flatten_append, List.flatten_singleton]
    rcases rows_spans step r present with old | ⟨entry, listed, within⟩
    · obtain ⟨d, in_done, within⟩ := held r old
      exact ⟨d, List.mem_append_left _ in_done, within⟩
    · exact ⟨entry.1, List.mem_append_right _ (fetched_entry fetched entry listed), within⟩
  intro r present
  rw [← ok_inj run] at present
  refine spans r ?_
  split at present
  · exact (List.perm_insertionSort _ _).mem_iff.mp present
  · exact present

theorem intersect_members {order candidates rows : List Nat}
    (run : (intersectMetered plan fetch segment order candidates).result = .ok rows) : rows ⊆ candidates ∧
      (rows = [] ∨ ∀ g ∈ order, ∃ postings, decodeDescriptorRange plan fetch segment g = .ok postings ∧
        rows ⊆ postings) := by
  induction order generalizing candidates with
  | nil =>
    obtain rfl := ok_inj run
    exact ⟨List.Subset.refl _, .inr nofun⟩
  | cons gramIndex rest ih =>
    rw [intersectMetered, result_ite] at run
    rcases branch_ok run with ⟨_, run⟩ | ⟨_, run⟩
    · obtain rfl := ok_inj run
      exact ⟨List.nil_subset _, .inl rfl⟩
    · rw [result_bind, range_result] at run
      obtain ⟨postings, decoded, run⟩ := bind_ok run
      obtain ⟨inside, later⟩ := ih run
      refine ⟨fun r here => (intersect_sublist _ _).subset (inside here), later.imp id fun every => ?_⟩
      refine List.forall_mem_cons.mpr ⟨⟨postings, decoded, fun r here => ?_⟩, every⟩
      exact (intersect_sublist_right _ _).subset (inside here)

theorem decode_members {rows : List Nat} (run : decodeCandidateSegment plan fetch segment = .ok rows) :
    rows = [] ∨ ∀ g ∈ segment.gramOrder, ∃ postings, decodeDescriptorRange plan fetch segment g = .ok postings ∧
      rows ⊆ postings := by
  rw [← decode_result, decodeMetered] at run
  cases order : segment.gramOrder with
  | nil => exact .inr nofun
  | cons gramIndex rest =>
    simp only [order, result_bind, range_result] at run
    obtain ⟨postings, decoded, run⟩ := bind_ok run
    obtain ⟨inside, later⟩ := intersect_members run
    exact later.imp id fun every => List.forall_mem_cons.mpr ⟨⟨postings, decoded, inside⟩, every⟩

def candidateBound (hwm : Int) (group : List ProbeDescriptor) : Nat :=
  min ((countsOf group).foldl min (segmentCapacity hwm (segmentOf group).segmentNo))
    (spanHigh group - spanLow group + 1)

omit [DecidableEq Key] in
theorem gram_order {group : List ProbeDescriptor} {keyCount : Nat} (full : (spansOf group).length = keyCount) :
    (segmentOf group).gramOrder.Perm (List.range keyCount) := by
  have perm := rarestFirst_perm ((spansOf group).map GramSpan.count)
  rwa [List.length_map, full] at perm

theorem candidates_bounded {group : List ProbeDescriptor} {keyCount : Nat} {hwm : Int} {rows : List Nat}
    (sorted : (group.map ProbeDescriptor.gramIndex).Pairwise (· ≤ ·)) (nonempty : group ≠ [])
    (inside : ∀ d ∈ group, d.gramIndex < keyCount) (full : (spansOf group).length = keyCount)
    (capped : ∀ count ∈ countsOf group, count ≤ segmentCapacity hwm (segmentOf group).segmentNo)
    (run : decodeCandidateSegment plan fetch (segmentOf group) = .ok rows) :
    rows.length ≤ candidateBound hwm group := by
  rcases decode_members run with rfl | every
  · exact Nat.zero_le _
  have distinct := ascending_nodup (decodeCandidateSegment_located run).ascending
  have each (g : Nat) (bound : g < keyCount) : ∃ postings,
      decodeDescriptorRange plan fetch (segmentOf group) g = .ok postings ∧ rows ⊆ postings :=
    every g ((gram_order full).mem_iff.mpr (List.mem_range.mpr bound))
  have counts : ∀ count ∈ countsOf group, rows.length ≤ count := by
    intro count listed
    rw [countsOf_eq sorted inside full] at listed
    obtain ⟨g, bound, rfl⟩ := List.mem_map.mp listed
    obtain ⟨postings, decoded, within⟩ := each g (List.mem_range.mp bound)
    have counted : postings.length = gramCount group g := decodeDescriptorRange_length sorted decoded
    rw [← counted]
    exact (List.subperm_of_subset distinct within).length_le
  refine Nat.le_min.mpr ⟨le_foldl_min ?_ counts, ?_⟩
  · obtain ⟨count, listed⟩ := List.exists_mem_of_ne_nil (countsOf group) (by
      simpa [countsOf] using spans_ne_nil nonempty)
    exact (counts count listed).trans (capped count listed)
  · refine @window_length rows (spanLow group) _ distinct fun r here => ?_
    have held := @spans_hold _ r sorted nonempty fun d in_group => by
      obtain ⟨postings, decoded, within⟩ := each d.gramIndex (inside d in_group)
      exact range_spans sorted decoded r (within here)
    exact ⟨held.1, by omega⟩

end candidates

section sums
variable {keyCount limit : Nat} {hwm : Int} {a b : Admission} {group : List ProbeDescriptor}

theorem charge_estimates {capacity spanRows : Nat} {counts : List Nat}
    (run : chargeSegment limit capacity spanRows counts a = .ok b) (fits : b.declineReason = "") :
    b.declineReason = a.declineReason ∧
      b.estimatedDecodedRowids = a.estimatedDecodedRowids + counts.sum ∧ b.estimatedDecodedRowids ≤ limit ∧
      b.candidateUpperBound = a.candidateUpperBound + min (counts.foldl min capacity) spanRows := by
  obtain ⟨estimated, summed, run⟩ := bind_ok run
  have total := sums_ok summed
  rcases branch_ok run with ⟨_, run⟩ | ⟨within, run⟩
  · rw [← ok_inj run] at fits
    simp at fits
  · obtain ⟨upper, added, run⟩ := bind_ok run
    obtain ⟨rows, _, run⟩ := bind_ok run
    obtain ⟨bytes, _, run⟩ := bind_ok run
    rw [← ok_inj run]
    exact ⟨rfl, total, Nat.le_of_not_lt within, checkedAdd_ok added⟩

theorem segment_estimates (run : admitSegment keyCount hwm limit a group = .ok b) (fits : b.declineReason = "") :
    a.declineReason = "" ∧
      ((admits keyCount group = false ∧ b.estimatedDecodedRowids = a.estimatedDecodedRowids ∧
        b.candidateUpperBound = a.candidateUpperBound) ∨
      admits keyCount group = true ∧
        b.estimatedDecodedRowids = a.estimatedDecodedRowids + (countsOf group).sum ∧
        b.estimatedDecodedRowids ≤ limit ∧
        b.candidateUpperBound = a.candidateUpperBound + candidateBound hwm group) := by
  obtain ⟨spans, spanned, run⟩ := bind_ok run
  obtain rfl := spans_ok spanned
  obtain ⟨_, run⟩ := check_ok run
  simp only [List.length_map] at run
  rcases branch_ok run with ⟨lacks, run⟩ | ⟨holds, run⟩
  · obtain rfl := ok_inj run
    exact ⟨fits, .inl ⟨by simp [admits, lacks], rfl, rfl⟩⟩
  rcases branch_ok run with ⟨apart, run⟩ | ⟨meets, run⟩
  · obtain rfl := ok_inj run
    have none_shared : ¬ spanLow group ≤ spanHigh group := Nat.not_le.mpr apart
    exact ⟨fits, .inl ⟨by simp [admits, none_shared], rfl, rfl⟩⟩
  rcases branch_ok run with ⟨declined, run⟩ | ⟨_, run⟩
  · obtain rfl := ok_inj run
    exact absurd fits declined
  · obtain ⟨same, estimated, within, upper⟩ := charge_estimates run fits
    have shared : spanLow group ≤ spanHigh group := Nat.le_of_not_lt meets
    have admitted : admits keyCount group = true := by simp [admits, not_not.mp holds, shared]
    exact ⟨same.symm.trans fits, .inr ⟨admitted, estimated, within, upper⟩⟩

structure Estimated (keyCount limit : Nat) (hwm : Int) (done : List (List ProbeDescriptor)) (a : Admission) :
    Prop where
  rowids : a.estimatedDecodedRowids = ((done.filter (admits keyCount)).map fun group => (countsOf group).sum).sum
  candidates : a.candidateUpperBound = ((done.filter (admits keyCount)).map (candidateBound hwm)).sum
  limited : a.estimatedDecodedRowids ≤ limit

theorem admission_estimated {descriptors : List ProbeDescriptor}
    (run : admitSegments keyCount hwm limit descriptors = .ok a) (fits : a.declineReason = "") :
    Estimated keyCount limit hwm (runsBy (fun d e => decide (d.segmentNo = e.segmentNo)) descriptors) a := by
  refine foldlM_prefix (fun done a => a.declineReason = "" → Estimated keyCount limit hwm done a) _ ?_ ?_ run fits
  · intro done group a b held step fits
    obtain ⟨before, change⟩ := segment_estimates step fits
    obtain ⟨rowids, candidates, limited⟩ := held before
    rcases change with ⟨left_out, estimated, upper⟩ | ⟨admitted, estimated, within, upper⟩
    · refine ⟨?_, ?_, estimated ▸ limited⟩
      · simp [List.filter_append, left_out, estimated, rowids]
      · simp [List.filter_append, left_out, upper, candidates]
    · refine ⟨?_, ?_, within⟩
      · simp [List.filter_append, admitted, estimated, rowids]
      · simp [List.filter_append, admitted, upper, candidates]
  · intro _
    exact ⟨rfl, rfl, Nat.zero_le _⟩

/-- Every group is checked against its segment, declined or not. -/
theorem admission_capped {descriptors : List ProbeDescriptor}
    (run : admitSegments keyCount hwm limit descriptors = .ok a) :
    ∀ group ∈ runsBy (fun d e => decide (d.segmentNo = e.segmentNo)) descriptors, ∀ count ∈ countsOf group,
      count ≤ segmentCapacity hwm (segmentOf group).segmentNo := by
  refine foldlM_prefix (fun done _ => ∀ group ∈ done, ∀ count ∈ countsOf group,
    count ≤ segmentCapacity hwm (segmentOf group).segmentNo) _ ?_ nofun run
  intro done group a b held step g listed
  rcases List.mem_append.mp listed with old | new
  · exact held g old
  · obtain rfl := List.mem_singleton.mp new
    exact admitSegment_capped step

end sums

section planned
variable {settings : ProbeSettings} {chunks : Key → List (List (SegmentRow Key))} {keys : List Key} {maxGrams : Nat}
  {hwm : Int} {plan : ProbePlan Key} {fetch : Nat → Option (SegmentRow Key)}

theorem planned_admission (planned : planIndexProbe settings chunks keys maxGrams hwm = .ok plan)
    (admitted : plan.admitted = true) : plan.descriptors = sortManifest (manifestOf chunks 0 plan.keys) ∧ ∃ a,
      admitSegments plan.keys.length hwm settings.maxProbeRowids plan.descriptors = .ok a ∧
      a.declineReason = "" ∧ plan.segments = a.segments ∧ plan.candidateUpperBound = a.candidateUpperBound := by
  obtain ⟨reserved, manifest, gates, undecided, rfl, descriptors, _⟩ := planIndexProbe_manifest planned admitted
  obtain ⟨a, admission, fits, gated, _, keys_eq, descriptors_eq, segments, upper, outcome⟩ :=
    admitManifest_admitted gates undecided admitted
  have fields : plan.keys = gated.keys ∧ plan.segments = gated.segments ∧ plan.descriptors = gated.descriptors ∧
      plan.candidateUpperBound = gated.candidateUpperBound := by
    rcases outcome with ⟨_, rfl⟩ | charged
    · exact ⟨rfl, rfl, rfl, rfl⟩
    · exact (chargeWorkers_fields charged).2
  obtain ⟨same_keys, same_segments, same_descriptors, same_upper⟩ := fields
  rw [same_keys, keys_eq, same_descriptors, descriptors_eq]
  exact ⟨descriptors, a, admission, fits, same_segments.trans segments, same_upper.trans upper⟩

/-- What each group of a planned manifest is, whether it is admitted or not. -/
structure PlannedGroup (keyCount : Nat) (hwm : Int) (group : List ProbeDescriptor) : Prop where
  sorted : (group.map ProbeDescriptor.gramIndex).Pairwise (· ≤ ·)
  nonempty : group ≠ []
  inside : ∀ d ∈ group, d.gramIndex < keyCount
  capped : ∀ count ∈ countsOf group, count ≤ segmentCapacity hwm (segmentOf group).segmentNo

omit [DecidableEq Key] in
theorem planned_groups {limit : Nat} {a : Admission}
    (admission : admitSegments keys.length hwm limit (sortManifest (manifestOf chunks 0 keys)) = .ok a) :
    ∀ group ∈ runsBy (fun d e => decide (d.segmentNo = e.segmentNo)) (sortManifest (manifestOf chunks 0 keys)),
      PlannedGroup keys.length hwm group := by
  intro group listed
  have capped := admission_capped admission group listed
  have nonempty := runsBy_ne_nil _ group listed
  have sorted := sortManifest_sorted (manifestOf chunks 0 keys)
  rw [groups_eq sorted] at listed
  obtain ⟨segmentNo, _, rfl⟩ := List.mem_map.mp listed
  refine ⟨group_grams_sorted sorted segmentNo, nonempty, fun d in_group => ?_, capped⟩
  exact manifest_grams (List.mem_filter.mp in_group).1

omit [DecidableEq Key] in
theorem admits_full {keyCount : Nat} {group : List ProbeDescriptor} (admitted : admits keyCount group = true) :
    (spansOf group).length = keyCount := by
  simp only [admits, Bool.and_eq_true, decide_eq_true_eq] at admitted
  exact admitted.1

theorem group_work {keyCount : Nat} {group : List ProbeDescriptor} (facts : PlannedGroup keyCount hwm group)
    (admitted : admits keyCount group = true) :
    (decodeMetered plan fetch (segmentOf group)).spent ≤ (countsOf group).sum := by
  have full := admits_full admitted
  have paid : Pays ((segmentOf group).gramOrder.map (gramCount group)).sum (fun _ => 0)
      (decodeMetered plan fetch (segmentOf group)) :=
    @decode_pays _ _ plan fetch (segmentOf group) facts.sorted
  rw [countsOf_eq facts.sorted facts.inside full, ← ((gram_order full).map (gramCount group)).sum_eq]
  exact paid.spent

/-- The rows of a decode, and none of one that raises. -/
def producedRows : Except String (List Nat) → Nat
  | .ok rows => rows.length
  | .error _ => 0

theorem produced_flatten {f : ProbeSegment → Except String (List Nat)} {segments : List ProbeSegment}
    {lists : List (List Nat)} (run : segments.mapM f = .ok lists) :
    lists.flatten.length = (segments.map fun segment => producedRows (f segment)).sum := by
  have each := mapM_ok run
  clear run
  induction each with
  | nil => rfl
  | cons one _ ih => rw [List.flatten_cons, List.length_append, ih, List.map_cons, List.sum_cons, one, producedRows]

theorem group_candidates {keyCount : Nat} {group : List ProbeDescriptor} (facts : PlannedGroup keyCount hwm group)
    (admitted : admits keyCount group = true) :
    producedRows (decodeCandidateSegment plan fetch (segmentOf group)) ≤ candidateBound hwm group := by
  cases run : decodeCandidateSegment plan fetch (segmentOf group) with
  | error e => exact Nat.zero_le _
  | ok rows =>
    exact candidates_bounded facts.sorted facts.nonempty facts.inside (admits_full admitted) facts.capped run

theorem sum_of_subperm {α : Type} {part whole : List α} (sub : part.Subperm whole) (f : α → Nat) :
    (part.map f).sum ≤ (whole.map f).sum := by
  obtain ⟨same, perm, sublist⟩ := sub
  rw [← (perm.map f).sum_eq]
  exact (sublist.map f).sum_le_sum fun _ _ => Nat.zero_le _

end planned

section corruption
variable {hwm : Int} {descriptors : List ProbeDescriptor}

/-- The rowids that a segment can hold at or below the mark. -/
def heldRowids (hwm : Int) (segmentNo : Nat) : List Nat :=
  (List.range' (segmentNo * segmentRows) segmentRows).filter fun r => decide ((r : Int) ≤ hwm)

theorem range_below_length (mark start count : Nat) :
    ((List.range' start count).filter fun r : Nat => decide ((r : Int) ≤ mark)).length = min count (mark + 1 - start) := by
  induction count generalizing start with
  | zero => simp
  | succ count ih =>
    rw [List.range'_succ, List.filter_cons]
    split
    · rename_i below
      have inside : (start : Int) ≤ mark := of_decide_eq_true below
      rw [List.length_cons, ih]
      omega
    · rename_i past
      have outside : ¬ (start : Int) ≤ mark := by simpa using past
      rw [ih]
      omega

theorem heldRowids_length (mark : 0 ≤ hwm) {segmentNo : Nat} (below : segmentNo * segmentRows ≤ hwm.toNat) :
    (heldRowids hwm segmentNo).length = segmentCapacity hwm segmentNo := by
  obtain ⟨top, rfl⟩ := Int.eq_ofNat_of_zero_le mark
  rw [heldRowids, range_below_length, segmentCapacity]
  simp only [Int.toNat_natCast] at below ⊢
  omega

theorem overfull_raises (keyCount limit : Nat) (sorted : descriptors.Pairwise fun a b => a.place ≤ b.place)
    (checked : ∀ d ∈ descriptors, 0 ≤ hwm ∧ d.segmentNo * segmentRows ≤ hwm.toNat) {segmentNo gramIndex : Nat}
    (overfull : (heldRowids hwm segmentNo).length < gramCount (groupAt descriptors segmentNo) gramIndex) :
    ∃ e, admitSegments keyCount hwm limit descriptors = .error e := by
  cases run : admitSegments keyCount hwm limit descriptors with
  | error e => exact ⟨e, rfl⟩
  | ok a =>
    have some_row : gramAt (groupAt descriptors segmentNo) gramIndex ≠ [] := by
      intro empty
      simp [gramCount, empty] at overfull
    obtain ⟨d, in_gram⟩ := List.exists_mem_of_ne_nil _ some_row
    obtain ⟨in_group, at_gram⟩ := List.mem_filter.mp in_gram
    obtain ⟨listed, at_segment⟩ := List.mem_filter.mp in_group
    have same : d.segmentNo = segmentNo := of_decide_eq_true at_segment
    have group_listed : groupAt descriptors segmentNo ∈
        runsBy (fun d e => decide (d.segmentNo = e.segmentNo)) descriptors := by
      rw [groups_eq sorted]
      exact List.mem_map_of_mem (mem_unique.mpr (List.mem_map.mpr ⟨d, listed, same⟩))
    have counted : gramCount (groupAt descriptors segmentNo) gramIndex ∈ countsOf (groupAt descriptors segmentNo) := by
      rw [countsOf, spansOf, grams_eq (group_grams_sorted sorted segmentNo), List.map_map, List.map_map]
      refine List.mem_map.mpr ⟨gramIndex, mem_unique.mpr ?_, rfl⟩
      exact List.mem_map.mpr ⟨d, in_group, of_decide_eq_true at_gram⟩
    have capped := admission_capped run _ group_listed _ counted
    rw [segmentOf_no (List.ne_nil_of_mem in_group)] at capped
    obtain ⟨mark, below⟩ := checked d listed
    rw [heldRowids_length mark (same ▸ below)] at overfull
    exact absurd capped (Nat.not_le.mpr overfull)

theorem collected_manifest {chunks : Key → List (List (SegmentRow Key))} {keys : List Key} {maxRows scanned : Nat}
    {perKey : List GramRows} (maxGrams : Nat)
    (collected : collectGramRows chunks hwm maxRows 0 keys 0 = .ok (some (scanned, perKey))) :
    (selectRarestGrams keys perKey maxGrams).2.Pairwise (fun a b => a.place ≤ b.place) ∧
      ∀ d ∈ (selectRarestGrams keys perKey maxGrams).2, 0 ≤ hwm ∧ d.segmentNo * segmentRows ≤ hwm.toNat := by
  obtain ⟨_, selected, _, manifest⟩ := selectRarestGrams_spec maxGrams (collectGramRows_descriptors collected)
  rw [manifest]
  refine ⟨sortManifest_sorted _, fun d listed => ?_⟩
  obtain ⟨entry, in_keys, described⟩ :=
    List.mem_flatMap.mp ((List.perm_insertionSort _ _).mem_iff.mp listed)
  obtain ⟨row, in_scan, rfl⟩ := List.mem_map.mp described
  have wanted := selected entry.1 (List.fst_mem_of_mem_zipIdx in_keys)
  have marked : ∀ key ∈ keys, ∀ row ∈ (chunks key).flatten, 0 ≤ hwm ∧ RowChecked hwm row :=
    collected_each (fun _ _ _ _ _ run => ⟨row_mark run, row_checked run⟩) collected
  obtain ⟨mark, inside, _⟩ := marked entry.1 wanted row in_scan
  exact ⟨mark, inside⟩

end corruption

/-- The estimates of an admitted plan bound what its decodes count, produce and publish,
    whatever the table holds, and a truthful table decodes. A gram that is over its
    segment raises under every limit. -/
theorem admission_estimates_bound_work :
    (∀ (settings : ProbeSettings) (chunks : Key → List (List (SegmentRow Key))) (keys : List Key)
      (maxGrams : Nat) (hwm : Int) (plan : ProbePlan Key),
      planIndexProbe settings chunks keys maxGrams hwm = .ok plan → plan.admitted = true → ∃ a,
        admitSegments plan.keys.length hwm settings.maxProbeRowids plan.descriptors = .ok a ∧
        a.estimatedDecodedRowids ≤ settings.maxProbeRowids ∧
        (∀ (fetch : Nat → Option (SegmentRow Key)) (segment : ProbeSegment),
          (decodeMetered plan fetch segment).result = decodeCandidateSegment plan fetch segment) ∧
        (∀ (fetch : Nat → Option (SegmentRow Key)) (decoded : List ProbeSegment),
          decoded.Subperm plan.segments →
          (decoded.map fun segment => (decodeMetered plan fetch segment).spent).sum ≤ a.estimatedDecodedRowids ∧
          (decoded.map fun segment => producedRows (decodeCandidateSegment plan fetch segment)).sum ≤
            plan.candidateUpperBound) ∧
        (∀ (fetch : Nat → Option (SegmentRow Key)), ∀ segment ∈ plan.segments, ∀ trace,
          decodeTrace plan fetch segment = .ok trace → ∃ last, trace.getLast? = some last ∧
            last.candidates.capacity ≤ a.peakCandidateBytes / rowBytes) ∧
        ∀ visible, WellFormed visible hwm → Scans visible chunks keys → ∃ lists,
          plan.segments.mapM (decodeCandidateSegment plan (fetchFrom visible)) = .ok lists ∧
          lists.flatten.length ≤ plan.candidateUpperBound) ∧
    (∀ (chunks : Key → List (List (SegmentRow Key))) (keys : List Key) (hwm : Int) (maxRows scanned : Nat)
      (perKey : List GramRows) (maxGrams keyCount limit segmentNo gramIndex : Nat),
      collectGramRows chunks hwm maxRows 0 keys 0 = .ok (some (scanned, perKey)) →
      (heldRowids hwm segmentNo).length <
        gramCount (groupAt (selectRarestGrams keys perKey maxGrams).2 segmentNo) gramIndex →
      ∃ e, admitSegments keyCount hwm limit (selectRarestGrams keys perKey maxGrams).2 = .error e) := by
  constructor
  · intro settings chunks keys maxGrams hwm plan planned admitted
    obtain ⟨manifest, a, admission, fits, segments, upper⟩ := planned_admission planned admitted
    obtain ⟨rowids, candidates, limited⟩ := admission_estimated admission fits
    have facts := planned_groups (manifest ▸ admission)
    rw [← manifest] at facts
    rw [admitSegments_segments admission] at segments
    have work (fetch : Nat → Option (SegmentRow Key)) (decoded : List ProbeSegment)
        (sub : decoded.Subperm plan.segments) :
        (decoded.map fun segment => (decodeMetered plan fetch segment).spent).sum ≤ a.estimatedDecodedRowids ∧
        (decoded.map fun segment => producedRows (decodeCandidateSegment plan fetch segment)).sum ≤
          plan.candidateUpperBound := by
      rw [segments] at sub
      constructor
      · refine (sum_of_subperm sub _).trans ?_
        rw [List.map_map, rowids]
        refine List.sum_le_sum fun group listed => ?_
        obtain ⟨in_runs, admits_it⟩ := List.mem_filter.mp listed
        exact group_work (facts group in_runs) admits_it
      · refine (sum_of_subperm sub _).trans ?_
        rw [List.map_map, upper, candidates]
        refine List.sum_le_sum fun group listed => ?_
        obtain ⟨in_runs, admits_it⟩ := List.mem_filter.mp listed
        exact group_candidates (facts group in_runs) admits_it
    refine ⟨a, admission, limited, fun _ _ => decode_result, work, fun fetch segment present trace run => ?_, ?_⟩
    · obtain ⟨b, same, _, _, _, within⟩ := planned_peaks planned admitted (List.ne_nil_of_mem present)
      rw [← manifest] at same
      obtain rfl : a = b := ok_inj (admission.symm.trans same)
      obtain ⟨last, ends, capacity, _⟩ := (within segment present fetch trace run).published
      exact ⟨last, ends, (Nat.le_div_iff_mul_le (by decide)).mpr capacity⟩
    · intro visible wf scans
      obtain ⟨lists, run, _, _⟩ := admitted_lists wf scans planned admitted
      refine ⟨lists, run, ?_⟩
      have total := (work (fetchFrom visible) plan.segments (List.Subperm.refl _)).2
      rwa [← produced_flatten run] at total
  · intro chunks keys hwm maxRows scanned perKey maxGrams keyCount limit segmentNo gramIndex collected overfull
    obtain ⟨sorted, checked⟩ := collected_manifest maxGrams collected
    exact overfull_raises keyCount limit sorted checked overfull

/-- Two generations that post the same rowids of the last segment. -/
def overfullScans (_ : Nat) : List (List (SegmentRow Nat)) :=
  [[writtenRow 0 7 0 0 [5], writtenRow 1 7 1 0 [1048576, 1048577], writtenRow 2 7 1 1 [1048576, 1048577]]]

def overfullRows : List GramRows :=
  [⟨[⟨0, 0, 0, 1, 5, 5⟩, ⟨1, 0, 1, 2, 1048576, 1048577⟩, ⟨1, 0, 2, 2, 1048576, 1048577⟩], 5⟩]

theorem declined_manifest_still_raises :
    (∃ a, admitSegments 2 1048580 roomySettings.maxProbeRowids twoGenerationsPlan.descriptors = .ok a ∧
      a.estimatedDecodedRowids ≤ 1000000) ∧
    ∃ e, admitSegments 1 1048577 0 (selectRarestGrams [7] overfullRows 1).2 = .error e := by
  have planned : planIndexProbe roomySettings twoGenerationsScans [8, 7] 2 1048580 = .ok twoGenerationsPlan := by
    decide +kernel
  have collected : collectGramRows overfullScans 1048577 10 0 [7] 0 = .ok (some (3, overfullRows)) := by
    decide +kernel
  have held : (heldRowids 1048577 1).length = 2 := (heldRowids_length (by decide) (by decide)).trans (by decide)
  have counted : gramCount (groupAt (selectRarestGrams [7] overfullRows 1).2 1) 0 = 4 := by decide +kernel
  constructor
  · obtain ⟨a, admission, limited, _⟩ := admission_estimates_bound_work.1 roomySettings twoGenerationsScans [8, 7] 2
      1048580 twoGenerationsPlan planned rfl
    exact ⟨a, admission, limited⟩
  · exact admission_estimates_bound_work.2 overfullScans [7] 1048577 10 3 overfullRows 1 1 0 1 0 collected
      (by rw [held, counted]; decide)

end NgramProbeEstimates
