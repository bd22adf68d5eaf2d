import NgramIndex.ProbeIntersection

/- The memory bound of a probe. The estimate of one segment, made with the grams
   in overall rarity order, bounds the buffers of its decode in smallest-first
   order, and the workspace of the plan bounds the decode buffers of all fetch
   workers with the candidate vectors still referenced. -/
namespace NgramProbe
open AscendingLists Fallible
variable {Key : Type} [DecidableEq Key]

theorem checkedMultiply_ok {left right product : Nat}
    (run : checkedMultiply left right = .ok product) : product = left * right :=
  (ok_inj (check_ok run).2).symm

/-- Any step of the estimate covers twice the smallest list with one other list. -/
theorem stepPeaks_bounds {capacity bound peak result : Nat} {rest : List Nat}
    (run : stepPeaks capacity bound peak rest = .ok result) : peak ≤ result ∧
      ∀ least ≤ bound, least ≤ capacity → (∀ count ∈ rest, least ≤ count) →
        ∀ count ∈ rest, least + count + least ≤ result := by
  induction rest generalizing bound peak with
  | nil =>
    obtain rfl : peak = result := ok_inj run
    simp
  | cons count rest ih =>
    obtain ⟨held, first, run⟩ := bind_ok run
    obtain ⟨total, second, run⟩ := bind_ok run
    obtain rfl := checkedAdd_ok first
    obtain rfl := checkedAdd_ok second
    obtain ⟨grown, later⟩ := ih run
    refine ⟨(Nat.le_max_left _ _).trans grown, fun least in_bound in_capacity each => ?_⟩
    have here := each count (by simp)
    have rest_bound : least ≤ min bound (min capacity count) := by omega
    refine List.forall_mem_cons.mpr ⟨?_, later least rest_bound in_capacity fun c hc => each c (by simp [hc])⟩
    omega

theorem stepPeaks_first {capacity bound peak result count : Nat} {rest : List Nat}
    (run : stepPeaks capacity bound peak (count :: rest) = .ok result) :
    bound + count + min bound (min capacity count) ≤ result := by
  obtain ⟨held, first, run⟩ := bind_ok run
  obtain ⟨total, second, run⟩ := bind_ok run
  obtain rfl := checkedAdd_ok first
  obtain rfl := checkedAdd_ok second
  exact (Nat.le_max_right _ _).trans (stepPeaks_bounds run).1

/-- The estimate, whatever the order of its counts. -/
theorem segmentWorkerBytes_bounds {counts : List Nat} {capacity bytes least : Nat}
    (run : segmentWorkerBytes counts capacity = .ok bytes) (some_gram : counts ≠ [])
    (capped : ∀ count ∈ counts, count ≤ capacity) (smallest : ∀ count ∈ counts, least ≤ count) :
    ∃ peak, bytes = peak * rowBytes + fetchScratchBytes ∧ counts.headD 0 ≤ peak ∧
      (1 < counts.length → ∀ count ∈ counts, least + count + least ≤ peak) := by
  obtain ⟨peak, steps, run⟩ := bind_ok run
  obtain ⟨peakBytes, scaled, run⟩ := bind_ok run
  obtain rfl := checkedMultiply_ok scaled
  obtain rfl := checkedAdd_ok run
  refine ⟨peak, rfl, (stepPeaks_bounds steps).1, fun several => ?_⟩
  obtain ⟨first, rest, rfl⟩ := List.exists_cons_of_ne_nil some_gram
  obtain ⟨second, others, rfl⟩ : ∃ second others, rest = second :: others :=
    List.exists_cons_of_ne_nil (by
      rintro rfl
      simp at several)
  have first_small := smallest first (by simp)
  have first_capped := capped first (by simp)
  have second_small := smallest second (by simp)
  simp only [List.headD_cons, List.tail_cons] at steps
  refine List.forall_mem_cons.mpr ⟨?_, fun count present => ?_⟩
  · -- The rarest key overall may be the largest list of this segment.
    have step := stepPeaks_first steps
    omega
  · exact (stepPeaks_bounds steps).2 least (by omega) (by omega)
      (fun c hc => smallest c (List.mem_cons_of_mem _ hc)) count present

theorem intersectGrams_rows {plan : ProbePlan Key} {fetch : Nat → Option (SegmentRow Key)}
    {segment : ProbeSegment} {least peak : Nat} (order : List Nat) {b : DecodeBuffers}
    {trace : List DecodeBuffers}
    (fits : ∀ g ∈ order, ∀ postings, decodeDescriptorRange plan fetch segment g = .ok postings →
      least + postings.length + least ≤ peak)
    (small : b.candidates.capacity ≤ least) (held : b.candidates.rows.length ≤ b.candidates.capacity)
    (room : least + b.postings.capacity ≤ peak) (released : b.intersection.capacity = 0)
    (run : intersectGrams plan fetch segment order b = .ok trace) :
    (∀ state ∈ trace, state.rows ≤ peak) ∧ ∃ last, trace.getLast? = some last ∧
      last.candidates.capacity ≤ least ∧ last.intersection.capacity = 0 := by
  have here : b.rows ≤ peak := by
    simp only [DecodeBuffers.rows]
    omega
  induction order generalizing b trace with
  | nil =>
    obtain rfl : [b] = trace := ok_inj run
    exact ⟨by simpa using here, b, rfl, small, released⟩
  | cons g order ih =>
    rw [intersectGrams] at run
    obtain ⟨_, run⟩ | ⟨_, run⟩ := branch_ok run
    · obtain rfl : [b] = trace := ok_inj run
      exact ⟨by simpa using here, b, rfl, small, released⟩
    · obtain ⟨postings, decoded, run⟩ := bind_ok run
      obtain ⟨later, rest, run⟩ := bind_ok run
      have peak_here := fits g (by simp) postings decoded
      have met := (intersect_sublist b.candidates.rows postings).length_le
      have met_right := (intersect_sublist_right b.candidates.rows postings).length_le
      obtain ⟨states, last, at_last, last_small⟩ := ih (fun other ho => fits other (by simp [ho]))
        (by simp only; omega) (by simp only; omega) (by simp only; omega) rfl rest
        (by simp only [DecodeBuffers.rows, reserveExactly]; omega)
      rw [← ok_inj run]
      refine ⟨List.forall_mem_cons.mpr ⟨here, List.forall_mem_cons.mpr ⟨?_,
        List.forall_mem_cons.mpr ⟨?_, states⟩⟩⟩, ?_⟩
      · simp only [DecodeBuffers.rows]
        omega
      · simp only [DecodeBuffers.rows]
        omega
      · exact ⟨last, by simp [List.getLast?_cons, at_last], last_small⟩

def gramCount (group : List ProbeDescriptor) (g : Nat) : Nat :=
  ((gramAt group g).map ProbeDescriptor.postingCount).sum

theorem decodeDescriptorRange_length {plan : ProbePlan Key} {fetch : Nat → Option (SegmentRow Key)}
    {segment : ProbeSegment} {g : Nat} {postings : List Nat}
    (sorted : (segment.descriptors.map ProbeDescriptor.gramIndex).Pairwise (· ≤ ·))
    (run : decodeDescriptorRange plan fetch segment g = .ok postings) :
    postings.length = gramCount segment.descriptors g := by
  rw [decodeDescriptorRange, range_eq_gramAt g sorted] at run
  obtain ⟨expected, summed, run⟩ := bind_ok run
  obtain ⟨_, run⟩ := check_ok run
  obtain ⟨decoded, _, run⟩ := bind_ok run
  obtain ⟨whole, run⟩ := check_ok run
  obtain ⟨_, run⟩ := check_ok run
  obtain ⟨_, run⟩ := check_ok run
  have counted : decoded.length = gramCount segment.descriptors g := by
    rw [not_not.mp whole, sumCounts_ok summed, Nat.zero_add, gramCount]
  rw [← ok_inj run, ← counted]
  split
  · exact List.length_insertionSort _ _
  · rfl

def countsOf (group : List ProbeDescriptor) : List Nat := (spansOf group).map GramSpan.count

theorem countsOf_eq {group : List ProbeDescriptor} {keyCount : Nat}
    (sorted : (group.map ProbeDescriptor.gramIndex).Pairwise (· ≤ ·))
    (inside : ∀ d ∈ group, d.gramIndex < keyCount) (full : (spansOf group).length = keyCount) :
    countsOf group = (List.range keyCount).map (gramCount group) := by
  have every := (every_gram sorted inside).mp full
  have grams : unique (group.map ProbeDescriptor.gramIndex) = List.range keyCount := by
    refine ascending_ext (unique_ascending sorted) List.pairwise_lt_range fun g => ?_
    rw [mem_unique, List.mem_range]
    constructor
    · intro listed
      obtain ⟨d, in_group, rfl⟩ := List.mem_map.mp listed
      exact inside d in_group
    · intro bound
      obtain ⟨d, in_gram⟩ := List.exists_mem_of_ne_nil _ (every g bound)
      obtain ⟨in_group, at_g⟩ := List.mem_filter.mp in_gram
      exact List.mem_map.mpr ⟨d, in_group, of_decide_eq_true at_g⟩
  rw [countsOf, spansOf, grams_eq sorted, grams, List.map_map, List.map_map]
  rfl

theorem rarestFirst_sorted (counts : List Nat) :
    (rarestFirst counts).Pairwise fun a b => counts.getD a 0 ≤ counts.getD b 0 := by
  have mapped : (rarestFirst counts).map (fun i => counts.getD i 0) =
      ((List.range counts.length).map fun i => counts.getD i 0).insertionSort (· ≤ ·) :=
    List.map_insertionSort _ _ (fun i => counts.getD i 0) _ fun _ _ _ _ => Iff.rfl
  have sorted := List.pairwise_insertionSort (· ≤ ·)
    ((List.range counts.length).map fun i => counts.getD i 0)
  rw [← mapped] at sorted
  exact List.pairwise_map.mp sorted

/-- SegmentWorkerBytes bounds every state of the segment's decode, and the
    smallest count bounds the vector it publishes. -/
theorem decodeTrace_bounded {plan : ProbePlan Key} {fetch : Nat → Option (SegmentRow Key)}
    {group : List ProbeDescriptor} {keyCount capacity bytes : Nat} {trace : List DecodeBuffers}
    (sorted : (group.map ProbeDescriptor.gramIndex).Pairwise (· ≤ ·))
    (inside : ∀ d ∈ group, d.gramIndex < keyCount) (full : (spansOf group).length = keyCount)
    (capped : ∀ count ∈ countsOf group, count ≤ capacity)
    (estimate : segmentWorkerBytes (countsOf group) capacity = .ok bytes)
    (run : decodeTrace plan fetch (segmentOf group) = .ok trace) :
    (∀ state ∈ trace, state.rows * rowBytes ≤ bytes) ∧ ∃ last, trace.getLast? = some last ∧
      last.candidates.capacity ≤ (countsOf group).foldl min capacity ∧
      last.intersection.capacity = 0 := by
  have counts_eq := countsOf_eq sorted inside full
  have counts_length : (countsOf group).length = keyCount := by simp [countsOf, full]
  have at_gram : ∀ g < keyCount, (countsOf group).getD g 0 = gramCount group g := by
    intro g bound
    simp [counts_eq, List.getD_eq_getElem?_getD, bound]
  have lengths : ∀ g postings, decodeDescriptorRange plan fetch (segmentOf group) g = .ok postings →
      postings.length = gramCount group g := fun g postings decoded =>
    decodeDescriptorRange_length sorted decoded
  have perm := rarestFirst_perm (countsOf group)
  have ordered := rarestFirst_sorted (countsOf group)
  have order_eq : (segmentOf group).gramOrder = rarestFirst (countsOf group) := rfl
  rw [decodeTrace, order_eq] at run
  cases order : rarestFirst (countsOf group) with
  | nil => simp [order] at run
  | cons g rest =>
    rw [order] at perm ordered
    simp only [order] at run
    rw [counts_length] at perm
    obtain ⟨postings, decoded, run⟩ := bind_ok run
    have in_range : ∀ i ∈ g :: rest, i < keyCount := fun i hi =>
      List.mem_range.mp (perm.mem_iff.mp hi)
    have first_count := lengths g postings decoded
    have listed : ∀ i < keyCount, gramCount group i ∈ countsOf group := by
      intro i bound
      rw [counts_eq]
      exact List.mem_map_of_mem (List.mem_range.mpr bound)
    have smallest : ∀ count ∈ countsOf group, gramCount group g ≤ count := by
      intro count present
      rw [counts_eq] at present
      obtain ⟨i, bound, rfl⟩ := List.mem_map.mp present
      have in_order := perm.mem_iff.mpr bound
      rw [← at_gram g (in_range g (by simp)), ← at_gram i (in_range i in_order)]
      rcases List.mem_cons.mp in_order with rfl | later
      · exact Nat.le_refl _
      · exact (List.pairwise_cons.mp ordered).1 i later
    have some_gram : countsOf group ≠ [] :=
      List.ne_nil_of_mem (listed g (in_range g (by simp)))
    obtain ⟨peak, bytes_eq, covers_first, covers_steps⟩ :=
      segmentWorkerBytes_bounds estimate some_gram capped smallest
    have alone : gramCount group g ≤ peak := by
      obtain ⟨first, others, eq⟩ := List.exists_cons_of_ne_nil some_gram
      have least := smallest first (by simp [eq])
      rw [eq, List.headD_cons] at covers_first
      omega
    obtain ⟨states, last, at_last, small, released⟩ := @intersectGrams_rows _ _ plan fetch
      (segmentOf group) (gramCount group g) peak rest
      ⟨⟨postings, postings.length⟩, reserveExactly 0, reserveExactly 0⟩ trace
      (fun i in_rest other other_decoded => by
        rw [lengths i other other_decoded]
        have several : 1 < (countsOf group).length := by
          have total := perm.length_eq
          have rest_pos := List.length_pos_of_mem in_rest
          rw [List.length_cons, List.length_range] at total
          omega
        exact covers_steps several _ (listed i (in_range i (by simp [in_rest]))))
      (by simp only; omega) (Nat.le_refl _) (by simpa [reserveExactly] using alone) rfl run
    refine ⟨fun state present => ?_, last, at_last, ?_, released⟩
    · rw [bytes_eq]
      exact (Nat.mul_le_mul_right _ (states state present)).trans (Nat.le_add_right _ _)
    · exact small.trans (le_foldl_min (capped _ (listed g (in_range g (by simp)))) smallest)

def segmentCapacity (hwm : Int) (segmentNo : Nat) : Nat :=
  min segmentRows (hwm.toNat - segmentNo * segmentRows + 1)

structure Charged (hwm : Int) (group : List ProbeDescriptor) (a : Admission) : Prop where
  capped : ∀ count ∈ countsOf group, count ≤ segmentCapacity hwm (segmentOf group).segmentNo
  decode : ∃ bytes, segmentWorkerBytes (countsOf group)
    (segmentCapacity hwm (segmentOf group).segmentNo) = .ok bytes ∧ bytes ≤ a.peakWorkerBytes
  vector : (countsOf group).foldl min (segmentCapacity hwm (segmentOf group).segmentNo) * rowBytes ≤
    a.peakCandidateBytes

theorem chargeSegment_peaks {limit capacity rows : Nat} {counts : List Nat} {a b : Admission}
    (run : chargeSegment limit capacity rows counts a = .ok b) (fits : b.declineReason = "") :
    b.declineReason = a.declineReason ∧ ∃ bytes, segmentWorkerBytes counts capacity = .ok bytes ∧
      b.peakWorkerBytes = max a.peakWorkerBytes bytes ∧
      b.peakCandidateBytes = max a.peakCandidateBytes (counts.foldl min capacity * rowBytes) := by
  obtain ⟨estimated, _, run⟩ := bind_ok run
  obtain ⟨_, run⟩ | ⟨_, run⟩ := branch_ok run
  · rw [← ok_inj run] at fits
    simp at fits
  · obtain ⟨upper, _, run⟩ := bind_ok run
    obtain ⟨admission, _, run⟩ := bind_ok run
    obtain ⟨bytes, estimate, run⟩ := bind_ok run
    rw [← ok_inj run]
    exact ⟨rfl, bytes, estimate, rfl, rfl⟩

theorem admitSegment_capped {keyCount limit : Nat} {hwm : Int} {a b : Admission}
    {group : List ProbeDescriptor} (run : admitSegment keyCount hwm limit a group = .ok b) :
    ∀ count ∈ countsOf group, count ≤ segmentCapacity hwm (segmentOf group).segmentNo := by
  obtain ⟨spans, spanned, run⟩ := bind_ok run
  obtain rfl := spans_ok spanned
  obtain ⟨none_over, _⟩ := check_ok run
  exact fun count present => Nat.le_of_not_lt fun exceeds => none_over ⟨count, present, exceeds⟩

theorem admitSegment_peaks {keyCount limit : Nat} {hwm : Int} {a b : Admission}
    {group : List ProbeDescriptor} (run : admitSegment keyCount hwm limit a group = .ok b)
    (fits : b.declineReason = "") : a.declineReason = "" ∧
      ((admits keyCount group = false ∧ b.peakWorkerBytes = a.peakWorkerBytes ∧
        b.peakCandidateBytes = a.peakCandidateBytes) ∨
      (∀ count ∈ countsOf group, count ≤ segmentCapacity hwm (segmentOf group).segmentNo) ∧
      ∃ bytes, segmentWorkerBytes (countsOf group)
          (segmentCapacity hwm (segmentOf group).segmentNo) = .ok bytes ∧
        b.peakWorkerBytes = max a.peakWorkerBytes bytes ∧
        b.peakCandidateBytes = max a.peakCandidateBytes ((countsOf group).foldl min
          (segmentCapacity hwm (segmentOf group).segmentNo) * rowBytes)) := by
  have capped := admitSegment_capped run
  obtain ⟨spans, spanned, run⟩ := bind_ok run
  obtain rfl := spans_ok spanned
  obtain ⟨_, run⟩ := check_ok run
  simp only [List.length_map] at run
  obtain ⟨lacks, run⟩ | ⟨holds, run⟩ := branch_ok run
  · obtain rfl := ok_inj run
    exact ⟨fits, .inl ⟨by simp [admits, lacks], rfl, rfl⟩⟩
  · obtain ⟨apart, run⟩ | ⟨_, run⟩ := branch_ok run
    · obtain rfl := ok_inj run
      have none_shared : ¬ spanLow group ≤ spanHigh group := Nat.not_le.mpr apart
      exact ⟨fits, .inl ⟨by simp [admits, none_shared], rfl, rfl⟩⟩
    · obtain ⟨declined, run⟩ | ⟨_, run⟩ := branch_ok run
      · obtain rfl := ok_inj run
        exact absurd fits declined
      · obtain ⟨same, bytes, estimate, worker, candidate⟩ := chargeSegment_peaks run fits
        exact ⟨same.symm.trans fits, .inr ⟨capped, bytes, estimate, worker, candidate⟩⟩

def Charges (keyCount : Nat) (hwm : Int) (done : List (List ProbeDescriptor)) (a : Admission) : Prop :=
  (∀ group ∈ done, group ≠ []) → a.declineReason = "" →
    (∀ group ∈ done, admits keyCount group = true → Charged hwm group a) ∧
    a.peakCandidateBytes ≤ a.peakWorkerBytes

theorem vector_within_decode {counts : List Nat} {capacity bytes : Nat} (some_gram : counts ≠ [])
    (estimate : segmentWorkerBytes counts capacity = .ok bytes) :
    counts.foldl min capacity * rowBytes ≤ bytes := by
  obtain ⟨peak, steps, run⟩ := bind_ok estimate
  obtain ⟨peakBytes, scaled, run⟩ := bind_ok run
  obtain rfl := checkedMultiply_ok scaled
  obtain rfl := checkedAdd_ok run
  obtain ⟨first, rest, rfl⟩ := List.exists_cons_of_ne_nil some_gram
  have least := (foldl_min_le (first :: rest) capacity).2 first (by simp)
  have covered := (stepPeaks_bounds steps).1
  rw [List.headD_cons] at covered
  exact (Nat.mul_le_mul_right _ (least.trans covered)).trans (Nat.le_add_right _ _)

theorem admitSegments_charges {keyCount limit : Nat} {hwm : Int} {descriptors : List ProbeDescriptor}
    {a : Admission} (run : admitSegments keyCount hwm limit descriptors = .ok a) :
    Charges keyCount hwm (runsBy (fun d e => decide (d.segmentNo = e.segmentNo)) descriptors) a := by
  refine foldlM_prefix (Charges keyCount hwm) _ ?_ ?_ run
  · intro done group a b held step nonempty fits
    obtain ⟨before, change⟩ := admitSegment_peaks step fits
    obtain ⟨charged, within⟩ := held (fun g hg => nonempty g (by simp [hg])) before
    have group_ne : group ≠ [] := nonempty group (by simp)
    have some_gram : countsOf group ≠ [] := by
      obtain ⟨d, rest, rfl⟩ := List.exists_cons_of_ne_nil group_ne
      obtain ⟨run, others, runs⟩ := runsBy_cons_head
        (fun d e : ProbeDescriptor => decide (d.gramIndex = e.gramIndex)) d rest
      simp [countsOf, spansOf, runs]
    rcases change with ⟨left_out, worker, candidate⟩ | ⟨capped, bytes, estimate, worker, candidate⟩
    · refine ⟨fun g hg admitted => ?_, by rw [worker, candidate]; exact within⟩
      rcases List.mem_append.mp hg with old | new
      · obtain ⟨old_capped, old_decode, old_vector⟩ := charged g old admitted
        exact ⟨old_capped, worker ▸ old_decode, candidate ▸ old_vector⟩
      · rw [List.mem_singleton.mp new, left_out] at admitted
        cases admitted
    · refine ⟨fun g hg admitted => ?_, ?_⟩
      · rcases List.mem_append.mp hg with old | new
        · obtain ⟨old_capped, ⟨old_bytes, old_estimate, old_le⟩, old_vector⟩ := charged g old admitted
          exact ⟨old_capped, ⟨old_bytes, old_estimate, by omega⟩, by omega⟩
        · obtain rfl := List.mem_singleton.mp new
          exact ⟨capped, ⟨bytes, estimate, by omega⟩, by omega⟩
      · have own := vector_within_decode some_gram estimate
        omega
  · intro _ _
    exact ⟨by simp, Nat.le_refl _⟩

/-- The workspace that PlanIndexProbe grows its reservation by. -/
def workspaceOf (a : Admission) (maxThreads : Nat) : Nat :=
  if maxThreads = 1 then a.peakWorkerBytes
  else maxThreads * a.peakWorkerBytes + (maxThreads - 2) * a.peakCandidateBytes

omit [DecidableEq Key] in
theorem chargeWorkers_workspace {settings : ProbeSettings} {available : Nat} {a : Admission}
    {plan planned : ProbePlan Key} (run : chargeWorkers settings available a plan = .ok planned) :
    1 ≤ planned.maxThreads ∧ planned.workspaceBytes = workspaceOf a planned.maxThreads := by
  obtain ⟨perWorker, _, run⟩ := bind_ok run
  obtain ⟨_, run⟩ | ⟨several, run⟩ := branch_ok run
  · rw [← ok_inj run]
    exact ⟨Nat.le_refl _, rfl⟩
  · obtain ⟨bytes, worker, run⟩ := bind_ok run
    obtain ⟨alive, vectors, run⟩ := bind_ok run
    obtain ⟨total, sum, run⟩ := bind_ok run
    obtain rfl := checkedMultiply_ok worker
    obtain rfl := checkedMultiply_ok vectors
    obtain rfl := checkedAdd_ok sum
    rw [← ok_inj run]
    refine ⟨by simp only; omega, ?_⟩
    simp only [workspaceOf]
    rw [if_neg (by omega), Nat.mul_comm a.peakWorkerBytes, Nat.mul_comm a.peakCandidateBytes]

omit [DecidableEq Key] in
theorem admitManifest_admitted {settings : ProbeSettings} {reserved : Nat}
    {plan planned : ProbePlan Key} (run : admitManifest settings reserved plan = .ok planned)
    (undecided : plan.admitted = false) (admitted : planned.admitted = true) : ∃ a,
      admitSegments plan.keys.length plan.hwm settings.maxProbeRowids plan.descriptors = .ok a ∧
      a.declineReason = "" ∧ ∃ gated : ProbePlan Key, gated.hwm = plan.hwm ∧ gated.keys = plan.keys ∧
        gated.descriptors = plan.descriptors ∧ gated.segments = a.segments ∧
        gated.candidateUpperBound = a.candidateUpperBound ∧
        (a.segments = [] ∧ planned = { gated with admitted := true } ∨
          chargeWorkers settings (settings.memoryBudget - reserved) a gated = .ok planned) := by
  obtain ⟨a, admission, run⟩ := bind_ok run
  obtain ⟨_, run⟩ | ⟨fits, run⟩ := branch_ok run
  · rw [← ok_inj run] at admitted
    exact absurd admitted (by simp [undecided])
  · obtain ⟨_, run⟩ := check_ok run
    obtain ⟨weight, _, run⟩ := bind_ok run
    obtain ⟨rows, _, run⟩ := bind_ok run
    obtain ⟨_, run⟩ | ⟨_, run⟩ := branch_ok run
    · rw [← ok_inj run] at admitted
      exact absurd admitted (by simp [undecided])
    · refine ⟨a, admission, not_not.mp fits, { plan with
        segments := a.segments
        candidateUpperBound := a.candidateUpperBound
        admissionRows := rows
        declineReason := a.declineReason }, rfl, rfl, rfl, rfl, rfl, ?_⟩
      obtain ⟨none_left, run⟩ | ⟨_, run⟩ := branch_ok run
      · exact .inl ⟨none_left, (ok_inj run).symm⟩
      · obtain ⟨_, run⟩ | ⟨_, run⟩ := branch_ok run
        · rw [← ok_inj run] at admitted
          exact absurd admitted (by simp [undecided])
        · exact .inr run

omit [DecidableEq Key] in
theorem admitManifest_workspace {settings : ProbeSettings} {reserved : Nat}
    {plan planned : ProbePlan Key} (run : admitManifest settings reserved plan = .ok planned)
    (undecided : plan.admitted = false) (admitted : planned.admitted = true)
    (some_segment : planned.segments ≠ []) : ∃ a,
      admitSegments plan.keys.length plan.hwm settings.maxProbeRowids plan.descriptors = .ok a ∧
      a.declineReason = "" ∧ 1 ≤ planned.maxThreads ∧
      planned.workspaceBytes = workspaceOf a planned.maxThreads := by
  obtain ⟨a, admission, fits, gated, _, _, _, segments, _, outcome⟩ :=
    admitManifest_admitted run undecided admitted
  rcases outcome with ⟨none_left, rfl⟩ | charged
  · exact absurd (segments.trans none_left) some_segment
  · obtain ⟨threads, workspace⟩ := chargeWorkers_workspace charged
    exact ⟨a, admission, fits, threads, workspace⟩

omit [DecidableEq Key] in
theorem manifest_grams {chunks : Key → List (List (SegmentRow Key))} {keys : List Key}
    {d : ProbeDescriptor} (present : d ∈ sortManifest (manifestOf chunks 0 keys)) :
    d.gramIndex < keys.length := by
  obtain ⟨entry, in_keys, described⟩ :=
    List.mem_flatMap.mp ((List.perm_insertionSort _ _).mem_iff.mp present)
  obtain ⟨row, _, rfl⟩ := List.mem_map.mp described
  have at_key : keys[entry.2]? = some entry.1 := by simpa using List.mem_zipIdx_iff_getElem?.mp in_keys
  exact (List.getElem?_eq_some_iff.mp at_key).1

/-- The decode of an admitted segment stays within its estimate, and the
    estimate within the plan's peak. -/
structure DecodesWithin (hwm : Int) (a : Admission) (segment : ProbeSegment)
    (trace : List DecodeBuffers) : Prop where
  states : ∃ bytes, segmentWorkerBytes (countsOf segment.descriptors)
      (segmentCapacity hwm segment.segmentNo) = .ok bytes ∧ bytes ≤ a.peakWorkerBytes ∧
    ∀ state ∈ trace, state.rows * rowBytes ≤ bytes
  published : ∃ last, trace.getLast? = some last ∧
    last.candidates.capacity * rowBytes ≤ a.peakCandidateBytes ∧ last.intersection.capacity = 0

/-- The plan's peaks bound what its segments decode through and publish. -/
theorem planned_peaks {settings : ProbeSettings} {chunks : Key → List (List (SegmentRow Key))}
    {keys : List Key} {maxGrams : Nat} {hwm : Int} {plan : ProbePlan Key}
    (planned : planIndexProbe settings chunks keys maxGrams hwm = .ok plan)
    (admitted : plan.admitted = true) (some_segment : plan.segments ≠ []) : ∃ a,
      admitSegments plan.keys.length hwm settings.maxProbeRowids
        (sortManifest (manifestOf chunks 0 plan.keys)) = .ok a ∧
      1 ≤ plan.maxThreads ∧ plan.workspaceBytes = workspaceOf a plan.maxThreads ∧
      a.peakCandidateBytes ≤ a.peakWorkerBytes ∧
      ∀ segment ∈ plan.segments, ∀ fetch trace, decodeTrace plan fetch segment = .ok trace →
        DecodesWithin hwm a segment trace := by
  obtain ⟨reserved, manifest, gates, undecided, rfl, descriptors, _⟩ := planIndexProbe_manifest planned admitted
  obtain ⟨a, admission, fits, threads, workspace⟩ :=
    admitManifest_workspace gates undecided admitted some_segment
  have sorted : manifest.descriptors.Pairwise fun a b => a.place ≤ b.place :=
    descriptors ▸ sortManifest_sorted _
  obtain ⟨charged, within⟩ := admitSegments_charges admission
    (fun group listed => runsBy_ne_nil _ group listed) fits
  obtain ⟨_, same_keys, b, same_admission, segments⟩ := admitManifest_fields gates
  obtain rfl : a = b := ok_inj (admission.symm.trans same_admission)
  refine ⟨a, ?_, threads, workspace, within, fun segment present fetch trace decoded => ?_⟩
  · rw [same_keys, ← descriptors]
    exact admission
  rw [segments, admitSegments_segments admission] at present
  obtain ⟨group, listed, rfl⟩ := List.mem_map.mp present
  obtain ⟨in_runs, admits_it⟩ := List.mem_filter.mp listed
  obtain ⟨capped, ⟨bytes, estimate, bytes_le⟩, vector⟩ := charged group in_runs admits_it
  rw [groups_eq sorted] at in_runs
  obtain ⟨segmentNo, _, rfl⟩ := List.mem_map.mp in_runs
  have full : (spansOf (groupAt manifest.descriptors segmentNo)).length = manifest.keys.length := by
    simp only [admits, Bool.and_eq_true, decide_eq_true_eq] at admits_it
    exact admits_it.1
  have inside : ∀ d ∈ groupAt manifest.descriptors segmentNo, d.gramIndex < manifest.keys.length :=
    fun d hd => manifest_grams (descriptors ▸ (List.mem_filter.mp hd).1)
  obtain ⟨states, last, at_last, small, released⟩ := decodeTrace_bounded
    (group_grams_sorted sorted segmentNo) inside full capped estimate decoded
  exact ⟨⟨bytes, estimate, bytes_le, states⟩, last, at_last,
    (Nat.mul_le_mul_right _ small).trans vector, released⟩

end NgramProbe
