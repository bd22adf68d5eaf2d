import Mathlib.Algebra.BigOperators.Ring.Finset
import Mathlib.Algebra.Order.BigOperators.Group.Finset
import NgramIndex.CandidateQueue
import NgramIndex.ProbeMemory

/- The fetch workers' memory. A worker goes through the buffer states of the
   segment it decodes one at a time, between the sections that it runs under the
   queue lock, and a candidate vector stays alive while it is pending, ready or
   held by a worker that fetches one of its batches. -/
namespace NgramWorkerMemory
open NgramCandidateQueue NgramProbe Fallible LabelledRun

/-- The buffers of one decode, from the empty scratch to the release of what
    the segment no longer needs. -/
def bufferStates (trace : List DecodeBuffers) : List DecodeBuffers :=
  ⟨reserveExactly 0, reserveExactly 0, reserveExactly 0⟩ :: trace ++
    (trace.getLast?.map fun last => { last with postings := reserveExactly 0 }).toList

def decodedCandidates (trace : List DecodeBuffers) : List Nat :=
  (trace.getLast?.map fun last => last.candidates.rows).getD []

def publishedCapacity (trace : List DecodeBuffers) : Nat :=
  (trace.getLast?.map fun last => last.candidates.capacity).getD 0

def queuePlan (maxThreads : Nat) (traces : List (List DecodeBuffers)) : Plan :=
  ⟨traces.map decodedCandidates, maxThreads⟩

/-- The queue machine with each worker's place in the decode it is at. -/
structure WorkerState where
  fetch : FetchState
  places : List Nat
  deriving DecidableEq, Repr

def startWorkers (workers : Nat) : WorkerState := ⟨start workers, List.replicate workers 0⟩

/-- A decoding worker moves to its next buffer state, and publishes from the
    last one. Any other worker runs its section of the queue. -/
def workerStep (plan : Plan) (traces : List (List DecodeBuffers)) (s : WorkerState) (w : Nat) :
    Option WorkerState :=
  let place := s.places.getD w 0
  let queued := (fetchStep plan s.fetch w).map fun fetch => ⟨fetch, s.places.set w 0⟩
  match s.fetch.workers[w]? with
  | some (.decoding ordinal) =>
      if place + 1 < (bufferStates (traces.getD ordinal [])).length then
        some { s with places := s.places.set w (place + 1) }
      else queued
  | _ => queued

def workerRows (traces : List (List DecodeBuffers)) (place : Nat) : Worker → Nat
  | .decoding ordinal =>
      ((bufferStates (traces.getD ordinal []))[place]?.map DecodeBuffers.rows).getD 0
  | _ => 0

def fetchingOrdinal : Worker → Option Nat
  | .fetching batch => some batch.segmentOrdinal
  | _ => none

def aliveVectors (s : FetchState) : Finset Nat :=
  (s.queue.pending.map Prod.fst ++ s.queue.ready.map PublishedCandidates.segmentOrdinal ++
    s.workers.filterMap fetchingOrdinal).toFinset

def trackedRows (traces : List (List DecodeBuffers)) (s : WorkerState) : Nat :=
  (s.fetch.workers.zipIdx.map fun entry => workerRows traces (s.places.getD entry.2 0) entry.1).sum +
    ∑ ordinal ∈ aliveVectors s.fetch, publishedCapacity (traces.getD ordinal [])

def trackedBytes (traces : List (List DecodeBuffers)) (s : WorkerState) : Nat :=
  trackedRows traces s * rowBytes

theorem workerStep_fetch {plan : Plan} {traces : List (List DecodeBuffers)} {s t : WorkerState}
    {w : Nat} (step : workerStep plan traces s w = some t) :
    t.fetch = s.fetch ∨ fetchStep plan s.fetch w = some t.fetch := by
  have ran : ∀ {u : WorkerState},
      ((fetchStep plan s.fetch w).map fun fetch => (⟨fetch, s.places.set w 0⟩ : WorkerState)) = some u →
      fetchStep plan s.fetch w = some u.fetch := by
    intro u done
    obtain ⟨fetch, moved, rfl⟩ := Option.map_eq_some_iff.mp done
    exact moved
  simp only [workerStep] at step
  split at step
  · split at step
    · exact .inl (by rw [← Option.some.inj step])
    · exact .inr (ran step)
  · exact .inr (ran step)

theorem roles_disjoint (workers : List Worker) :
    (workers.filterMap fetchingOrdinal).length + (workers.filterMap decodingOrdinal).length +
      workers.count .claiming ≤ workers.length := by
  induction workers with
  | nil => simp
  | cons worker workers ih =>
    cases worker <;> simp [List.filterMap_cons, fetchingOrdinal, decodingOrdinal] <;> omega

theorem fetching_set {workers : List Worker} {w : Nat} {new : Worker} {ordinal : Nat}
    (present : ordinal ∈ (workers.set w new).filterMap fetchingOrdinal) :
    ordinal ∈ workers.filterMap fetchingOrdinal ∨ fetchingOrdinal new = some ordinal := by
  obtain ⟨worker, listed, fetching⟩ := List.mem_filterMap.mp present
  rcases List.mem_or_eq_of_mem_set listed with old | rfl
  · exact .inl (List.mem_filterMap.mpr ⟨worker, old, fetching⟩)
  · exact .inr fetching

theorem mem_aliveVectors {s : FetchState} {ordinal : Nat} : ordinal ∈ aliveVectors s ↔
    ordinal ∈ s.queue.pending.map Prod.fst ∨
    ordinal ∈ s.queue.ready.map PublishedCandidates.segmentOrdinal ∨
    ordinal ∈ s.workers.filterMap fetchingOrdinal := by
  rw [aliveVectors, List.mem_toFinset, List.mem_append, List.mem_append, or_assoc]

/-- A worker that changes its role keeps alive at most what it now fetches. -/
theorem alive_of_set {s : FetchState} {w : Nat} (new : Worker) (idle : fetchingOrdinal new = none) :
    aliveVectors { s with workers := s.workers.set w new } ⊆ aliveVectors s := by
  intro ordinal present
  rw [mem_aliveVectors] at present ⊢
  rcases present with pending | ready | fetching
  · exact .inl pending
  · exact .inr (.inl ready)
  · rcases fetching_set fetching with old | new_fetching
    · exact .inr (.inr old)
    · rw [idle] at new_fetching
      cases new_fetching

/-- The hand-out moves a reference from the queue to a worker. -/
theorem alive_of_take {s : FetchState} {w : Nat} {front : PublishedCandidates}
    {others : List PublishedCandidates} (ready : s.queue.ready = front :: others) :
    aliveVectors (takeBatch s w front others) ⊆ aliveVectors s := by
  intro ordinal present
  rw [mem_aliveVectors] at present ⊢
  rw [ready, List.map_cons, List.mem_cons]
  rcases present with pending | left | fetching
  · exact .inl pending
  · refine .inr (.inl ?_)
    simp only [takeBatch] at left
    split at left
    · exact .inr left
    · simpa using left
  · rcases fetching_set fetching with old | new_fetching
    · exact .inr (.inr old)
    · simp only [fetchingOrdinal, cutBatch, Option.some.injEq] at new_fetching
      exact .inr (.inl (.inl new_fetching.symm))

/-- PublishInOrder moves pending vectors to ready or drops them. -/
theorem publishInOrder_ordinals (ready : List PublishedCandidates) (readied : List Nat)
    (nextPublish : Nat) (pending : List (Nat × List Nat)) (ordinal : Nat)
    (present : ordinal ∈ (publishInOrder ready readied nextPublish pending).1.map
        PublishedCandidates.segmentOrdinal ∨
      ordinal ∈ (publishInOrder ready readied nextPublish pending).2.2.2.map Prod.fst) :
    ordinal ∈ ready.map PublishedCandidates.segmentOrdinal ∨ ordinal ∈ pending.map Prod.fst := by
  induction pending generalizing ready readied nextPublish with
  | nil => simpa [publishInOrder] using present
  | cons entry rest ih =>
    obtain ⟨o, rowids⟩ := entry
    rw [publishInOrder] at present
    by_cases next : o = nextPublish
    · rw [if_pos next] at present
      by_cases empty : rowids = []
      · rw [if_pos empty] at present
        rcases ih _ _ _ present with old | later
        · exact .inl old
        · exact .inr (List.mem_cons_of_mem _ later)
      · rw [if_neg empty] at present
        rcases ih _ _ _ present with old | later
        · rcases List.mem_append.mp (List.map_append ▸ old) with before | now
          · exact .inl before
          · refine .inr ?_
            simp only [List.map_cons, List.map_nil, List.mem_singleton] at now
            simp [now, next]
        · exact .inr (List.mem_cons_of_mem _ later)
    · rwa [if_neg next] at present

theorem alive_of_finish {s : FetchState} {w ordinal : Nat} (rowids : List Nat) :
    aliveVectors (finishDecode s w ordinal rowids) ⊆ insert ordinal (aliveVectors s) := by
  intro o present
  rw [mem_aliveVectors] at present
  rw [Finset.mem_insert, mem_aliveVectors]
  have published := publishInOrder_ordinals s.queue.ready s.readied s.queue.nextPublish
    (insertPending ordinal rowids s.queue.pending) o
  have inserted : o ∈ (insertPending ordinal rowids s.queue.pending).map Prod.fst →
      o = ordinal ∨ o ∈ s.queue.pending.map Prod.fst := by
    intro listed
    have perm := (insertPending_perm ordinal rowids s.queue.pending).map Prod.fst
    simpa using perm.mem_iff.mp listed
  have moved : o ∈ s.queue.ready.map PublishedCandidates.segmentOrdinal ∨
      o ∈ (insertPending ordinal rowids s.queue.pending).map Prod.fst →
      o = ordinal ∨ o ∈ s.queue.pending.map Prod.fst ∨
        o ∈ s.queue.ready.map PublishedCandidates.segmentOrdinal ∨
        o ∈ s.workers.filterMap fetchingOrdinal := by
    rintro (ready | listed)
    · exact .inr (.inr (.inl ready))
    · rcases inserted listed with here | pending
      · exact .inl here
      · exact .inr (.inl pending)
  rcases present with pending | ready | fetching
  · exact moved (published (.inr pending))
  · exact moved (published (.inl ready))
  · rcases fetching_set fetching with old | new_fetching
    · exact .inr (.inr (.inr old))
    · cases new_fetching

/-- At most so many candidate vectors are alive or being decoded. -/
def vectorLimit (maxThreads : Nat) : Nat := max 1 (2 * maxThreads - 2)

structure WithinLimit (plan : Plan) (s : FetchState) : Prop where
  ordered : Ordered plan s
  workers : s.workers.length ≤ plan.maxThreads
  vectors : s.decodingOrdinals.length + (aliveVectors s).card ≤ vectorLimit plan.maxThreads

/-- A worker claims only when nothing is ready and fewer than maxThreads
    segments are in flight, so the vectors alive then are pending or fetched
    from. Pending segments wait for one that another worker decodes. -/
theorem claim_vectors {plan : Plan} {s : FetchState} {w : Nat} (ordered : Ordered plan s)
    (workers : s.workers.length ≤ plan.maxThreads) (at_w : s.workers[w]? = some .claiming)
    (ready : s.queue.ready = []) (room : s.queue.inFlight < plan.maxThreads) :
    s.decodingOrdinals.length + 1 + (aliveVectors s).card ≤ vectorLimit plan.maxThreads := by
  have listed : (aliveVectors s).card ≤
      s.queue.pending.length + (s.workers.filterMap fetchingOrdinal).length := by
    have size := List.toFinset_card_le (s.queue.pending.map Prod.fst ++
      s.queue.ready.map PublishedCandidates.segmentOrdinal ++ s.workers.filterMap fetchingOrdinal)
    simpa [aliveVectors, ready] using size
  have roles := roles_disjoint s.workers
  have claiming : 0 < s.workers.count .claiming := List.count_pos_iff.mpr (List.mem_of_getElem? at_w)
  have counted : s.queue.decoding = s.decodingOrdinals.length := ordered.decoding
  have decoders : s.queue.inFlight ≠ 0 → 0 < s.decodingOrdinals.length := by
    intro busy
    obtain ⟨v, ordinal, at_v⟩ := in_flight_decoding ordered busy
    exact List.length_pos_of_mem (mem_decodingOrdinals at_v)
  simp only [CandidateQueue.inFlight, FetchState.decodingOrdinals] at *
  simp only [vectorLimit]
  omega

theorem decoding_set {workers : List Worker} {w : Nat} {old : Worker} (new : Worker)
    (at_w : workers[w]? = some old) :
    ((workers.set w new).filterMap decodingOrdinal).length + (decodingOrdinal old).toList.length =
      (workers.filterMap decodingOrdinal).length + (decodingOrdinal new).toList.length := by
  obtain ⟨rest, before, after⟩ := decodingOrdinals_set new at_w
  rw [before.length_eq, after.length_eq, List.length_append, List.length_append]
  omega

theorem fetch_within {plan : Plan} (s : FetchState) (w : Nat) (t : FetchState)
    (within : WithinLimit plan s) (step : fetchStep plan s w = some t) : WithinLimit plan t := by
  obtain ⟨ordered, workers, vectors⟩ := within
  refine ⟨step_ordered plan s w t ordered step, ?_, ?_⟩
  · rcases fetchStep_cases step with ⟨front, others, _, _, rfl⟩ | ⟨_, _, _, _, rfl⟩ |
      ⟨ordinal, _, rfl⟩ | ⟨batch, _, rfl⟩ | ⟨_, _, _, _, rfl⟩ | ⟨_, rfl⟩
    all_goals simpa [takeBatch, claimSegment, finishDecode] using workers
  · rcases fetchStep_cases step with ⟨front, others, at_w, ready, rfl⟩ | ⟨at_w, ready, _, room, rfl⟩ |
      ⟨ordinal, at_w, rfl⟩ | ⟨batch, at_w, rfl⟩ | ⟨at_w, _, _, _, rfl⟩ | ⟨_, rfl⟩
    · have decoding := decoding_set (.fetching (cutBatch front)) at_w
      have alive := Finset.card_le_card (alive_of_take (w := w) ready)
      simp only [decodingOrdinal, Option.toList_none, List.length_nil] at decoding
      simp only [FetchState.decodingOrdinals] at vectors
      simp only [FetchState.decodingOrdinals, takeBatch] at alive ⊢
      omega
    · have decoding := decoding_set (.decoding s.nextSegment) at_w
      have alive := Finset.card_le_card (alive_of_set (s := s) (w := w) (.decoding s.nextSegment) rfl)
      have claimed := claim_vectors ordered workers at_w ready room
      have kept : aliveVectors (claimSegment s w) =
          aliveVectors { s with workers := s.workers.set w (.decoding s.nextSegment) } := rfl
      rw [kept]
      simp only [decodingOrdinal, Option.toList_none, Option.toList_some, List.length_nil,
        List.length_singleton] at decoding
      simp only [FetchState.decodingOrdinals] at claimed
      simp only [FetchState.decodingOrdinals, claimSegment] at alive ⊢
      omega
    · have decoding := decoding_set .claiming at_w
      have alive := Finset.card_le_card (@alive_of_finish s w ordinal
        (plan.segments.getD ordinal []))
      have grown := Finset.card_insert_le ordinal (aliveVectors s)
      have moved : (finishDecode s w ordinal (plan.segments.getD ordinal [])).decodingOrdinals =
          (s.workers.set w .claiming).filterMap decodingOrdinal := rfl
      rw [moved]
      simp only [decodingOrdinal, Option.toList_none, Option.toList_some, List.length_nil,
        List.length_singleton] at decoding
      simp only [FetchState.decodingOrdinals] at vectors
      omega
    · have decoding := decoding_set .claiming at_w
      have alive := Finset.card_le_card (alive_of_set (s := s) (w := w) .claiming rfl)
      simp only [decodingOrdinal, Option.toList_none, List.length_nil] at decoding
      simp only [FetchState.decodingOrdinals] at vectors ⊢
      omega
    · have decoding := decoding_set .exhausted at_w
      have alive := Finset.card_le_card (alive_of_set (s := s) (w := w) .exhausted rfl)
      simp only [decodingOrdinal, Option.toList_none, List.length_nil] at decoding
      simp only [FetchState.decodingOrdinals] at vectors ⊢
      omega
    · exact vectors

theorem start_within {plan : Plan} {workers : Nat} (capped : workers ≤ plan.maxThreads) :
    WithinLimit plan (start workers) := by
  have idle : (start workers).decodingOrdinals = [] := by
    simp [start, FetchState.decodingOrdinals, decodingOrdinal]
  have nothing : aliveVectors (start workers) = ∅ := by
    simp [aliveVectors, start, fetchingOrdinal]
  refine ⟨start_ordered plan workers, by simpa [start] using capped, ?_⟩
  rw [idle, nothing]
  exact Nat.zero_le _

theorem run_within {plan : Plan} {traces : List (List DecodeBuffers)} {workers : Nat}
    {schedule : List Nat} {s : WorkerState} (capped : workers ≤ plan.maxThreads)
    (run : exec (workerStep plan traces) (startWorkers workers) schedule = some s) :
    WithinLimit plan s.fetch := by
  refine @exec_invariant _ _ _ (fun s : WorkerState => WithinLimit plan s.fetch) ?_ _ _ _ run
    (start_within capped)
  intro s w t within step
  rcases workerStep_fetch step with same | moved
  · rwa [same]
  · exact fetch_within s.fetch w t.fetch within moved

/-- What each trace of a plan brings to the memory bound. -/
structure TraceWithin (worker candidate : Nat) (trace : List DecodeBuffers) : Prop where
  states : ∀ state ∈ trace, state.rows * rowBytes ≤ worker
  published : publishedCapacity trace * rowBytes ≤ candidate

theorem bufferStates_within {worker candidate : Nat} {trace : List DecodeBuffers}
    (within : TraceWithin worker candidate trace) :
    ∀ state ∈ bufferStates trace, state.rows * rowBytes ≤ worker := by
  intro state present
  simp only [bufferStates, List.cons_append, List.mem_cons, List.mem_append] at present
  rcases present with rfl | inside | released
  · simp [DecodeBuffers.rows, reserveExactly]
  · exact within.states state inside
  · cases at_last : trace.getLast? with
    | none => simp [at_last] at released
    | some last =>
      obtain rfl : state = { last with postings := reserveExactly 0 } := by
        simpa [at_last] using released
      have bound := within.states last (List.mem_of_getLast? at_last)
      have fewer : ({ last with postings := reserveExactly 0 } : DecodeBuffers).rows ≤ last.rows := by
        simp only [DecodeBuffers.rows, reserveExactly]
        omega
      exact (Nat.mul_le_mul_right _ fewer).trans bound

section Bytes
variable {traces : List (List DecodeBuffers)} {worker candidate : Nat}

theorem traces_within (each : ∀ trace ∈ traces, TraceWithin worker candidate trace) (ordinal : Nat) :
    TraceWithin worker candidate (traces.getD ordinal []) := by
  rw [List.getD_eq_getElem?_getD]
  cases listed : traces[ordinal]? with
  | none => exact ⟨by simp, by simp [publishedCapacity]⟩
  | some trace => exact each trace (List.mem_of_getElem? listed)

theorem workerRows_le (each : ∀ trace ∈ traces, TraceWithin worker candidate trace)
    (place : Nat) (role : Worker) :
    workerRows traces place role * rowBytes ≤ (decodingOrdinal role).toList.length * worker := by
  cases role with
  | decoding ordinal =>
    simp only [workerRows, decodingOrdinal, Option.toList_some, List.length_singleton, Nat.one_mul]
    cases at_place : (bufferStates (traces.getD ordinal []))[place]? with
    | none => simp
    | some state =>
      exact bufferStates_within (traces_within each ordinal) state (List.mem_of_getElem? at_place)
  | claiming => simp [workerRows]
  | fetching batch => simp [workerRows]
  | exhausted => simp [workerRows]

theorem decodeRows_le (each : ∀ trace ∈ traces, TraceWithin worker candidate trace)
    (places : List Nat) (workers : List Worker) (first : Nat) :
    ((workers.zipIdx first).map fun entry =>
      workerRows traces (places.getD entry.2 0) entry.1).sum * rowBytes ≤
      (workers.filterMap decodingOrdinal).length * worker := by
  induction workers generalizing first with
  | nil => simp
  | cons role workers ih =>
    have here := workerRows_le each (places.getD first 0) role
    have later := ih (first + 1)
    have listed : ((role :: workers).filterMap decodingOrdinal).length =
        (decodingOrdinal role).toList.length + (workers.filterMap decodingOrdinal).length := by
      cases role <;> simp [List.filterMap_cons, decodingOrdinal, Nat.add_comm]
    rw [List.zipIdx_cons, List.map_cons, List.sum_cons, Nat.add_mul, listed, Nat.add_mul]
    exact Nat.add_le_add here later

theorem aliveBytes_le (each : ∀ trace ∈ traces, TraceWithin worker candidate trace)
    (alive : Finset Nat) :
    (∑ ordinal ∈ alive, publishedCapacity (traces.getD ordinal [])) * rowBytes ≤
      alive.card * candidate := by
  rw [Finset.sum_mul]
  exact Finset.sum_le_card_nsmul alive _ candidate fun ordinal _ =>
    (traces_within each ordinal).published

/-- A decode peak already pays for a vector, so the workers that are not
    decoding leave room for theirs. -/
theorem peaks_within {decoding alive threads : Nat} (workers : decoding ≤ threads)
    (some_thread : 1 ≤ threads) (limit : decoding + alive ≤ vectorLimit threads)
    (smaller : candidate ≤ worker) : decoding * worker + alive * candidate ≤
      if threads = 1 then worker else threads * worker + (threads - 2) * candidate := by
  by_cases single : threads = 1
  · subst single
    rw [if_pos rfl]
    have one : decoding + alive ≤ 1 := limit
    calc decoding * worker + alive * candidate
        ≤ decoding * worker + alive * worker := Nat.add_le_add_left (Nat.mul_le_mul_left _ smaller) _
      _ = (decoding + alive) * worker := (Nat.add_mul _ _ _).symm
      _ ≤ 1 * worker := Nat.mul_le_mul_right _ one
      _ = worker := Nat.one_mul _
  · rw [if_neg single]
    have split : alive ≤ (threads - decoding) + (threads - 2) := by
      simp only [vectorLimit] at limit
      omega
    calc decoding * worker + alive * candidate
        ≤ decoding * worker + ((threads - decoding) + (threads - 2)) * candidate :=
          Nat.add_le_add_left (Nat.mul_le_mul_right _ split) _
      _ = decoding * worker + (threads - decoding) * candidate + (threads - 2) * candidate := by
          rw [Nat.add_mul, Nat.add_assoc]
      _ ≤ decoding * worker + (threads - decoding) * worker + (threads - 2) * candidate :=
          Nat.add_le_add_right (Nat.add_le_add_left (Nat.mul_le_mul_left _ smaller) _) _
      _ = threads * worker + (threads - 2) * candidate := by
          rw [← Nat.add_mul, Nat.add_sub_cancel' workers]

end Bytes

variable {Key : Type} [DecidableEq Key]

theorem decoded_within {hwm : Int} {a : Admission} {segment : ProbeSegment}
    {trace : List DecodeBuffers} (within : DecodesWithin hwm a segment trace) :
    TraceWithin a.peakWorkerBytes a.peakCandidateBytes trace := by
  obtain ⟨bytes, _, le, states⟩ := within.states
  obtain ⟨last, at_last, small, _⟩ := within.published
  exact ⟨fun state present => (states state present).trans le, by simpa [publishedCapacity, at_last]⟩

/-- In every interleaving of the fetch workers of an admitted plan, the tracked
    bytes stay within the plan's workspace. -/
theorem tracked_bytes_within_workspace {settings : ProbeSettings}
    {chunks : Key → List (List (SegmentRow Key))} {keys : List Key} {maxGrams : Nat} {hwm : Int}
    {plan : ProbePlan Key} {fetch : Nat → Option (SegmentRow Key)}
    {traces : List (List DecodeBuffers)} {workers : Nat} {schedule : List Nat} {s : WorkerState}
    (planned : planIndexProbe settings chunks keys maxGrams hwm = .ok plan)
    (admitted : plan.admitted = true) (some_segment : plan.segments ≠ [])
    (decodes : plan.segments.mapM (decodeTrace plan fetch) = .ok traces)
    (capped : workers ≤ plan.maxThreads)
    (run : exec (workerStep (queuePlan plan.maxThreads traces) traces) (startWorkers workers) schedule =
      some s) :
    trackedBytes traces s ≤ plan.workspaceBytes ∧
    s.fetch.decodingOrdinals.length + (aliveVectors s.fetch).card ≤ vectorLimit plan.maxThreads ∧
    ∃ a, admitSegments plan.keys.length hwm settings.maxProbeRowids
        (sortManifest (manifestOf chunks 0 plan.keys)) = .ok a ∧
      plan.workspaceBytes = (if plan.maxThreads = 1 then a.peakWorkerBytes
        else plan.maxThreads * a.peakWorkerBytes + (plan.maxThreads - 2) * a.peakCandidateBytes) ∧
      List.Forall₂ (DecodesWithin hwm a) plan.segments traces := by
  obtain ⟨a, admission, threads, workspace, smaller, decoded⟩ := planned_peaks planned admitted some_segment
  have paired : List.Forall₂ (DecodesWithin hwm a) plan.segments traces := by
    refine List.forall₂_iff_get.mpr ⟨(mapM_ok decodes).length_eq, fun i left right => ?_⟩
    exact decoded _ (List.get_mem _ _) fetch _ ((List.forall₂_iff_get.mp (mapM_ok decodes)).2 i left right)
  have each : ∀ trace ∈ traces, TraceWithin a.peakWorkerBytes a.peakCandidateBytes trace := by
    intro trace present
    obtain ⟨i, right, rfl⟩ := List.mem_iff_get.mp present
    exact decoded_within ((List.forall₂_iff_get.mp paired).2 i (by rw [paired.length_eq]; exact i.2) i.2)
  have within := @run_within (queuePlan plan.maxThreads traces) _ _ _ _ capped run
  have decoding : s.fetch.decodingOrdinals.length ≤ plan.maxThreads :=
    (List.length_filterMap_le _ _).trans within.workers
  refine ⟨?_, within.vectors, a, admission, workspace, paired⟩
  calc trackedBytes traces s
      ≤ s.fetch.decodingOrdinals.length * a.peakWorkerBytes +
          (aliveVectors s.fetch).card * a.peakCandidateBytes := by
        rw [trackedBytes, trackedRows, Nat.add_mul]
        exact Nat.add_le_add (decodeRows_le each s.places s.fetch.workers 0) (aliveBytes_le each _)
    _ ≤ plan.workspaceBytes := by
        rw [workspace]
        exact peaks_within decoding threads within.vectors smaller

def twoSegments : List (SegmentRow Nat) :=
  [writtenRow 0 7 0 0 [1, 3], writtenRow 1 8 0 0 [3, 5, 9], writtenRow 2 7 1 0 [1048577, 1048578],
    writtenRow 3 8 1 0 [1048578]]

def twoSegmentsScans (key : Nat) : List (List (SegmentRow Nat)) :=
  [twoSegments.filter fun row => decide (row.gramKey = key)]

/-- The second key is the rarer one in the first segment only. -/
def twoSegmentsPlan : ProbePlan Nat :=
  let low : List ProbeDescriptor := [⟨0, 0, 1, 3, 3, 9⟩, ⟨0, 1, 0, 2, 1, 3⟩]
  let high : List ProbeDescriptor := [⟨1, 0, 3, 1, 1048578, 1048578⟩, ⟨1, 1, 2, 2, 1048577, 1048578⟩]
  ⟨1048580, [8, 7], low ++ high, [⟨0, low, [1, 0]⟩, ⟨1, high, [0, 1]⟩], 2, 2, 4, 2, 524400, true, ""⟩

def twoSegmentsTraces : List (List DecodeBuffers) :=
  [[⟨⟨[1, 3], 2⟩, ⟨[], 0⟩, ⟨[], 0⟩⟩, ⟨⟨[1, 3], 2⟩, ⟨[3, 5, 9], 3⟩, ⟨[], 0⟩⟩,
    ⟨⟨[1, 3], 2⟩, ⟨[3, 5, 9], 3⟩, ⟨[3], 2⟩⟩, ⟨⟨[3], 2⟩, ⟨[3, 5, 9], 3⟩, ⟨[], 0⟩⟩],
   [⟨⟨[1048578], 1⟩, ⟨[], 0⟩, ⟨[], 0⟩⟩, ⟨⟨[1048578], 1⟩, ⟨[1048577, 1048578], 2⟩, ⟨[], 0⟩⟩,
    ⟨⟨[1048578], 1⟩, ⟨[1048577, 1048578], 2⟩, ⟨[1048578], 1⟩⟩,
    ⟨⟨[1048578], 1⟩, ⟨[1048577, 1048578], 2⟩, ⟨[], 0⟩⟩]]

/-- Two workers hold their largest buffers at once. -/
theorem two_decodes_tracked : ∃ s,
    exec (workerStep (queuePlan 2 twoSegmentsTraces) twoSegmentsTraces) (startWorkers 2)
      [0, 1, 0, 1, 0, 1, 0, 1] = some s ∧
    trackedBytes twoSegmentsTraces s = 88 ∧
    trackedBytes twoSegmentsTraces s ≤ twoSegmentsPlan.workspaceBytes := by
  have planned : planIndexProbe roomySettings twoSegmentsScans [8, 7] 2 1048580 =
      .ok twoSegmentsPlan := by decide +kernel
  have decodes : twoSegmentsPlan.segments.mapM (decodeTrace twoSegmentsPlan (fetchFrom twoSegments)) =
      .ok twoSegmentsTraces := by decide +kernel
  have run : exec (workerStep (queuePlan 2 twoSegmentsTraces) twoSegmentsTraces) (startWorkers 2)
      [0, 1, 0, 1, 0, 1, 0, 1] =
      some ⟨⟨⟨[], [], 0, 2⟩, 2, [.decoding 0, .decoding 1], [], []⟩, [3, 3]⟩ := by decide +kernel
  exact ⟨_, run, by decide +kernel, (tracked_bytes_within_workspace planned rfl (by decide) decodes
    (Nat.le_refl 2) run).1⟩

end NgramWorkerMemory
