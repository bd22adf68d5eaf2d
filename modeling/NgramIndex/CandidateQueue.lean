import Mathlib.Data.List.Perm.Basic
import Mathlib.Data.List.Nodup
import NgramIndex.Probe
import NgramIndex.Run

/- The shared cursor over intersected segments. Fetch workers take batches of
   the front ready segment, claim and decode the next segment, and publish what
   they decoded in ordinal order. One step is one section under the queue lock,
   or one worker's return from the rows of a batch. -/
namespace NgramCandidateQueue
open LabelledRun
open NgramStorage (standardVectorSize)
open NgramProbe (rangeRowsPerFetch fetchBatchRows)
open scoped List

def rangeScanMinRows : Nat := 256
def rangeBatchRows : Nat := standardVectorSize

/-- Whether candidates [begin, end) are dense enough to range-scan. Candidates
    ascend, so the span is not negative. -/
def rangeScanPays (rowids : List Nat) (first last : Nat) : Bool :=
  decide (rangeScanMinRows ≤ last - first) &&
    decide (rowids.getD (last - 1) 0 - rowids.getD first 0 + 1 ≤ rangeRowsPerFetch * (last - first))

structure PublishedCandidates where
  segmentOrdinal : Nat
  rowids : List Nat
  nextOffset : Nat
  deriving DecidableEq, Repr

structure Batch where
  segmentOrdinal : Nat
  candidateOffset : Nat
  candidateEnd : Nat
  rangeBatch : Bool
  deriving DecidableEq, Repr

/-- A batch runs on through the candidates that share its last one's block. -/
def blockEnd (rowids : List Nat) (last : Nat) : Nat :=
  last + ((rowids.drop last).takeWhile fun r =>
    r / standardVectorSize = rowids.getD (last - 1) 0 / standardVectorSize).length

def cutBatch (front : PublishedCandidates) : Batch :=
  let size := front.rowids.length
  let rangeEnd := min (front.nextOffset + rangeBatchRows) size
  let range := rangeScanPays front.rowids front.nextOffset rangeEnd
  let candidateEnd := if range then rangeEnd else min (front.nextOffset + fetchBatchRows) size
  { segmentOrdinal := front.segmentOrdinal
    candidateOffset := front.nextOffset
    candidateEnd := blockEnd front.rowids candidateEnd
    rangeBatch := range }

structure CandidateQueue where
  ready : List PublishedCandidates
  pending : List (Nat × List Nat)
  nextPublish : Nat
  decoding : Nat
  deriving DecidableEq, Repr

inductive Worker where
  | claiming
  | fetching (batch : Batch)
  | decoding (ordinal : Nat)
  | exhausted
  deriving DecidableEq, Repr

/-- The plan as the queue sees it: what each segment decodes to. -/
structure Plan where
  segments : List (List Nat)
  maxThreads : Nat
  deriving DecidableEq, Repr

/-- The queue, the plan's claim counter and the workers. The logs record every
    batch handed out and every segment that became ready, in order. -/
structure FetchState where
  queue : CandidateQueue
  nextSegment : Nat
  workers : List Worker
  handed : List (Nat × Batch)
  readied : List Nat
  deriving DecidableEq, Repr

def start (workers : Nat) : FetchState where
  queue := ⟨[], [], 0, 0⟩
  nextSegment := 0
  workers := List.replicate workers .claiming
  handed := []
  readied := []

def CandidateQueue.inFlight (queue : CandidateQueue) : Nat := queue.decoding + queue.pending.length

/-- map::emplace keeps pending in ordinal order. -/
def insertPending (ordinal : Nat) (rowids : List Nat) : List (Nat × List Nat) → List (Nat × List Nat)
  | [] => [(ordinal, rowids)]
  | entry :: rest =>
      if ordinal < entry.1 then (ordinal, rowids) :: entry :: rest
      else entry :: insertPending ordinal rowids rest

/-- PublishInOrder, by recursion on what is pending. -/
def publishInOrder (ready : List PublishedCandidates) (readied : List Nat) (nextPublish : Nat) :
    List (Nat × List Nat) → List PublishedCandidates × List Nat × Nat × List (Nat × List Nat)
  | [] => (ready, readied, nextPublish, [])
  | (ordinal, rowids) :: rest =>
      if ordinal = nextPublish then
        if rowids = [] then publishInOrder ready readied (nextPublish + 1) rest
        else publishInOrder (ready ++ [⟨nextPublish, rowids, 0⟩]) (readied ++ [nextPublish])
          (nextPublish + 1) rest
      else (ready, readied, nextPublish, (ordinal, rowids) :: rest)

def takeBatch (s : FetchState) (w : Nat) (front : PublishedCandidates)
    (others : List PublishedCandidates) : FetchState :=
  let batch := cutBatch front
  let ready :=
    if front.rowids.length ≤ batch.candidateEnd then others
    else { front with nextOffset := batch.candidateEnd } :: others
  { s with
    queue := { s.queue with ready := ready }
    workers := s.workers.set w (.fetching batch)
    handed := s.handed ++ [(w, batch)] }

def claimSegment (s : FetchState) (w : Nat) : FetchState :=
  { s with
    queue := { s.queue with decoding := s.queue.decoding + 1 }
    nextSegment := s.nextSegment + 1
    workers := s.workers.set w (.decoding s.nextSegment) }

def finishDecode (s : FetchState) (w ordinal : Nat) (rowids : List Nat) : FetchState :=
  let (ready, readied, nextPublish, pending) := publishInOrder s.queue.ready s.readied
    s.queue.nextPublish (insertPending ordinal rowids s.queue.pending)
  { s with
    queue := ⟨ready, pending, nextPublish, s.queue.decoding - 1⟩
    workers := s.workers.set w .claiming
    readied := readied }

inductive Action where
  | take
  | claim
  | publish
  | release
  | exhaust
  | wait
  deriving DecidableEq, Repr

def action (plan : Plan) (s : FetchState) : Worker → Option Action
  | .exhausted => none
  | .fetching _ => some .release
  | .decoding _ => some .publish
  | .claiming =>
      if s.queue.ready ≠ [] then some .take
      else if s.queue.inFlight = 0 ∧ ¬ s.nextSegment < plan.segments.length then some .exhaust
      else if ¬ s.nextSegment < plan.segments.length ∨ plan.maxThreads ≤ s.queue.inFlight then
        some .wait
      else some .claim

def applyAction (plan : Plan) (s : FetchState) (w : Nat) (worker : Worker) : Action → FetchState
  | .take =>
      match s.queue.ready with
      | [] => s
      | front :: others => takeBatch s w front others
  | .claim => claimSegment s w
  | .publish =>
      match worker with
      | .decoding ordinal => finishDecode s w ordinal (plan.segments.getD ordinal [])
      | _ => s
  | .release => { s with workers := s.workers.set w .claiming }
  | .exhaust => { s with workers := s.workers.set w .exhausted }
  | .wait => s

/-- The label of a step is the worker that runs, so a run is an interleaving. -/
def fetchStep (plan : Plan) (s : FetchState) (w : Nat) : Option FetchState :=
  match s.workers[w]? with
  | none => none
  | some worker => (action plan s worker).map (applyAction plan s w worker)

/-- Everything one step can do, with the guards it passed. -/
theorem fetchStep_cases {plan : Plan} {s t : FetchState} {w : Nat}
    (step : fetchStep plan s w = some t) :
    (∃ front others, s.workers[w]? = some .claiming ∧ s.queue.ready = front :: others ∧
      t = takeBatch s w front others) ∨
    (s.workers[w]? = some .claiming ∧ s.queue.ready = [] ∧
      s.nextSegment < plan.segments.length ∧ s.queue.inFlight < plan.maxThreads ∧
      t = claimSegment s w) ∨
    (∃ ordinal, s.workers[w]? = some (.decoding ordinal) ∧
      t = finishDecode s w ordinal (plan.segments.getD ordinal [])) ∨
    (∃ batch, s.workers[w]? = some (.fetching batch) ∧
      t = { s with workers := s.workers.set w .claiming }) ∨
    (s.workers[w]? = some .claiming ∧ s.queue.ready = [] ∧ s.queue.inFlight = 0 ∧
      plan.segments.length ≤ s.nextSegment ∧
      t = { s with workers := s.workers.set w .exhausted }) ∨
    (s.workers[w]? = some .claiming ∧ t = s) := by
  simp only [fetchStep] at step
  cases at_w : s.workers[w]? with
  | none => simp [at_w] at step
  | some worker =>
    simp only [at_w] at step
    cases worker with
    | exhausted => simp [action] at step
    | fetching batch =>
      simp only [action, applyAction, Option.map_some, Option.some.injEq] at step
      exact Or.inr (Or.inr (Or.inr (Or.inl ⟨batch, rfl, step.symm⟩)))
    | decoding ordinal =>
      simp only [action, applyAction, Option.map_some, Option.some.injEq] at step
      exact Or.inr (Or.inr (Or.inl ⟨ordinal, rfl, step.symm⟩))
    | claiming =>
      simp only [action] at step
      split at step
      · rename_i some_ready
        obtain ⟨front, others, ready⟩ := List.exists_cons_of_ne_nil some_ready
        simp only [applyAction, ready, Option.map_some, Option.some.injEq] at step
        exact Or.inl ⟨front, others, rfl, ready, step.symm⟩
      · rename_i none_ready
        have empty : s.queue.ready = [] := not_not.mp none_ready
        split at step
        · rename_i done
          simp only [applyAction, Option.map_some, Option.some.injEq] at step
          exact Or.inr (Or.inr (Or.inr (Or.inr (Or.inl
            ⟨rfl, empty, done.1, Nat.le_of_not_lt done.2, step.symm⟩))))
        · split at step
          · simp only [applyAction, Option.map_some, Option.some.injEq] at step
            exact Or.inr (Or.inr (Or.inr (Or.inr (Or.inr ⟨rfl, step.symm⟩))))
          · rename_i room
            simp only [applyAction, Option.map_some, Option.some.injEq] at step
            have unclaimed : s.nextSegment < plan.segments.length := by
              by_contra none_left
              exact room (Or.inl none_left)
            exact Or.inr (Or.inl ⟨rfl, empty, unclaimed, by omega, step.symm⟩)

theorem blockEnd_bounds {rowids : List Nat} {last : Nat} (inside : last ≤ rowids.length) :
    last ≤ blockEnd rowids last ∧ blockEnd rowids last ≤ rowids.length := by
  have short := ( List.takeWhile_prefix (l := rowids.drop last) fun r => decide
    (r / standardVectorSize = rowids.getD (last - 1) 0 / standardVectorSize)).length_le
  rw [List.length_drop] at short
  simp only [blockEnd]
  omega

theorem cutBatch_bounds {front : PublishedCandidates} (unread : front.nextOffset < front.rowids.length) :
    front.nextOffset < (cutBatch front).candidateEnd ∧
      (cutBatch front).candidateEnd ≤ front.rowids.length := by
  simp only [cutBatch]
  split
  · have bounds := @blockEnd_bounds front.rowids
      (min (front.nextOffset + rangeBatchRows) front.rowids.length) (by omega)
    simp only [rangeBatchRows, standardVectorSize] at bounds ⊢
    omega
  · have bounds := @blockEnd_bounds front.rowids
      (min (front.nextOffset + fetchBatchRows) front.rowids.length) (by omega)
    simp only [fetchBatchRows] at bounds ⊢
    omega

/-- The candidates of one segment between two offsets, by place rather than by
    value. -/
def positions (ordinal first last : Nat) : List (Nat × Nat) :=
  (List.range' first (last - first)).map fun i => (ordinal, i)

theorem positions_append {ordinal first middle last : Nat} (left : first ≤ middle)
    (right : middle ≤ last) : positions ordinal first middle ++ positions ordinal middle last =
      positions ordinal first last := by
  have split : last - first = (middle - first) + (last - middle) := by omega
  have reach : first + (middle - first) = middle := by omega
  simp only [positions, split, ← List.map_append, ← List.range'_append_1, reach]

def Plan.candidates (plan : Plan) (ordinal : Nat) : List Nat := plan.segments.getD ordinal []

/-- Every candidate of the first count segments, in segment and list order. -/
def Plan.positions (plan : Plan) (ordinals : List Nat) : List (Nat × Nat) :=
  ordinals.flatMap fun o => NgramCandidateQueue.positions o 0 (plan.candidates o).length

def Batch.positions (batch : Batch) : List (Nat × Nat) :=
  NgramCandidateQueue.positions batch.segmentOrdinal batch.candidateOffset batch.candidateEnd

def PublishedCandidates.remaining (entry : PublishedCandidates) : List (Nat × Nat) :=
  positions entry.segmentOrdinal entry.nextOffset entry.rowids.length

def FetchState.handedPositions (s : FetchState) : List (Nat × Nat) :=
  s.handed.flatMap fun entry => entry.2.positions

def decodingOrdinal : Worker → Option Nat
  | .decoding ordinal => some ordinal
  | _ => none

def FetchState.decodingOrdinals (s : FetchState) : List Nat := s.workers.filterMap decodingOrdinal

def Plan.nonempty (plan : Plan) (ordinal : Nat) : Bool := decide (plan.candidates ordinal ≠ [])

structure Ordered (plan : Plan) (s : FetchState) : Prop where
  claimed : s.nextSegment ≤ plan.segments.length
  published : s.queue.nextPublish ≤ s.nextSegment
  decoding : s.queue.decoding = s.decodingOrdinals.length
  -- What is claimed and not published is pending or being decoded, once each.
  in_flight : (s.queue.pending.map Prod.fst ++ s.decodingOrdinals).Perm
    (List.range' s.queue.nextPublish (s.nextSegment - s.queue.nextPublish))
  pending_sorted : s.queue.pending.Pairwise fun a b => a.1 < b.1
  pending_waits : ∀ entry ∈ s.queue.pending, s.queue.nextPublish < entry.1
  pending_decoded : ∀ entry ∈ s.queue.pending, entry.2 = plan.candidates entry.1
  ready_decoded : ∀ entry ∈ s.queue.ready, entry.rowids = plan.candidates entry.segmentOrdinal ∧
    entry.nextOffset < entry.rowids.length
  covered : s.handedPositions ++ s.queue.ready.flatMap PublishedCandidates.remaining =
    plan.positions (List.range s.queue.nextPublish)
  readied : s.readied = (List.range s.queue.nextPublish).filter plan.nonempty

/-- What PublishInOrder does with pending entries that were decoded right. -/
structure Publishes (plan : Plan) (shelf : List PublishedCandidates) (log : List Nat) (first : Nat)
    (entries : List (Nat × List Nat))
    (result : List PublishedCandidates × List Nat × Nat × List (Nat × List Nat)) (count : Nat) :
    Prop where
  nextPublish : result.2.2.1 = first + count
  pending : entries.map Prod.fst = List.range' first count ++ result.2.2.2.map Prod.fst
  suffix : result.2.2.2 <:+ entries
  waits : ∀ entry ∈ result.2.2.2, first + count < entry.1
  ready : ∃ added, result.1 = shelf ++ added ∧
    (∀ entry ∈ added, entry.rowids = plan.candidates entry.segmentOrdinal ∧
      entry.nextOffset < entry.rowids.length) ∧
    added.flatMap PublishedCandidates.remaining = plan.positions (List.range' first count)
  readied : result.2.1 = log ++ (List.range' first count).filter plan.nonempty

theorem publishInOrder_spec (plan : Plan) (pending : List (Nat × List Nat))
    (ready : List PublishedCandidates) (readied : List Nat) (nextPublish : Nat)
    (sorted : pending.Pairwise fun a b => a.1 < b.1) (low : ∀ entry ∈ pending, nextPublish ≤ entry.1)
    (decoded : ∀ entry ∈ pending, entry.2 = plan.candidates entry.1) :
    ∃ count, Publishes plan ready readied nextPublish pending
      (publishInOrder ready readied nextPublish pending) count := by
  induction pending generalizing ready readied nextPublish with
  | nil =>
    exact ⟨0, ⟨rfl, rfl, List.suffix_refl _, by simp [publishInOrder],
      ⟨[], by simp [publishInOrder, Plan.positions]⟩, by simp [publishInOrder]⟩⟩
  | cons entry rest ih =>
    obtain ⟨ordinal, rowids⟩ := entry
    obtain ⟨above, rest_sorted⟩ := List.pairwise_cons.mp sorted
    rw [publishInOrder]
    by_cases next : ordinal = nextPublish
    · subst next
      have rowids_eq : rowids = plan.candidates ordinal := decoded (ordinal, rowids) (by simp)
      have rest_low : ∀ entry ∈ rest, ordinal + 1 ≤ entry.1 := fun entry present => above entry present
      have rest_decoded : ∀ entry ∈ rest, entry.2 = plan.candidates entry.1 :=
        fun entry present => decoded entry (by simp [present])
      rw [if_pos rfl]
      by_cases empty : rowids = []
      · rw [if_pos empty]
        have none_listed : plan.candidates ordinal = [] := rowids_eq.symm.trans empty
        obtain ⟨count, spec⟩ := ih ready readied (ordinal + 1) rest_sorted rest_low rest_decoded
        obtain ⟨added, ready_eq, added_decoded, added_positions⟩ := spec.ready
        refine ⟨count + 1, ⟨by have next := spec.nextPublish; omega, ?_,
          spec.suffix.trans (List.suffix_cons _ _), ?_, ⟨added, ready_eq, added_decoded, ?_⟩, ?_⟩⟩
        · simp [List.range'_succ, spec.pending]
        · intro entry present
          have waits := spec.waits entry present
          omega
        · simp [added_positions, Plan.positions, List.range'_succ, none_listed, positions]
        · simp [spec.readied, List.range'_succ, Plan.nonempty, none_listed]
      · rw [if_neg empty]
        have some_listed : plan.candidates ordinal ≠ [] := fun h => empty (rowids_eq.trans h)
        obtain ⟨count, spec⟩ := ih (ready ++ [⟨ordinal, rowids, 0⟩]) (readied ++ [ordinal])
          (ordinal + 1) rest_sorted rest_low rest_decoded
        obtain ⟨added, ready_eq, added_decoded, added_positions⟩ := spec.ready
        refine ⟨count + 1, ⟨by have next := spec.nextPublish; omega, ?_,
          spec.suffix.trans (List.suffix_cons _ _), ?_,
          ⟨⟨ordinal, rowids, 0⟩ :: added, by simp [ready_eq], ?_, ?_⟩, ?_⟩⟩
        · simp [List.range'_succ, spec.pending]
        · intro entry present
          have waits := spec.waits entry present
          omega
        · intro entry present
          rcases List.mem_cons.mp present with rfl | later
          · exact ⟨rowids_eq, List.length_pos_of_ne_nil empty⟩
          · exact added_decoded entry later
        · simp [added_positions, Plan.positions, List.range'_succ, PublishedCandidates.remaining,
            rowids_eq]
        · simp [spec.readied, List.range'_succ, Plan.nonempty, some_listed]
    · rw [if_neg next]
      have first_low := low (ordinal, rowids) (by simp)
      refine ⟨0, ⟨rfl, rfl, List.suffix_refl _, ?_, ⟨[], by simp [Plan.positions]⟩, by simp⟩⟩
      intro entry present
      rcases List.mem_cons.mp present with rfl | later
      · simp only at first_low ⊢
        omega
      · have higher := above entry later
        simp only at higher first_low
        omega

theorem insertPending_perm (ordinal : Nat) (rowids : List Nat) (pending : List (Nat × List Nat)) :
    (insertPending ordinal rowids pending).Perm ((ordinal, rowids) :: pending) := by
  induction pending with
  | nil => exact List.Perm.refl _
  | cons entry rest ih =>
    rw [insertPending]
    split
    · exact List.Perm.refl _
    · exact (ih.cons entry).trans (List.Perm.swap _ _ _)

theorem insertPending_sorted {ordinal : Nat} {rowids : List Nat} {pending : List (Nat × List Nat)}
    (sorted : pending.Pairwise fun a b => a.1 < b.1) (fresh : ∀ entry ∈ pending, entry.1 ≠ ordinal) :
    (insertPending ordinal rowids pending).Pairwise fun a b => a.1 < b.1 := by
  induction pending with
  | nil => simp [insertPending]
  | cons entry rest ih =>
    obtain ⟨above, rest_sorted⟩ := List.pairwise_cons.mp sorted
    have other := fresh entry (by simp)
    rw [insertPending]
    split
    · rename_i below
      refine List.pairwise_cons.mpr ⟨fun later present => ?_, sorted⟩
      rcases List.mem_cons.mp present with rfl | later_present
      · exact below
      · have higher := above later later_present
        simp only
        omega
    · refine List.pairwise_cons.mpr ⟨fun later present => ?_,
        ih rest_sorted fun e he => fresh e (by simp [he])⟩
      rcases List.mem_cons.mp ((insertPending_perm ordinal rowids rest).mem_iff.mp present) with
        rfl | later_present
      · simp only
        omega
      · exact above later later_present

theorem decodingOrdinals_set {workers : List Worker} {w : Nat} {old : Worker} (new : Worker)
    (at_w : workers[w]? = some old) :
    ∃ rest, (workers.filterMap decodingOrdinal).Perm ((decodingOrdinal old).toList ++ rest) ∧
      ((workers.set w new).filterMap decodingOrdinal).Perm ((decodingOrdinal new).toList ++ rest) := by
  obtain ⟨inside, rfl⟩ := List.getElem?_eq_some_iff.mp at_w
  refine ⟨(workers.eraseIdx w).filterMap decodingOrdinal, ?_, ?_⟩
  · have perm := (List.getElem_cons_eraseIdx_perm inside).symm.filterMap decodingOrdinal
    cases listed : decodingOrdinal workers[w] <;> simpa [listed] using perm
  · have perm := (List.set_perm_cons_eraseIdx inside new).filterMap decodingOrdinal
    cases listed : decodingOrdinal new <;> simpa [listed] using perm

theorem decodingOrdinals_kept {workers : List Worker} {w : Nat} {old : Worker} (new : Worker)
    (at_w : workers[w]? = some old) (idle : decodingOrdinal old = none)
    (still : decodingOrdinal new = none) :
    ((workers.set w new).filterMap decodingOrdinal).Perm (workers.filterMap decodingOrdinal) := by
  obtain ⟨rest, before, after⟩ := decodingOrdinals_set new at_w
  rw [idle] at before
  rw [still] at after
  exact after.trans before.symm

/-- A step that only moves an idle worker keeps the queue's accounting. -/
theorem idle_step {plan : Plan} {s : FetchState} {w : Nat} {old : Worker} (new : Worker)
    (ordered : Ordered plan s) (at_w : s.workers[w]? = some old) (idle : decodingOrdinal old = none)
    (still : decodingOrdinal new = none) : Ordered plan { s with workers := s.workers.set w new } := by
  have perm := decodingOrdinals_kept new at_w idle still
  refine ⟨ordered.claimed, ordered.published, ?_, ?_, ordered.pending_sorted, ordered.pending_waits,
    ordered.pending_decoded, ordered.ready_decoded, ordered.covered, ordered.readied⟩
  · exact ordered.decoding.trans perm.length_eq.symm
  · exact (perm.append_left _).trans ordered.in_flight

theorem plan_positions_append (plan : Plan) (a b : List Nat) :
    plan.positions (a ++ b) = plan.positions a ++ plan.positions b := by
  simp [Plan.positions]

theorem take_step {plan : Plan} {s : FetchState} {w : Nat} {front : PublishedCandidates}
    {others : List PublishedCandidates} (ordered : Ordered plan s)
    (at_w : s.workers[w]? = some .claiming) (ready : s.queue.ready = front :: others) :
    Ordered plan (takeBatch s w front others) := by
  have moved := idle_step (.fetching (cutBatch front)) ordered at_w rfl rfl
  obtain ⟨rowids_eq, unread⟩ := ordered.ready_decoded front (by simp [ready])
  obtain ⟨forward, inside⟩ := cutBatch_bounds unread
  have split : (cutBatch front).positions ++
      positions front.segmentOrdinal (cutBatch front).candidateEnd front.rowids.length =
        front.remaining :=
    positions_append (Nat.le_of_lt forward) inside
  refine ⟨moved.claimed, moved.published, moved.decoding, moved.in_flight, moved.pending_sorted,
    moved.pending_waits, moved.pending_decoded, ?_, ?_, moved.readied⟩
  · intro entry present
    simp only [takeBatch] at present
    split at present
    · exact ordered.ready_decoded entry (by simp [ready, present])
    · rename_i left_over
      rcases List.mem_cons.mp present with rfl | later
      · exact ⟨rowids_eq, by simp only; omega⟩
      · exact ordered.ready_decoded entry (by simp [ready, later])
  · have covered := ordered.covered
    rw [ready, List.flatMap_cons, ← split] at covered
    simp only [FetchState.handedPositions, takeBatch, List.flatMap_append, List.flatMap_cons,
      List.flatMap_nil, List.append_nil] at covered ⊢
    rw [← covered]
    split
    · rename_i used_up
      have nothing : positions front.segmentOrdinal (cutBatch front).candidateEnd
          front.rowids.length = [] := by
        have exact_end : front.rowids.length - (cutBatch front).candidateEnd = 0 := by omega
        simp [positions, exact_end]
      rw [nothing]
      simp
    · simp [PublishedCandidates.remaining]

theorem claim_step {plan : Plan} {s : FetchState} {w : Nat} (ordered : Ordered plan s)
    (at_w : s.workers[w]? = some .claiming) (unclaimed : s.nextSegment < plan.segments.length) :
    Ordered plan (claimSegment s w) := by
  obtain ⟨rest, before, after⟩ := decodingOrdinals_set (.decoding s.nextSegment) at_w
  have before' : s.decodingOrdinals.Perm rest := before
  have published := ordered.published
  refine ⟨unclaimed, by simp only [claimSegment]; omega, ?_, ?_, ordered.pending_sorted,
    ordered.pending_waits, ordered.pending_decoded, ordered.ready_decoded, ordered.covered,
    ordered.readied⟩
  · have added := after.length_eq
    have same := before'.length_eq
    have counted := ordered.decoding
    simp only [decodingOrdinal, Option.toList_some, List.length_append, List.length_singleton] at added
    simp only [claimSegment, FetchState.decodingOrdinals]
    omega
  · have grown : s.nextSegment + 1 - s.queue.nextPublish =
        (s.nextSegment - s.queue.nextPublish) + 1 := by omega
    have reach : s.queue.nextPublish + (s.nextSegment - s.queue.nextPublish) = s.nextSegment := by omega
    simp only [claimSegment, FetchState.decodingOrdinals, grown, List.range'_1_concat, reach]
    calc s.queue.pending.map Prod.fst ++ (s.workers.set w (.decoding s.nextSegment)).filterMap
          decodingOrdinal
        ~ s.queue.pending.map Prod.fst ++ ([s.nextSegment] ++ rest) := after.append_left _
      _ ~ (s.queue.pending.map Prod.fst ++ s.decodingOrdinals) ++ [s.nextSegment] := by
        rw [List.append_assoc]
        exact (List.perm_append_comm.trans (before'.symm.append_right _)).append_left _
      _ ~ _ := ordered.in_flight.append_right _

theorem range_append_range' (first count : Nat) :
    List.range first ++ List.range' first count = List.range (first + count) := by
  have split := @List.range'_append_1 0 first count
  rw [Nat.zero_add] at split
  rw [List.range_eq_range', List.range_eq_range', split]

theorem finish_step {plan : Plan} {s : FetchState} {w ordinal : Nat} (ordered : Ordered plan s)
    (at_w : s.workers[w]? = some (.decoding ordinal)) :
    Ordered plan (finishDecode s w ordinal (plan.candidates ordinal)) := by
  obtain ⟨rest, before, after⟩ := decodingOrdinals_set .claiming at_w
  have before' : s.decodingOrdinals ~ ordinal :: rest := before
  have after' : (s.workers.set w .claiming).filterMap decodingOrdinal ~ rest := after
  have inserted := insertPending_perm ordinal (plan.candidates ordinal) s.queue.pending
  -- The finished ordinal moves from the decoding side to the pending side.
  have accounted : (insertPending ordinal (plan.candidates ordinal) s.queue.pending).map Prod.fst ++ rest ~
      List.range' s.queue.nextPublish (s.nextSegment - s.queue.nextPublish) := by
    calc (insertPending ordinal (plan.candidates ordinal) s.queue.pending).map Prod.fst ++ rest
        ~ (ordinal :: s.queue.pending.map Prod.fst) ++ rest := (inserted.map Prod.fst).append_right _
      _ ~ s.queue.pending.map Prod.fst ++ (ordinal :: rest) := List.perm_middle.symm
      _ ~ s.queue.pending.map Prod.fst ++ s.decodingOrdinals := before'.symm.append_left _
      _ ~ _ := ordered.in_flight
  have distinct := ordered.in_flight.nodup_iff.mpr List.nodup_range'
  have fresh : ∀ entry ∈ s.queue.pending, entry.1 ≠ ordinal := by
    intro entry present same
    refine (List.nodup_append.mp distinct).2.2 entry.1 (List.mem_map_of_mem present) ordinal ?_ same
    exact before'.mem_iff.mpr (by simp)
  have low : ∀ entry ∈ insertPending ordinal (plan.candidates ordinal) s.queue.pending,
      s.queue.nextPublish ≤ entry.1 := by
    intro entry present
    have listed := accounted.mem_iff.mp (List.mem_append_left rest (List.mem_map_of_mem present))
    exact (List.mem_range'_1.mp listed).1
  have decoded : ∀ entry ∈ insertPending ordinal (plan.candidates ordinal) s.queue.pending,
      entry.2 = plan.candidates entry.1 := by
    intro entry present
    rcases List.mem_cons.mp (inserted.mem_iff.mp present) with rfl | old
    · rfl
    · exact ordered.pending_decoded entry old
  obtain ⟨count, spec⟩ := publishInOrder_spec plan _ s.queue.ready s.readied s.queue.nextPublish
    (insertPending_sorted ordered.pending_sorted fresh) low decoded
  obtain ⟨added, ready_eq, added_decoded, added_positions⟩ := spec.ready
  have advanced := spec.nextPublish
  have listed := spec.pending
  have count_le : count ≤ s.nextSegment - s.queue.nextPublish := by
    have total := accounted.length_eq
    rw [spec.pending] at total
    simp only [List.length_append, List.length_range'] at total
    omega
  have published := ordered.published
  have finished : finishDecode s w ordinal (plan.candidates ordinal) =
      { s with
        queue := ⟨_, _, _, s.queue.decoding - 1⟩
        workers := s.workers.set w .claiming
        readied := _ } := rfl
  rw [finished]
  refine ⟨ordered.claimed, ?_, ?_, ?_, ?_, ?_, ?_, ?_, ?_, ?_⟩
  · simp only [advanced]
    omega
  · have total := before'.length_eq
    have left := after'.length_eq
    have counted := ordered.decoding
    simp only [List.length_cons] at total
    simp only [FetchState.decodingOrdinals] at counted total ⊢
    omega
  · have whole := accounted
    have cut : s.nextSegment - s.queue.nextPublish =
        count + (s.nextSegment - (s.queue.nextPublish + count)) := by omega
    rw [spec.pending, cut, ← List.range'_append_1, List.append_assoc,
      List.perm_append_left_iff] at whole
    simp only [advanced, FetchState.decodingOrdinals]
    exact (after'.append_left _).trans whole
  · exact (insertPending_sorted ordered.pending_sorted fresh).sublist spec.suffix.sublist
  · simp only [advanced]
    exact spec.waits
  · intro entry present
    exact decoded entry (spec.suffix.subset present)
  · intro entry present
    simp only [ready_eq] at present
    rcases List.mem_append.mp present with old | new
    · exact ordered.ready_decoded entry old
    · exact added_decoded entry new
  · simp only [ready_eq, advanced, List.flatMap_append, added_positions]
    have old := ordered.covered
    simp only [FetchState.handedPositions] at old ⊢
    rw [← List.append_assoc, old, ← plan_positions_append, range_append_range']
  · have old := ordered.readied
    simp only [spec.readied, advanced]
    rw [old, ← List.filter_append, range_append_range']

theorem start_ordered (plan : Plan) (workers : Nat) : Ordered plan (start workers) := by
  have idle : (start workers).decodingOrdinals = [] := by
    simp [start, FetchState.decodingOrdinals, decodingOrdinal]
  refine ⟨by simp [start], by simp [start], ?_, ?_, by simp [start], by simp [start],
    by simp [start], by simp [start], ?_, by simp [start]⟩
  · rw [idle]
    rfl
  · rw [idle]
    simp [start]
  · simp [start, FetchState.handedPositions, Plan.positions]

theorem step_ordered (plan : Plan) (s : FetchState) (w : Nat) (t : FetchState)
    (ordered : Ordered plan s) (step : fetchStep plan s w = some t) : Ordered plan t := by
  rcases fetchStep_cases step with ⟨front, others, at_w, ready, rfl⟩ |
    ⟨at_w, _, unclaimed, _, rfl⟩ | ⟨ordinal, at_w, rfl⟩ | ⟨batch, at_w, rfl⟩ |
    ⟨at_w, _, _, _, rfl⟩ | ⟨_, rfl⟩
  · exact take_step ordered at_w ready
  · exact claim_step ordered at_w unclaimed
  · exact finish_step ordered at_w
  · exact idle_step .claiming ordered at_w rfl rfl
  · exact idle_step .exhausted ordered at_w rfl rfl
  · exact ordered

theorem run_ordered {plan : Plan} {workers : Nat} {schedule : List Nat} {s : FetchState}
    (run : exec (fetchStep plan) (start workers) schedule = some s) : Ordered plan s :=
  exec_invariant (step_ordered plan) run (start_ordered plan workers)

theorem plan_positions_nodup (plan : Plan) (count : Nat) : (plan.positions (List.range count)).Nodup := by
  refine List.nodup_flatMap.mpr ⟨fun ordinal _ => ?_, ?_⟩
  · exact List.Nodup.map (fun a b same => (Prod.mk.inj same).2) List.nodup_range'
  · refine List.nodup_range.imp fun {a b} differ => ?_
    intro place left right
    simp only [positions, List.mem_map] at left right
    obtain ⟨_, _, rfl⟩ := left
    obtain ⟨_, _, same⟩ := right
    exact differ (Prod.mk.inj same).1.symm

/-- In a list of batches without a repeated candidate, a candidate lies in one
    batch only. -/
theorem one_batch {entries : List (Nat × Batch)} {place : Nat × Nat}
    (distinct : (entries.flatMap fun entry => entry.2.positions).Nodup)
    (handed : place ∈ entries.flatMap fun entry => entry.2.positions) :
    ∃! k : Nat, ∃ entry, entries[k]? = some entry ∧ place ∈ entry.2.positions := by
  obtain ⟨entry, present, inside⟩ := List.mem_flatMap.mp handed
  obtain ⟨k, bound, rfl⟩ := List.getElem_of_mem present
  refine ⟨k, ⟨entries[k], List.getElem?_eq_getElem bound, inside⟩, ?_⟩
  rintro j ⟨other, at_j, other_inside⟩
  obtain ⟨j_bound, rfl⟩ := List.getElem?_eq_some_iff.mp at_j
  have apart := List.pairwise_iff_getElem.mp (List.nodup_flatMap.mp distinct).2
  rcases Nat.lt_trichotomy j k with below | same | above
  · exact absurd inside (apart j k j_bound bound below other_inside)
  · exact same
  · exact absurd other_inside (apart k j bound j_bound above inside)

def FetchState.drained (plan : Plan) (s : FetchState) : Prop :=
  s.queue.nextPublish = plan.segments.length ∧ s.queue.ready = []

theorem inFlight_eq {plan : Plan} {s : FetchState} (ordered : Ordered plan s) :
    s.queue.inFlight = s.nextSegment - s.queue.nextPublish := by
  have total := ordered.in_flight.length_eq
  have counted := ordered.decoding
  simp only [List.length_append, List.length_map, List.length_range'] at total
  simp only [CandidateQueue.inFlight]
  omega

theorem nothing_left_drained {plan : Plan} {s : FetchState} (ordered : Ordered plan s)
    (ready : s.queue.ready = []) (idle : s.queue.inFlight = 0)
    (claimed : plan.segments.length ≤ s.nextSegment) : s.drained plan := by
  have in_flight := inFlight_eq ordered
  have bound := ordered.claimed
  have published := ordered.published
  exact ⟨by omega, ready⟩

theorem drained_idle {plan : Plan} {s : FetchState} (ordered : Ordered plan s)
    (drained : s.drained plan) : s.queue.inFlight = 0 ∧ s.decodingOrdinals = [] := by
  have in_flight := inFlight_eq ordered
  have bound := ordered.claimed
  have counted := ordered.decoding
  have all := drained.1
  have none_in_flight : s.queue.inFlight = 0 := by omega
  refine ⟨none_in_flight, List.eq_nil_of_length_eq_zero ?_⟩
  simp only [CandidateQueue.inFlight] at none_in_flight
  omega

theorem drained_handed {plan : Plan} {s : FetchState} (ordered : Ordered plan s)
    (drained : s.drained plan) :
    s.handedPositions = plan.positions (List.range plan.segments.length) := by
  have covered := ordered.covered
  rwa [drained.1, drained.2, List.flatMap_nil, List.append_nil] at covered

theorem handed_initial {plan : Plan} {s : FetchState} (ordered : Ordered plan s) :
    s.handedPositions <+: plan.positions (List.range plan.segments.length) := by
  have reach : plan.segments.length =
      s.queue.nextPublish + (plan.segments.length - s.queue.nextPublish) := by
    have published := ordered.published
    have claimed := ordered.claimed
    omega
  rw [reach, ← range_append_range', plan_positions_append, ← ordered.covered, List.append_assoc]
  exact List.prefix_append _ _

theorem mem_decodingOrdinals {s : FetchState} {w ordinal : Nat}
    (at_w : s.workers[w]? = some (.decoding ordinal)) : ordinal ∈ s.decodingOrdinals :=
  List.mem_filterMap.mpr ⟨_, List.mem_of_getElem? at_w, rfl⟩

theorem step_drained {plan : Plan} {s t : FetchState} {w : Nat} (ordered : Ordered plan s)
    (drained : s.drained plan) (step : fetchStep plan s w = some t) : t.drained plan := by
  obtain ⟨_, none_decoding⟩ := drained_idle ordered drained
  rcases fetchStep_cases step with ⟨front, others, _, ready, _⟩ | ⟨_, _, unclaimed, _, _⟩ |
    ⟨ordinal, at_w, _⟩ | ⟨_, _, rfl⟩ | ⟨_, _, _, _, rfl⟩ | ⟨_, rfl⟩
  · simp [drained.2] at ready
  · have published := ordered.published
    have all := drained.1
    omega
  · have listed := mem_decodingOrdinals at_w
    simp [none_decoding] at listed
  · exact drained
  · exact drained
  · exact drained

/-- A worker is told EXHAUSTED only in a drained state. -/
structure Exhausts (plan : Plan) (s : FetchState) : Prop where
  ordered : Ordered plan s
  drained : ∀ w : Nat, s.workers[w]? = some Worker.exhausted → s.drained plan

theorem set_exhausted {workers : List Worker} {v w : Nat} {new : Worker}
    (at_v : (workers.set w new)[v]? = some .exhausted) :
    new = .exhausted ∨ workers[v]? = some .exhausted := by
  rw [List.getElem?_set] at at_v
  split at at_v
  · split at at_v
    · exact Or.inl (by simpa using at_v)
    · simp at at_v
  · exact Or.inr at_v

theorem step_exhausts (plan : Plan) (s : FetchState) (w : Nat) (t : FetchState)
    (exhausts : Exhausts plan s) (step : fetchStep plan s w = some t) : Exhausts plan t := by
  have ordered := exhausts.ordered
  refine ⟨step_ordered plan s w t ordered step, fun v at_v => ?_⟩
  have kept : s.workers[v]? = some .exhausted → t.drained plan :=
    fun before => step_drained ordered (exhausts.drained v before) step
  rcases fetchStep_cases step with ⟨front, others, _, _, rfl⟩ | ⟨_, _, _, _, rfl⟩ |
    ⟨ordinal, _, rfl⟩ | ⟨batch, _, rfl⟩ | ⟨_, ready, idle, claimed, rfl⟩ | ⟨_, rfl⟩
  · exact kept ((set_exhausted at_v).resolve_left (by simp))
  · exact kept ((set_exhausted at_v).resolve_left (by simp))
  · exact kept ((set_exhausted at_v).resolve_left (by simp))
  · exact kept ((set_exhausted at_v).resolve_left (by simp))
  · have finished : s.drained plan := nothing_left_drained ordered ready idle claimed
    exact finished
  · exact kept at_v

theorem run_exhausts {plan : Plan} {workers : Nat} {schedule : List Nat} {s : FetchState}
    (run : exec (fetchStep plan) (start workers) schedule = some s) : Exhausts plan s := by
  refine exec_invariant (step_exhausts plan) run ⟨start_ordered plan workers, fun w at_w => ?_⟩
  simp [start, List.getElem?_replicate] at at_w

/-- What is claimed and not published holds the next ordinal to publish, and no
    pending entry does, so some worker is decoding it. -/
theorem in_flight_decoding {plan : Plan} {s : FetchState} (ordered : Ordered plan s)
    (busy : s.queue.inFlight ≠ 0) :
    ∃ (w : Nat) (ordinal : Nat), s.workers[w]? = some (.decoding ordinal) := by
  have in_flight := inFlight_eq ordered
  have next : s.queue.nextPublish ∈
      List.range' s.queue.nextPublish (s.nextSegment - s.queue.nextPublish) :=
    List.mem_range'_1.mpr (by omega)
  rcases List.mem_append.mp (ordered.in_flight.mem_iff.mpr next) with pending | decoding
  · obtain ⟨entry, present, same⟩ := List.mem_map.mp pending
    have waits := ordered.pending_waits entry present
    omega
  · obtain ⟨worker, present, listed⟩ := List.mem_filterMap.mp decoding
    obtain ⟨w, bound, rfl⟩ := List.getElem_of_mem present
    cases worker_eq : s.workers[w] with
    | decoding ordinal =>
      refine ⟨w, ordinal, ?_⟩
      rw [List.getElem?_eq_getElem bound, worker_eq]
    | claiming => simp [worker_eq, decodingOrdinal] at listed
    | fetching batch => simp [worker_eq, decodingOrdinal] at listed
    | exhausted => simp [worker_eq, decodingOrdinal] at listed

theorem some_worker_moves {plan : Plan} {s : FetchState} (ordered : Ordered plan s)
    (threads : 0 < plan.maxThreads) {w : Nat} {worker : Worker}
    (at_w : s.workers[w]? = some worker) (unfinished : worker ≠ .exhausted) :
    ∃ (v : Nat) (mover : Worker) (act : Action), s.workers[v]? = some mover ∧
      action plan s mover = some act ∧ act ≠ .wait := by
  cases worker with
  | exhausted => exact absurd rfl unfinished
  | fetching batch => exact ⟨w, _, _, at_w, rfl, by simp⟩
  | decoding ordinal => exact ⟨w, _, _, at_w, rfl, by simp⟩
  | claiming =>
    by_cases busy : s.queue.inFlight = 0
    · refine ⟨w, _, (action plan s .claiming).getD .wait, at_w, ?_⟩
      simp only [action, busy]
      by_cases ready : s.queue.ready ≠ []
      · simp [ready]
      · by_cases unclaimed : s.nextSegment < plan.segments.length
        · simp [ready, unclaimed, Nat.not_le.mpr threads]
        · simp [ready, unclaimed]
    · obtain ⟨v, ordinal, at_v⟩ := in_flight_decoding ordered busy
      exact ⟨v, _, _, at_v, rfl, by simp⟩

theorem candidate_queue_protocol {plan : Plan} {workers : Nat} {schedule : List Nat}
    {s : FetchState} (run : exec (fetchStep plan) (start workers) schedule = some s) :
    s.handedPositions.Nodup ∧
    s.handedPositions <+: plan.positions (List.range plan.segments.length) ∧
    s.readied = (List.range s.queue.nextPublish).filter plan.nonempty ∧
    (∀ w : Nat, s.workers[w]? = some .exhausted →
      s.queue.nextPublish = plan.segments.length ∧ s.queue.inFlight = 0 ∧ s.queue.ready = [] ∧
      ∀ ordinal < plan.segments.length, ∀ i < (plan.candidates ordinal).length,
        ∃! k : Nat, ∃ entry, s.handed[k]? = some entry ∧ (ordinal, i) ∈ entry.2.positions) ∧
    (0 < plan.maxThreads → ∀ (w : Nat) (worker : Worker), s.workers[w]? = some worker →
      worker ≠ .exhausted → ∃ (v : Nat) (mover : Worker) (act : Action),
        s.workers[v]? = some mover ∧ action plan s mover = some act ∧ act ≠ .wait) := by
  have ordered := run_ordered run
  have distinct : s.handedPositions.Nodup := by
    have all := plan_positions_nodup plan s.queue.nextPublish
    rw [← ordered.covered] at all
    exact (List.nodup_append.mp all).1
  refine ⟨distinct, handed_initial ordered, ordered.readied, ?_, ?_⟩
  · intro w at_w
    have drained := (run_exhausts run).drained w at_w
    refine ⟨drained.1, (drained_idle ordered drained).1, drained.2, fun ordinal o_bound i i_bound => ?_⟩
    refine one_batch distinct ?_
    have handed := drained_handed ordered drained
    rw [FetchState.handedPositions] at handed
    rw [handed]
    refine List.mem_flatMap.mpr ⟨ordinal, List.mem_range.mpr o_bound, ?_⟩
    exact List.mem_map.mpr ⟨i, List.mem_range'_1.mpr (by omega), rfl⟩
  · intro threads w worker at_w unfinished
    exact some_worker_moves ordered threads at_w unfinished

def twoWorkers : Plan := ⟨[[3, 9], [], [700]], 2⟩

def twoWorkersEnd : FetchState where
  queue := ⟨[], [], 3, 0⟩
  nextSegment := 3
  workers := [.exhausted, .exhausted]
  handed := [(1, ⟨0, 0, 2, false⟩), (0, ⟨2, 0, 1, false⟩)]
  readied := [0, 2]

/-- The second segment is decoded first, is empty, and waits for the first one. -/
theorem two_workers_hand_out_all :
    exec (fetchStep twoWorkers) (start 2) [0, 1, 1, 1, 0, 1, 0, 0, 1, 0, 1, 0, 0] =
      some twoWorkersEnd ∧ twoWorkersEnd.handedPositions.Nodup ∧ twoWorkersEnd.readied = [0, 2] :=
  have run : exec (fetchStep twoWorkers) (start 2) [0, 1, 1, 1, 0, 1, 0, 0, 1, 0, 1, 0, 0] =
      some twoWorkersEnd := by decide
  ⟨run, (candidate_queue_protocol run).1, rfl⟩

end NgramCandidateQueue
