import NgramIndex.SearchExact

/- A search can be brought to its end from any state. No turn of an unfinished
   worker fails, a turn that is not a wait uses up some of a bounded amount of
   work, and while a worker is unfinished some worker has such a turn. -/
namespace NgramSearchCore
open LabelledRun NgramCandidateQueue WorkLedger
open NgramStorage
variable {Row : Type} {core : SearchCore} {filters : ScanFilters Row} {room : Nat}

section Queue
variable {plan : Plan} {s t : FetchState} {w : Nat}

/-- Candidates not handed out, segments not claimed and segments being decoded.
    A batch pays for what its worker can read. -/
def queueWork (room : Nat) (plan : Plan) (s : FetchState) : Nat :=
  (room + 2) * ((plan.positions (List.range plan.segments.length)).length - s.handedPositions.length) +
    2 * (plan.segments.length - s.nextSegment) + s.queue.decoding

inductive QueueSpends (room : Nat) (plan : Plan) (w : Nat) (s t : FetchState) : Prop where
  | batch (taken : ∃ batch, t.workers[w]? = some (.fetching batch))
      (spent : queueWork room plan t + (room + 2) ≤ queueWork room plan s)
  | segment (still : ∀ batch, t.workers[w]? ≠ some (.fetching batch))
      (spent : queueWork room plan t < queueWork room plan s)
  | returned (fetching : ∃ batch, s.workers[w]? = some (.fetching batch))
      (same : queueWork room plan t = queueWork room plan s)
  | exhausted (done : t.workers[w]? = some .exhausted)
      (same : queueWork room plan t = queueWork room plan s)
  | waited (same : t = s)

theorem take_spends {front : PublishedCandidates} {others : List PublishedCandidates}
    (ordered : Ordered plan s) (at_w : s.workers[w]? = some .claiming)
    (ready : s.queue.ready = front :: others) :
    queueWork room plan (takeBatch s w front others) + (room + 2) ≤ queueWork room plan s := by
  have bound := (handed_initial (take_step ordered at_w ready)).length_le
  have unread := (ordered.ready_decoded front (by rw [ready]; exact List.mem_cons_self)).2
  have some_candidate : 0 < (cutBatch front).positions.length := by
    have forward := (cutBatch_bounds unread).1
    have offset : (cutBatch front).candidateOffset = front.nextOffset := rfl
    simp only [Batch.positions, positions, List.length_map, List.length_range']
    omega
  have handed : (takeBatch s w front others).handedPositions.length =
      s.handedPositions.length + (cutBatch front).positions.length := by
    simp [takeBatch, FetchState.handedPositions]
  have fewer : (plan.positions (List.range plan.segments.length)).length -
      (takeBatch s w front others).handedPositions.length + 1 ≤
        (plan.positions (List.range plan.segments.length)).length - s.handedPositions.length := by
    omega
  have paid := Nat.mul_le_mul_left (room + 2) fewer
  rw [Nat.mul_succ] at paid
  have segments : (takeBatch s w front others).nextSegment = s.nextSegment := rfl
  have decoding : (takeBatch s w front others).queue.decoding = s.queue.decoding := rfl
  unfold queueWork
  rw [segments, decoding]
  omega

theorem claim_spends (unclaimed : s.nextSegment < plan.segments.length) :
    queueWork room plan (claimSegment s w) < queueWork room plan s := by
  have handed : (claimSegment s w).handedPositions = s.handedPositions := rfl
  have segments : (claimSegment s w).nextSegment = s.nextSegment + 1 := rfl
  have decoding : (claimSegment s w).queue.decoding = s.queue.decoding + 1 := rfl
  unfold queueWork
  rw [handed, segments, decoding]
  omega

theorem finish_spends {ordinal : Nat} {rowids : List Nat} (ordered : Ordered plan s)
    (at_w : s.workers[w]? = some (.decoding ordinal)) :
    queueWork room plan (finishDecode s w ordinal rowids) < queueWork room plan s := by
  have some_decoding : 0 < s.queue.decoding := by
    rw [ordered.decoding]
    exact List.length_pos_of_mem (mem_decodingOrdinals at_w)
  have handed : (finishDecode s w ordinal rowids).handedPositions = s.handedPositions := rfl
  have segments : (finishDecode s w ordinal rowids).nextSegment = s.nextSegment := rfl
  have decoding : (finishDecode s w ordinal rowids).queue.decoding = s.queue.decoding - 1 := rfl
  unfold queueWork
  rw [handed, segments, decoding]
  omega

theorem fetchStep_spends (room : Nat) (ordered : Ordered plan s) (step : fetchStep plan s w = some t) :
    QueueSpends room plan w s t := by
  rcases fetchStep_cases step with ⟨front, others, at_w, ready, rfl⟩ |
    ⟨at_w, _, unclaimed, _, rfl⟩ | ⟨ordinal, at_w, rfl⟩ | ⟨batch, at_w, rfl⟩ | ⟨at_w, _, _, _, rfl⟩ | ⟨_, rfl⟩
  · have now : (takeBatch s w front others).workers[w]? = some (.fetching (cutBatch front)) :=
      List.getElem?_set_self (List.getElem?_eq_some_iff.mp at_w).1
    exact .batch ⟨_, now⟩ (take_spends ordered at_w ready)
  · have now : (claimSegment s w).workers[w]? = some (.decoding s.nextSegment) :=
      List.getElem?_set_self (List.getElem?_eq_some_iff.mp at_w).1
    exact .segment (by rw [now]; nofun) (claim_spends unclaimed)
  · have now : (finishDecode s w ordinal (plan.segments.getD ordinal [])).workers[w]? = some .claiming :=
      List.getElem?_set_self (List.getElem?_eq_some_iff.mp at_w).1
    exact .segment (by rw [now]; nofun) (finish_spends ordered at_w)
  · exact .returned ⟨batch, at_w⟩ rfl
  · exact .exhausted (List.getElem?_set_self (List.getElem?_eq_some_iff.mp at_w).1) rfl
  · exact .waited rfl

theorem queueWork_le (room : Nat) (ordered : Ordered plan s) (step : fetchStep plan s w = some t) :
    queueWork room plan t ≤ queueWork room plan s := by
  cases fetchStep_spends room ordered step with
  | batch taken spent => omega
  | segment still spent => omega
  | returned fetching same => omega
  | exhausted done same => omega
  | waited same => rw [same]

/-- A worker that the queue knows and has not told EXHAUSTED can take its turn. -/
theorem fetchStep_possible {worker : Worker} (at_w : s.workers[w]? = some worker)
    (unfinished : worker ≠ .exhausted) : ∃ t, fetchStep plan s w = some t := by
  have some_action : ∃ act, action plan s worker = some act := by
    cases worker with
    | exhausted => exact absurd rfl unfinished
    | fetching batch => exact ⟨_, rfl⟩
    | decoding ordinal => exact ⟨_, rfl⟩
    | claiming =>
      simp only [action]
      split
      · exact ⟨_, rfl⟩
      · split
        · exact ⟨_, rfl⟩
        · split
          · exact ⟨_, rfl⟩
          · exact ⟨_, rfl⟩
  obtain ⟨act, acts⟩ := some_action
  refine ⟨applyAction plan s w worker act, ?_⟩
  unfold fetchStep
  rw [at_w]
  simp only [acts, Option.map_some]

theorem acted_moves {worker : Worker} {act : Action} (at_w : s.workers[w]? = some worker)
    (acts : action plan s worker = some act) (busy : act ≠ .wait) :
    ∃ t, fetchStep plan s w = some t ∧ t ≠ s := by
  have bound := (List.getElem?_eq_some_iff.mp at_w).1
  refine ⟨applyAction plan s w worker act, ?_, ?_⟩
  · unfold fetchStep
    rw [at_w]
    simp only [acts, Option.map_some]
  · intro same
    have moved : ∀ new, (applyAction plan s w worker act).workers = s.workers.set w new → new = worker := by
      intro new set
      rw [same] at set
      rw [set, List.getElem?_set_self bound] at at_w
      exact Option.some.inj at_w
    cases worker with
    | exhausted => cases acts
    | fetching batch =>
      cases acts
      cases moved .claiming rfl
    | decoding ordinal =>
      cases acts
      cases moved .claiming rfl
    | claiming =>
      simp only [action] at acts
      split at acts
      · rename_i some_ready
        obtain ⟨front, others, ready⟩ := List.exists_cons_of_ne_nil some_ready
        cases acts
        have set : (applyAction plan s w .claiming .take).workers =
            s.workers.set w (.fetching (cutBatch front)) := by
          simp only [applyAction, ready]
          rfl
        cases moved _ set
      · split at acts
        · cases acts
          cases moved .exhausted rfl
        · split at acts
          · cases acts
            exact busy rfl
          · cases acts
            cases moved (.decoding s.nextSegment) rfl

end Queue

section Turns
variable {tail : TailPlan} {s t : SearchState Row} {w : Nat}

def Local.load (room : Nat) : Local Row → Nat
  | .done => 0
  | .scan => 1
  | .fetch none => 2
  | .fetch (some batch) => 3 + batch.size
  | .claimed _ => room + 2
  | .reading left => 2 + left.length

/-- The work left in a search: the queue's, the units not claimed and what each
    worker has in hand. -/
def SearchState.work (core : SearchCore) (room : Nat) (s : SearchState Row) : Nat :=
  queueWork room core.plan s.queue + (room + 2) * (s.unitCount - s.nextTailUnit) +
    (s.locals.map (Local.load room)).sum

/-- Nothing a worker reads at once fills the room. -/
def Roomy (core : SearchCore) (filters : ScanFilters Row) (room : Nat) (s : SearchState Row) : Prop :=
  (s.matches filters).length + core.plan.segments.flatten.length < room

theorem matches_length (filters : ScanFilters Row) (s : SearchState Row) : (s.matches filters).length =
    (s.table.visible.filter fun entry => filters.passes entry.2).length +
      (s.localRows.filter filters.passes).length := by
  unfold SearchState.matches
  rw [List.filter_append, List.length_append, List.filter_map, List.length_map]
  rfl

theorem scan_small (roomy : Roomy core filters room s) (startRow endRow : Nat) :
    (s.table.boundedScan filters startRow endRow).length < room := by
  have all := matches_length filters s
  have part : (s.table.boundedScan filters startRow endRow).length ≤
      (s.table.visible.filter fun entry => filters.passes entry.2).length := by
    rw [boundedScan_eq]
    apply List.Sublist.length_le
    apply List.monotone_filter_right
    intro entry inside
    exact (Bool.and_eq_true_iff.mp inside).2
  unfold Roomy at roomy
  omega

theorem unit_small (tail : TailPlan) (roomy : Roomy core filters room s) (unit : Nat) :
    (tail.readUnit filters s.table s.localRows unit).length < room := by
  unfold TailPlan.readUnit
  split
  · have all := matches_length filters s
    unfold Roomy at roomy
    omega
  · rw [List.length_map]
    exact scan_small roomy _ _

theorem batch_small (roomy : Roomy core filters room s) (batch : Batch) :
    (startBatch filters s.table (core.plan.candidates batch.segmentOrdinal) batch).size < room := by
  unfold startBatch
  split
  · simp only [Reading.size, List.length_map]
    exact scan_small roomy _ _
  · have part : (core.plan.candidates batch.segmentOrdinal).length ≤ core.plan.segments.flatten.length := by
      unfold Plan.candidates
      rw [List.getD_eq_getElem?_getD]
      cases found : core.plan.segments[batch.segmentOrdinal]? with
      | none => exact Nat.zero_le _
      | some segment => exact (List.sublist_flatten_of_mem (List.mem_of_getElem? found)).length_le
    simp only [Reading.size, List.length_drop, List.length_take]
    unfold Roomy at roomy
    omega

theorem work_set {u : SearchState Row} {old new : Local Row} (at_w : s.locals[w]? = some old)
    (locals : u.locals = s.locals.set w new)
    (less : queueWork room core.plan u.queue + (room + 2) * (u.unitCount - u.nextTailUnit) + new.load room <
      queueWork room core.plan s.queue + (room + 2) * (s.unitCount - s.nextTailUnit) + old.load room) :
    u.work core room < s.work core room := by
  have moved := load_set (Local.load room) new at_w
  unfold SearchState.work
  rw [locals]
  omega

/-- A turn that claims no unit spends what its worker and the queue spend. -/
theorem work_held {u : SearchState Row} {old new : Local Row} (at_w : s.locals[w]? = some old)
    (locals : u.locals = s.locals.set w new)
    (units : u.unitCount - u.nextTailUnit = s.unitCount - s.nextTailUnit)
    (less : queueWork room core.plan u.queue + new.load room <
      queueWork room core.plan s.queue + old.load room) :
    u.work core room < s.work core room := by
  apply work_set at_w locals
  rw [units]
  omega

theorem idle_not_fetching {view : Option Worker} (idle : (Local.fetch none : Local Row).fits view)
    (batch : Batch) : view ≠ some (.fetching batch) := by
  intro fetching
  rw [fetching] at idle
  rcases idle with claiming | ⟨ordinal, decoding⟩
  · cases claiming
  · cases decoding

theorem queued_spends (room : Nat) {queue : FetchState} (working : Working core s)
    (at_w : s.locals[w]? = some (.fetch none)) (moved : fetchStep core.plan s.queue w = some queue)
    (still : ∀ batch, queue.workers[w]? ≠ some (.fetching batch))
    (unfinished : queue.workers[w]? ≠ some .exhausted) :
    queue = s.queue ∨ queueWork room core.plan queue < queueWork room core.plan s.queue := by
  cases fetchStep_spends room working.exhausts.ordered moved with
  | batch taken spent =>
    obtain ⟨batch, taken⟩ := taken
    exact absurd taken (still batch)
  | segment still spent => exact Or.inr spent
  | returned fetching same =>
    obtain ⟨batch, fetching⟩ := fetching
    exact absurd fetching (idle_not_fetching (working.fits w _ at_w) batch)
  | exhausted done same => exact absurd done unfinished
  | waited same => exact Or.inl same

theorem batched_spends (room : Nat) {queue : FetchState} {batch : Batch} (working : Working core s)
    (at_w : s.locals[w]? = some (.fetch none)) (moved : fetchStep core.plan s.queue w = some queue)
    (taken : queue.workers[w]? = some (.fetching batch)) :
    queueWork room core.plan queue + (room + 2) ≤ queueWork room core.plan s.queue := by
  have idle := idle_not_fetching (working.fits w _ at_w)
  cases fetchStep_spends room working.exhausts.ordered moved with
  | batch _ spent => exact spent
  | segment still spent => exact absurd taken (still batch)
  | returned fetching same =>
    obtain ⟨other, fetching⟩ := fetching
    exact absurd fetching (idle other)
  | exhausted done same =>
    rw [taken] at done
    cases done
  | waited same => exact absurd (same ▸ taken) (idle batch)

theorem turn_spends (working : Working core s) (planned : s.tail = some tail)
    (roomy : Roomy core filters room s) (turn : WorkerTurn core filters tail s w t) :
    (s.locals[w]? = some (.fetch none) ∧ fetchStep core.plan s.queue w = some s.queue) ∨
      t.work core room < s.work core room := by
  have ordered := working.exhausts.ordered
  cases turn with
  | queued at_w moved still unfinished =>
    rename_i queue
    rcases queued_spends room working at_w moved still unfinished with rfl | spent
    · exact Or.inl ⟨at_w, moved⟩
    · apply Or.inr
      have units : ({ s with queue := queue } : SearchState Row).unitCount = s.unitCount := rfl
      unfold SearchState.work
      rw [units]
      simp only
      omega
  | batched at_w moved taken =>
    rename_i queue batch
    have small := batch_small roomy batch
    have spent := batched_spends room working at_w moved taken
    apply Or.inr
    refine work_held at_w rfl rfl ?_
    simp only [Local.load]
    omega
  | exhausted at_w moved done =>
    have spent := queueWork_le room ordered moved
    apply Or.inr
    refine work_held at_w rfl rfl ?_
    simp only [Local.load]
    omega
  | released at_w empty moved =>
    have spent := queueWork_le room ordered moved
    apply Or.inr
    refine work_held at_w rfl rfl ?_
    simp only [Local.load]
    omega
  | fetched at_w split shorter =>
    apply Or.inr
    refine work_held at_w rfl rfl ?_
    simp only [Local.load]
    omega
  | claimed at_w =>
    have count : s.unitCount = tail.tailUnits + 1 := by simp only [SearchState.unitCount, planned]
    apply Or.inr
    split
    · rename_i past
      refine work_held at_w rfl ?_ ?_
      · have none_left : s.unitCount - s.nextTailUnit = 0 := by omega
        have still_none : s.unitCount - (s.nextTailUnit + 1) = 0 := by omega
        exact still_none.trans none_left.symm
      · exact Nat.lt_succ_self _
    · rename_i inside
      have fewer : s.unitCount - (s.nextTailUnit + 1) + 1 ≤ s.unitCount - s.nextTailUnit := by omega
      have paid := Nat.mul_le_mul_left (room + 2) fewer
      rw [Nat.mul_succ] at paid
      refine work_set at_w rfl ?_
      calc queueWork room core.plan s.queue + (room + 2) * (s.unitCount - (s.nextTailUnit + 1)) + (room + 2)
          _ ≤ queueWork room core.plan s.queue + (room + 2) * (s.unitCount - s.nextTailUnit) := by omega
          _ < queueWork room core.plan s.queue + (room + 2) * (s.unitCount - s.nextTailUnit) + 1 :=
            Nat.lt_succ_self _
  | begun at_w =>
    rename_i unit
    have small := unit_small tail roomy unit
    apply Or.inr
    refine work_held at_w rfl rfl ?_
    simp only [Local.load]
    omega
  | yielded at_w split shorter =>
    apply Or.inr
    refine work_held at_w rfl rfl ?_
    simp only [Local.load]
    omega
  | closed at_w =>
    apply Or.inr
    refine work_held at_w rfl rfl ?_
    exact Nat.lt_succ_self _

theorem turn_possible (working : Working core s) {l : Local Row} (at_w : s.locals[w]? = some l)
    (unfinished : l ≠ .done) {chunk : Nat} (positive : chunk ≠ 0) :
    ∃ t, workerStep core filters tail s w chunk = some t := by
  have emits : ∀ (left : List Row) rest, ∃ t, emitChunk s w chunk left rest = some t := by
    intro left rest
    exact ⟨_, if_neg positive⟩
  have queues : ∀ batch, s.locals[w]? = some (.fetch batch) →
      ∃ queue, fetchStep core.plan s.queue w = some queue := by
    intro batch fetching
    obtain ⟨worker, known⟩ := fetch_known working fetching
    apply fetchStep_possible known
    rintro rfl
    have fits := working.fits w _ fetching
    rw [known] at fits
    cases batch with
    | none =>
      rcases fits with claiming | ⟨ordinal, decoding⟩
      · cases claiming
      · cases decoding
    | some reading =>
      obtain ⟨batch, taken⟩ := fits
      cases taken
  unfold workerStep
  rw [at_w]
  cases l with
  | done => exact absurd rfl unfinished
  | fetch batch =>
    obtain ⟨queue, moved⟩ := queues batch at_w
    cases batch with
    | none =>
      simp only [claimStep, moved, Option.bind_eq_bind, Option.bind_some]
      split
      · exact ⟨_, rfl⟩
      · exact ⟨_, rfl⟩
      · exact ⟨_, rfl⟩
    | some reading =>
      cases reading with
      | rowids left =>
        cases left with
        | nil => exact ⟨_, by simp only [moved]; rfl⟩
        | cons r left =>
          simp only [fetchKept_ok]
          exact ⟨_, rfl⟩
      | rows left =>
        cases left with
        | nil => exact ⟨_, by simp only [moved]; rfl⟩
        | cons row left => exact emits _ _
  | scan => exact ⟨_, rfl⟩
  | claimed unit => exact ⟨_, rfl⟩
  | reading left =>
    cases left with
    | nil => exact ⟨_, rfl⟩
    | cons row left => exact emits _ _

/-- While a worker is unfinished some worker has a turn that uses up work. A
    worker that waits at the queue waits for one that moves there. -/
theorem unfinished_moves (working : Working core s) (planned : s.tail = some tail)
    (roomy : Roomy core filters room s) (unfinished : ¬ s.finished) :
    ∃ v t, workerStep core filters tail s v 1 = some t ∧ t.work core room < s.work core room := by
  have busy_worker : ∃ l ∈ s.locals, l ≠ .done := by
    by_contra none_busy
    apply unfinished
    intro l present
    by_contra busy
    exact none_busy ⟨l, present, busy⟩
  obtain ⟨l, present, busy⟩ := busy_worker
  obtain ⟨w, at_w⟩ := List.getElem?_of_mem present
  by_cases waiting : l = .fetch none
  · subst waiting
    obtain ⟨worker, known⟩ := fetch_known working at_w
    have bound := (List.getElem?_eq_some_iff.mp known).1
    have fetchers := working.fetchers
    have not_exhausted : worker ≠ .exhausted := by
      rintro rfl
      rcases working.fits w _ at_w with claiming | ⟨ordinal, decoding⟩
      · rw [known] at claiming
        cases claiming
      · rw [known] at decoding
        cases decoding
    obtain ⟨v, mover, act, at_v, acts, not_wait⟩ :=
      some_worker_moves working.exhausts.ordered (by omega) known not_exhausted
    obtain ⟨queue, moved, changed⟩ := acted_moves at_v acts not_wait
    have v_bound := (List.getElem?_eq_some_iff.mp at_v).1
    have here := List.getElem?_eq_getElem (l := s.locals) (i := v) (by omega)
    have still_busy : s.locals[v] ≠ .done := by
      intro done
      have fits := working.fits v _ here
      rw [done] at fits
      cases fits mover at_v
      cases acts
    obtain ⟨t, step⟩ := turn_possible working here still_busy Nat.one_ne_zero
    refine ⟨v, t, step, ?_⟩
    rcases turn_spends working planned roomy (workerStep_turn step) with ⟨_, waits⟩ | spent
    · rw [moved] at waits
      exact absurd (Option.some.inj waits) changed
    · exact spent
  · obtain ⟨t, step⟩ := turn_possible working at_w busy Nat.one_ne_zero
    refine ⟨w, t, step, ?_⟩
    rcases turn_spends working planned roomy (workerStep_turn step) with ⟨idle, _⟩ | spent
    · rw [at_w] at idle
      exact absurd (Option.some.inj idle) waiting
    · exact spent

theorem turn_host (turn : WorkerTurn core filters tail s w t) :
    t.table = s.table ∧ t.tail = s.tail ∧ t.vacuumLock = s.vacuumLock := by
  cases turn with
  | queued | batched | exhausted | released | fetched | claimed | begun | yielded | closed => exact ⟨rfl, rfl, rfl⟩

end Turns

section Runs
variable [DecidableEq Row] {expected : List Row} {s : SearchState Row}

/-- The search's own steps, as against the host's. -/
def SearchEvent.own : SearchEvent Row → Prop
  | .finalize | .run _ _ => True
  | .commit _ _ | .checkpoint _ => False

/-- No worker's turn fails in this state, and from it the search's own steps can
    bring every worker to its end. -/
structure SearchLive (core : SearchCore) (filters : ScanFilters Row) (s : SearchState Row) : Prop where
  unfailing : ∀ (tail : TailPlan) (w : Nat) (l : Local Row) (chunk : Nat), s.tail = some tail →
    s.locals[w]? = some l → l ≠ .done → chunk ≠ 0 → ∃ t, workerStep core filters tail s w chunk = some t
  finishes : ∃ events u, (∀ e ∈ events, SearchEvent.own e) ∧
    exec (searchStep core filters) s events = some u ∧ u.finished

theorem planned_moves {tail : TailPlan} (tracked : Tracked core filters expected s)
    (planned : s.tail = some tail) (unfinished : ¬ s.finished) :
    ∃ e t, SearchEvent.own e ∧ searchStep core filters s e = some t ∧
      (Tracked core filters expected t ∧ t.tail = some tail) ∧
      t.work core (expected.length + core.plan.segments.flatten.length + 1) <
        s.work core (expected.length + core.plan.segments.flatten.length + 1) := by
  have roomy : Roomy core filters (expected.length + core.plan.segments.flatten.length + 1) s := by
    unfold Roomy
    rw [tracked.host.expected]
    exact Nat.lt_succ_self _
  obtain ⟨v, t, turn, spent⟩ := unfinished_moves tracked.working planned roomy unfinished
  have step : searchStep core filters s (.run v 1) = some t := by
    simp only [searchStep, planned]
    exact turn
  have kept : Tracked core filters expected t := tracked_step s (.run v 1) t tracked trivial step
  exact ⟨.run v 1, t, trivial, step, ⟨kept, (turn_host (workerStep_turn turn)).2.1.trans planned⟩, spent⟩

theorem planned_finishes {tail : TailPlan} (tracked : Tracked core filters expected s)
    (planned : s.tail = some tail) : ∃ events u, (∀ e ∈ events, SearchEvent.own e) ∧
      exec (searchStep core filters) s events = some u ∧ u.finished := by
  have moves : ∀ s, (Tracked core filters expected s ∧ s.tail = some tail) → ¬ s.finished →
      ∃ e t, SearchEvent.own e ∧ searchStep core filters s e = some t ∧
        (Tracked core filters expected t ∧ t.tail = some tail) ∧
        t.work core (expected.length + core.plan.segments.flatten.length + 1) <
          s.work core (expected.length + core.plan.segments.flatten.length + 1) :=
    fun s inv => planned_moves inv.1 inv.2
  exact exec_reaches _ moves ⟨tracked, planned⟩

theorem tracked_live (tracked : Tracked core filters expected s) : SearchLive core filters s where
  unfailing tail w l chunk _ at_w unfinished positive :=
    turn_possible tracked.working at_w unfinished positive
  finishes := by
    rcases Option.eq_none_or_eq_some s.tail with unplanned | ⟨tail, planned⟩
    · obtain ⟨events, u, own, run, finished⟩ :=
        planned_finishes (tracked_finalize tracked unplanned) rfl
      refine ⟨.finalize :: events, u, List.forall_mem_cons.mpr ⟨trivial, own⟩, ?_, finished⟩
      apply exec_cons_iff.mpr
      refine ⟨_, ?_, run⟩
      simp only [searchStep, unplanned]
    · exact planned_finishes tracked planned

/-- In every state that a run reaches, the search fails in no turn and can end. -/
theorem search_live_along {t : DataTable Row} {artOnly : Bool} {localRows : List Row} {workers : Nat}
    (probed : Probed filters core t) {events : List (SearchEvent Row)}
    (along : Along (searchStep core filters) (KeepsSides filters)
      (startSearch core t artOnly localRows workers) events)
    (run : exec (searchStep core filters) (startSearch core t artOnly localRows workers) events = some s) :
    SearchLive core filters s :=
  tracked_live (exec_invariant_along tracked_step along run (tracked_start probed artOnly localRows workers))

end Runs

end NgramSearchCore
