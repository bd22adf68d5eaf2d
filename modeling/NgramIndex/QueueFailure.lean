import NgramIndex.SearchProgress

/- The shared cursor with workers that raise. A decode that fails marks the queue, and the
   other workers then hand out what is ready and stop. Whatever the interleaving, nothing
   of a lost segment or of one behind it is ever handed out, and no worker waits for it. -/
namespace NgramQueueFailure
open LabelledRun WorkLedger NgramCandidateQueue NgramSearchCore
open scoped List

/-- A worker that raised takes no further step; the list of workers keeps where it was. The
    log records the segments whose decode raised. -/
structure FailingFetch where
  fetch : FetchState
  failed : Bool
  raised : List Nat
  lost : List Nat
  deriving DecidableEq, Repr

inductive FetchEvent where
  | run (w : Nat)
  | raise (w : Nat)
  deriving DecidableEq, Repr

def startFailing (workers : Nat) : FailingFetch := ⟨start workers, false, [], []⟩

def failingAction (plan : Plan) (s : FailingFetch) : Worker → Option Action
  | .exhausted => none
  | .fetching _ => some .release
  | .decoding _ => some .publish
  | .claiming =>
      if s.fetch.queue.ready ≠ [] then some .take
      else if s.failed ∨ (s.fetch.queue.inFlight = 0 ∧ ¬ s.fetch.nextSegment < plan.segments.length) then
        some .exhaust
      else if ¬ s.fetch.nextSegment < plan.segments.length ∨ plan.maxThreads ≤ s.fetch.queue.inFlight then some .wait
      else some .claim

/-- An interrupt or an error of the rows leaves the queue alone, a failed decode does not. -/
def raiseIn (s : FailingFetch) (w : Nat) : Worker → Option FailingFetch
  | .exhausted => none
  | .claiming | .fetching _ => some { s with raised := w :: s.raised }
  | .decoding ordinal => some
      { fetch := { s.fetch with queue := { s.fetch.queue with decoding := s.fetch.queue.decoding - 1 } }
        failed := true
        raised := w :: s.raised
        lost := ordinal :: s.lost }

def failingStep (plan : Plan) (s : FailingFetch) : FetchEvent → Option FailingFetch
  | .run w =>
      if w ∈ s.raised then none
      else s.fetch.workers[w]?.bind fun worker => (failingAction plan s worker).map fun act =>
        { s with fetch := applyAction plan s.fetch w worker act }
  | .raise w => if w ∈ s.raised then none else s.fetch.workers[w]?.bind (raiseIn s w)

/-- The queue as if the lost segments were still being decoded. -/
def FailingFetch.restored (s : FailingFetch) : FetchState :=
  { s.fetch with queue := { s.fetch.queue with decoding := s.fetch.queue.decoding + s.lost.length } }

/-- Everything one step can do, with the guards it passed. -/
inductive FailingCase (plan : Plan) (s : FailingFetch) : FetchEvent → FailingFetch → Prop where
  | take {w : Nat} {front : PublishedCandidates} {others : List PublishedCandidates} (running : w ∉ s.raised)
      (at_w : s.fetch.workers[w]? = some .claiming) (ready : s.fetch.queue.ready = front :: others) :
      FailingCase plan s (.run w) { s with fetch := takeBatch s.fetch w front others }
  | claim {w : Nat} (running : w ∉ s.raised) (at_w : s.fetch.workers[w]? = some .claiming) (sound : s.failed = false)
      (unclaimed : s.fetch.nextSegment < plan.segments.length) (room : s.fetch.queue.inFlight < plan.maxThreads) :
      FailingCase plan s (.run w) { s with fetch := claimSegment s.fetch w }
  | publish {w ordinal : Nat} (running : w ∉ s.raised) (at_w : s.fetch.workers[w]? = some (.decoding ordinal)) :
      FailingCase plan s (.run w) { s with fetch := finishDecode s.fetch w ordinal (plan.candidates ordinal) }
  | release {w : Nat} {batch : Batch} (running : w ∉ s.raised) (at_w : s.fetch.workers[w]? = some (.fetching batch)) :
      FailingCase plan s (.run w) { s with fetch := { s.fetch with workers := s.fetch.workers.set w .claiming } }
  | exhaust {w : Nat} (running : w ∉ s.raised) (at_w : s.fetch.workers[w]? = some .claiming)
      (empty : s.fetch.queue.ready = [])
      (ended : s.failed = true ∨ s.fetch.queue.inFlight = 0 ∧ plan.segments.length ≤ s.fetch.nextSegment) :
      FailingCase plan s (.run w) { s with fetch := { s.fetch with workers := s.fetch.workers.set w .exhausted } }
  | wait {w : Nat} : FailingCase plan s (.run w) s
  | raise {w : Nat} (running : w ∉ s.raised) {worker : Worker} (at_w : s.fetch.workers[w]? = some worker)
      (apart : decodingOrdinal worker = none) : FailingCase plan s (.raise w) { s with raised := w :: s.raised }
  | lose {w ordinal : Nat} (running : w ∉ s.raised) (at_w : s.fetch.workers[w]? = some (.decoding ordinal)) :
      FailingCase plan s (.raise w)
        { fetch := { s.fetch with queue := { s.fetch.queue with decoding := s.fetch.queue.decoding - 1 } }
          failed := true
          raised := w :: s.raised
          lost := ordinal :: s.lost }

theorem failingStep_cases {plan : Plan} {s t : FailingFetch} {e : FetchEvent} (step : failingStep plan s e = some t) :
    FailingCase plan s e t := by
  cases e with
  | run w =>
    simp only [failingStep, Option.ite_none_left_eq_some, Option.bind_eq_some_iff, Option.map_eq_some_iff] at step
    obtain ⟨running, worker, at_w, act, acts, rfl⟩ := step
    cases worker with
    | exhausted => cases acts
    | fetching batch =>
      cases acts
      exact .release running at_w
    | decoding ordinal =>
      cases acts
      exact .publish running at_w
    | claiming =>
      simp only [failingAction] at acts
      split at acts
      · rename_i some_ready
        cases acts
        obtain ⟨front, others, ready⟩ := List.exists_cons_of_ne_nil some_ready
        simp only [applyAction, ready]
        exact .take running at_w ready
      · rename_i none_ready
        have empty : s.fetch.queue.ready = [] := not_not.mp none_ready
        split at acts
        · rename_i ended
          cases acts
          exact .exhaust running at_w empty (ended.imp_right fun done => ⟨done.1, Nat.le_of_not_lt done.2⟩)
        · rename_i going
          split at acts
          · cases acts
            exact .wait
          · rename_i room
            cases acts
            obtain ⟨unclaimed, room⟩ := not_or.mp room
            exact .claim running at_w (eq_false_of_ne_true fun failed => going (.inl failed)) (not_not.mp unclaimed)
              (Nat.lt_of_not_le room)
  | raise w =>
    simp only [failingStep, Option.ite_none_left_eq_some, Option.bind_eq_some_iff] at step
    obtain ⟨running, worker, at_w, raised⟩ := step
    cases worker with
    | exhausted => cases raised
    | claiming | fetching =>
      cases raised
      exact .raise running at_w rfl
    | decoding ordinal =>
      cases raised
      exact .lose running at_w

/-- While no decode has failed, the workers run the sections of the queue that cannot fail. -/
theorem failingAction_sound {plan : Plan} {s : FailingFetch} (sound : s.failed = false) (worker : Worker) :
    failingAction plan s worker = action plan s.fetch worker := by
  cases worker <;> simp [failingAction, action, sound]

structure Failing (plan : Plan) (s : FailingFetch) : Prop where
  ordered : Ordered plan s.restored
  distinct : s.lost.Nodup
  lost_by : ∀ ordinal ∈ s.lost, ∃ w ∈ s.raised, s.fetch.workers[w]? = some (.decoding ordinal)
  raised_lost : ∀ w ∈ s.raised, ∀ ordinal, s.fetch.workers[w]? = some (.decoding ordinal) → ordinal ∈ s.lost
  flagged : s.failed = true ↔ s.lost ≠ []
  bounded : s.fetch.queue.inFlight ≤ plan.maxThreads
  ended : ∀ w : Nat, s.fetch.workers[w]? = some .exhausted → s.failed = true ∨ s.restored.drained plan

section Steps
variable {plan : Plan} {s t : FailingFetch} {w ordinal : Nat}

theorem sound_restored (failing : Failing plan s) (sound : s.failed = false) : s.lost = [] ∧ s.restored = s.fetch := by
  have nothing : s.lost = [] := by
    by_contra some_lost
    rw [failing.flagged.mpr some_lost] at sound
    cases sound
  refine ⟨nothing, ?_⟩
  rw [FailingFetch.restored, nothing]
  rfl

theorem running_kept (failing : Failing plan s) (running : w ∉ s.raised)
    (at_w : s.fetch.workers[w]? = some (.decoding ordinal)) : ordinal ∉ s.lost := by
  intro listed
  obtain ⟨v, raised, at_v⟩ := failing.lost_by ordinal listed
  have distinct : s.fetch.decodingOrdinals.Nodup :=
    (List.nodup_append.mp (failing.ordered.in_flight.nodup_iff.mpr List.nodup_range')).2.1
  have apart : v ≠ w := fun same => running (same ▸ raised)
  obtain ⟨rest, before, after⟩ := decodingOrdinals_set .claiming at_w
  have still : (s.fetch.workers.set w .claiming)[v]? = some (.decoding ordinal) := by
    rw [List.getElem?_set_ne apart.symm, at_v]
  have again : ordinal ∈ rest := after.mem_iff.mp (List.mem_filterMap.mpr ⟨_, List.mem_of_getElem? still, rfl⟩)
  have twice : (ordinal :: rest).Nodup := before.nodup_iff.mp distinct
  exact (List.nodup_cons.mp twice).1 again

theorem lost_decoding (failing : Failing plan s) : s.lost ⊆ s.fetch.decodingOrdinals := by
  intro ordinal listed
  obtain ⟨v, _, at_v⟩ := failing.lost_by ordinal listed
  exact mem_decodingOrdinals at_v

/-- The count of decodes still includes a worker that runs one. -/
theorem running_counted (failing : Failing plan s) (running : w ∉ s.raised)
    (at_w : s.fetch.workers[w]? = some (.decoding ordinal)) : 0 < s.fetch.queue.decoding := by
  have apart := running_kept failing running at_w
  have inside : ordinal :: s.lost ⊆ s.fetch.decodingOrdinals :=
    List.cons_subset.mpr ⟨mem_decodingOrdinals at_w, lost_decoding failing⟩
  have fewer := ((List.nodup_cons.mpr ⟨apart, failing.distinct⟩).subperm inside).length_le
  have counted : s.fetch.queue.decoding + s.lost.length = s.fetch.decodingOrdinals.length := failing.ordered.decoding
  rw [List.length_cons] at fewer
  omega

theorem raised_still (running : w ∉ s.raised) (new : Worker) {v : Nat} (raised : v ∈ s.raised) :
    (s.fetch.workers.set w new)[v]? = s.fetch.workers[v]? :=
  List.getElem?_set_ne fun same : w = v => running (same ▸ raised)

theorem lost_still (failing : Failing plan s) (running : w ∉ s.raised) (new : Worker) :
    (∀ ordinal ∈ s.lost, ∃ v ∈ s.raised, (s.fetch.workers.set w new)[v]? = some (.decoding ordinal)) ∧
      ∀ v ∈ s.raised, ∀ ordinal, (s.fetch.workers.set w new)[v]? = some (.decoding ordinal) → ordinal ∈ s.lost := by
  constructor
  · intro ordinal listed
    obtain ⟨v, raised, at_v⟩ := failing.lost_by ordinal listed
    exact ⟨v, raised, (raised_still running new raised).trans at_v⟩
  · intro v raised ordinal at_v
    exact failing.raised_lost v raised ordinal ((raised_still running new raised).symm.trans at_v)

/-- A worker of the queue that is not told EXHAUSTED now was told so before. -/
theorem ended_still (failing : Failing plan s) (new : Worker) (unfinished : new ≠ .exhausted) {v : Nat}
    (at_v : (s.fetch.workers.set w new)[v]? = some .exhausted) : s.failed = true ∨ s.restored.drained plan :=
  failing.ended v ((set_exhausted at_v).resolve_left unfinished)

theorem publishInOrder_pending (ready : List PublishedCandidates) (readied : List Nat) (nextPublish : Nat)
    (pending : List (Nat × List Nat)) :
    (publishInOrder ready readied nextPublish pending).2.2.2.length ≤ pending.length := by
  induction pending generalizing ready readied nextPublish with
  | nil => exact le_refl _
  | cons entry rest ih =>
    rw [publishInOrder]
    split
    · split
      · exact (ih _ _ _).trans (Nat.le_succ _)
      · exact (ih _ _ _).trans (Nat.le_succ _)
    · exact le_refl _

theorem restored_claim (fetch : FetchState) (failed : Bool) (raised lost : List Nat) :
    FailingFetch.restored ⟨claimSegment fetch w, failed, raised, lost⟩ =
      claimSegment (FailingFetch.restored ⟨fetch, failed, raised, lost⟩) w := by
  simp only [FailingFetch.restored, claimSegment, Nat.add_right_comm]

theorem restored_publish {fetch : FetchState} (failed : Bool) (raised lost : List Nat) (some_decoding : 0 < fetch.queue.decoding)
    (rowids : List Nat) :
    FailingFetch.restored ⟨finishDecode fetch w ordinal rowids, failed, raised, lost⟩ =
      finishDecode (FailingFetch.restored ⟨fetch, failed, raised, lost⟩) w ordinal rowids := by
  have moved : fetch.queue.decoding - 1 + lost.length = fetch.queue.decoding + lost.length - 1 := by omega
  simp only [FailingFetch.restored, finishDecode, moved]

theorem restored_lose (some_decoding : 0 < s.fetch.queue.decoding) :
    FailingFetch.restored
      ⟨{ s.fetch with queue := { s.fetch.queue with decoding := s.fetch.queue.decoding - 1 } }, true, w :: s.raised,
        ordinal :: s.lost⟩ = s.restored := by
  have moved : s.fetch.queue.decoding - 1 + (s.lost.length + 1) = s.fetch.queue.decoding + s.lost.length := by omega
  simp only [FailingFetch.restored, List.length_cons, moved]

/-- The published segment was in flight already. -/
theorem finish_bounded (plan : Plan) {fetch : FetchState} (some_decoding : 0 < fetch.queue.decoding) :
    (finishDecode fetch w ordinal (plan.candidates ordinal)).queue.inFlight ≤ fetch.queue.inFlight := by
  have shorter := publishInOrder_pending fetch.queue.ready fetch.readied fetch.queue.nextPublish
    (insertPending ordinal (plan.candidates ordinal) fetch.queue.pending)
  rw [(insertPending_perm ordinal (plan.candidates ordinal) fetch.queue.pending).length_eq, List.length_cons] at shorter
  have in_flight : (finishDecode fetch w ordinal (plan.candidates ordinal)).queue.inFlight =
      fetch.queue.decoding - 1 + (publishInOrder fetch.queue.ready fetch.readied fetch.queue.nextPublish
        (insertPending ordinal (plan.candidates ordinal) fetch.queue.pending)).2.2.2.length := rfl
  rw [in_flight, CandidateQueue.inFlight]
  omega

theorem lost_by_more (failing : Failing plan s) (w : Nat) :
    ∀ ordinal ∈ s.lost, ∃ v ∈ w :: s.raised, s.fetch.workers[v]? = some (.decoding ordinal) := by
  intro ordinal listed
  obtain ⟨v, raised, at_v⟩ := failing.lost_by ordinal listed
  exact ⟨v, List.mem_cons_of_mem w raised, at_v⟩

/-- A worker is told EXHAUSTED after a failure, or where nothing is left. -/
theorem exhaust_drained (failing : Failing plan s) (empty : s.fetch.queue.ready = [])
    (ended : s.failed = true ∨ s.fetch.queue.inFlight = 0 ∧ plan.segments.length ≤ s.fetch.nextSegment) :
    s.failed = true ∨ s.restored.drained plan := by
  rcases ended with failed | ⟨idle, claimed⟩
  · exact .inl failed
  · cases sound : s.failed with
    | true => exact .inl rfl
    | false =>
      have same := (sound_restored failing sound).2
      exact .inr (nothing_left_drained failing.ordered empty (same ▸ idle) claimed)

theorem failing_step (failing : Failing plan s) {e : FetchEvent} (step : failingStep plan s e = some t) :
    Failing plan t := by
  cases failingStep_cases step with
  | wait => exact failing
  | @take w front others running at_w ready =>
    obtain ⟨lost_by, raised_lost⟩ := lost_still failing running (.fetching (cutBatch front))
    refine ⟨take_step failing.ordered at_w ready, failing.distinct, lost_by, raised_lost, failing.flagged,
      failing.bounded, fun v at_v => ?_⟩
    rcases ended_still failing (.fetching (cutBatch front)) (by simp) at_v with failed | drained
    · exact .inl failed
    · have empty : s.fetch.queue.ready = [] := drained.2
      rw [ready] at empty
      cases empty
  | @claim w running at_w sound unclaimed room =>
    obtain ⟨lost_by, raised_lost⟩ := lost_still failing running (.decoding s.fetch.nextSegment)
    refine ⟨?_, failing.distinct, lost_by, raised_lost, failing.flagged, ?_, fun v at_v => ?_⟩
    · rw [restored_claim]
      exact claim_step failing.ordered at_w unclaimed
    · simp only [claimSegment, CandidateQueue.inFlight] at room ⊢
      omega
    · rcases ended_still failing (.decoding s.fetch.nextSegment) (by simp) at_v with failed | drained
      · exact .inl failed
      · have published : s.fetch.queue.nextPublish ≤ s.fetch.nextSegment := failing.ordered.published
        have all : s.fetch.queue.nextPublish = plan.segments.length := drained.1
        omega
  | @publish w ordinal running at_w =>
    have some_decoding := running_counted failing running at_w
    obtain ⟨lost_by, raised_lost⟩ := lost_still failing running .claiming
    refine ⟨?_, failing.distinct, lost_by, raised_lost, failing.flagged, ?_, fun v at_v => ?_⟩
    · rw [restored_publish _ _ _ some_decoding]
      exact finish_step failing.ordered at_w
    · exact (finish_bounded plan some_decoding).trans failing.bounded
    · rcases ended_still failing .claiming (by simp) at_v with failed | drained
      · exact .inl failed
      · have decoding := mem_decodingOrdinals at_w
        have idle : s.fetch.decodingOrdinals = [] := (drained_idle failing.ordered drained).2
        rw [idle] at decoding
        cases decoding
  | @release w batch running at_w =>
    obtain ⟨lost_by, raised_lost⟩ := lost_still failing running .claiming
    refine ⟨idle_step .claiming failing.ordered at_w rfl rfl, failing.distinct, lost_by, raised_lost, failing.flagged,
      failing.bounded, fun v at_v => ?_⟩
    have before := ended_still failing .claiming (by simp) at_v
    exact before
  | @exhaust w running at_w empty ended =>
    obtain ⟨lost_by, raised_lost⟩ := lost_still failing running .exhausted
    have done : s.failed = true ∨ s.restored.drained plan := exhaust_drained failing empty ended
    exact ⟨idle_step .exhausted failing.ordered at_w rfl rfl, failing.distinct, lost_by, raised_lost,
      failing.flagged, failing.bounded, fun v _ => done⟩
  | @raise w running worker at_w apart =>
    refine ⟨failing.ordered, failing.distinct, lost_by_more failing w, fun v raised ordinal at_v => ?_,
      failing.flagged, failing.bounded, failing.ended⟩
    rcases List.mem_cons.mp raised with rfl | before
    · rw [at_w] at at_v
      cases at_v
      cases apart
    · exact failing.raised_lost v before ordinal at_v
  | @lose w ordinal running at_w =>
    have some_decoding := running_counted failing running at_w
    refine ⟨restored_lose some_decoding ▸ failing.ordered,
      List.nodup_cons.mpr ⟨running_kept failing running at_w, failing.distinct⟩, ?_, ?_, by simp, ?_,
      fun _ _ => .inl rfl⟩
    · intro other listed
      rcases List.mem_cons.mp listed with rfl | before
      · exact ⟨w, List.mem_cons_self, at_w⟩
      · exact lost_by_more failing w other before
    · intro v raised other at_v
      rcases List.mem_cons.mp raised with rfl | before
      · obtain rfl : ordinal = other := by simpa [at_w] using at_v
        exact List.mem_cons_self
      · exact List.mem_cons_of_mem ordinal (failing.raised_lost v before other at_v)
    · have bounded := failing.bounded
      simp only [CandidateQueue.inFlight] at bounded ⊢
      omega

theorem start_failing (plan : Plan) (workers : Nat) : Failing plan (startFailing workers) where
  ordered := start_ordered plan workers
  distinct := List.nodup_nil
  lost_by ordinal listed := by cases listed
  raised_lost w raised := by cases raised
  flagged := by simp [startFailing]
  bounded := Nat.zero_le _
  ended w at_w := by simp [startFailing, start, List.getElem?_replicate] at at_w

theorem run_failing {workers : Nat} {events : List FetchEvent}
    (run : exec (failingStep plan) (startFailing workers) events = some s) : Failing plan s :=
  exec_invariant (fun _ _ _ failing step => failing_step failing step) run (start_failing plan workers)

end Steps

section Progress
variable {plan : Plan} {s t : FailingFetch} {w : Nat}

def FailingFetch.done (s : FailingFetch) : Prop :=
  ∀ (w : Nat) (worker : Worker), s.fetch.workers[w]? = some worker → worker = .exhausted ∨ w ∈ s.raised

def workerLoad : Worker → Nat
  | .claiming | .decoding _ => 1
  | .fetching _ => 2
  | .exhausted => 0

def FailingFetch.work (plan : Plan) (s : FailingFetch) : Nat :=
  queueWork 0 plan s.restored + (s.fetch.workers.map workerLoad).sum

theorem work_moved {fetch : FetchState} {old new : Worker} (at_w : s.fetch.workers[w]? = some old)
    (workers : fetch.workers = s.fetch.workers.set w new)
    (less : queueWork 0 plan (FailingFetch.restored { s with fetch := fetch }) + workerLoad new <
      queueWork 0 plan s.restored + workerLoad old) :
    FailingFetch.work plan { s with fetch := fetch } < s.work plan := by
  have moved := load_set workerLoad new at_w
  simp only [FailingFetch.work, workers]
  omega

theorem acted_spends (failing : Failing plan s) (running : w ∉ s.raised) {worker : Worker} {act : Action}
    (at_w : s.fetch.workers[w]? = some worker) (acts : failingAction plan s worker = some act) (moves : act ≠ .wait) :
    FailingFetch.work plan { s with fetch := applyAction plan s.fetch w worker act } < s.work plan := by
  have ordered := failing.ordered
  cases worker with
  | exhausted => cases acts
  | fetching batch =>
    cases acts
    exact work_moved at_w rfl (Nat.lt_succ_self _)
  | decoding ordinal =>
    cases acts
    have counted := running_counted failing running at_w
    have spent := @finish_spends 0 plan s.restored w ordinal (plan.segments.getD ordinal []) ordered at_w
    rw [← restored_publish s.failed s.raised s.lost counted] at spent
    exact work_moved at_w rfl (Nat.add_lt_add_right spent 1)
  | claiming =>
    simp only [failingAction] at acts
    split at acts
    · rename_i some_ready
      cases acts
      obtain ⟨front, others, ready⟩ := List.exists_cons_of_ne_nil some_ready
      have spent := @take_spends 0 plan s.restored w front others ordered at_w ready
      simp only [applyAction, ready]
      refine work_moved at_w rfl ?_
      have taken : FailingFetch.restored { s with fetch := takeBatch s.fetch w front others } =
          takeBatch s.restored w front others := rfl
      rw [taken]
      simp only [workerLoad]
      omega
    · split at acts
      · cases acts
        exact work_moved at_w rfl (Nat.lt_succ_self _)
      · split at acts
        · cases acts
          exact absurd rfl moves
        · rename_i room
          cases acts
          have unclaimed : s.restored.nextSegment < plan.segments.length := not_not.mp (not_or.mp room).1
          have spent := @claim_spends 0 plan s.restored w unclaimed
          have claimed := @restored_claim w s.fetch s.failed s.raised s.lost
          refine work_moved at_w rfl ?_
          simp only [applyAction, workerLoad, claimed]
          exact Nat.add_lt_add_right spent 1

/-- A claiming worker that has nothing to take waits only where another one decodes. -/
theorem unfinished_acts (failing : Failing plan s) (threads : 0 < plan.maxThreads) {worker : Worker}
    (at_w : s.fetch.workers[w]? = some worker) (unfinished : worker ≠ .exhausted) (running : w ∉ s.raised) :
    ∃ (v : Nat) (mover : Worker) (act : Action), v ∉ s.raised ∧ s.fetch.workers[v]? = some mover ∧
      failingAction plan s mover = some act ∧ act ≠ .wait := by
  cases worker with
  | exhausted => exact absurd rfl unfinished
  | fetching batch => exact ⟨w, _, _, running, at_w, rfl, by simp⟩
  | decoding ordinal => exact ⟨w, _, _, running, at_w, rfl, by simp⟩
  | claiming =>
    by_cases ready : s.fetch.queue.ready = []
    · cases sound : s.failed with
      | true =>
        refine ⟨w, _, .exhaust, running, at_w, ?_, by simp⟩
        simp [failingAction, ready, sound]
      | false =>
        obtain ⟨nothing, same⟩ := sound_restored failing sound
        by_cases busy : s.fetch.queue.inFlight = 0
        · by_cases unclaimed : s.fetch.nextSegment < plan.segments.length
          · refine ⟨w, _, .claim, running, at_w, ?_, by simp⟩
            rw [failingAction_sound sound]
            simp [action, ready, busy, unclaimed, Nat.not_le.mpr threads]
          · refine ⟨w, _, .exhaust, running, at_w, ?_, by simp⟩
            rw [failingAction_sound sound]
            simp [action, ready, busy, unclaimed]
        · have ordered := failing.ordered
          rw [same] at ordered
          obtain ⟨v, ordinal, at_v⟩ := in_flight_decoding ordered busy
          refine ⟨v, _, .publish, fun raised => ?_, at_v, rfl, by simp⟩
          have listed := failing.raised_lost v raised ordinal at_v
          rw [nothing] at listed
          cases listed
    · refine ⟨w, _, .take, running, at_w, ?_, by simp⟩
      simp [failingAction, ready]

def FetchEvent.runs : FetchEvent → Prop
  | .run _ => True
  | .raise _ => False

/-- From every state the workers that have not raised can come to their end. -/
theorem failing_finishes (failing : Failing plan s) (threads : 0 < plan.maxThreads) :
    ∃ events u, (∀ e ∈ events, FetchEvent.runs e) ∧ exec (failingStep plan) s events = some u ∧ u.done := by
  refine exec_reaches (FailingFetch.work plan) (fun s failing unfinished => ?_) failing
  have busy : ∃ (w : Nat) (worker : Worker), s.fetch.workers[w]? = some worker ∧ worker ≠ .exhausted ∧
      w ∉ s.raised := by
    by_contra none_busy
    apply unfinished
    intro w worker at_w
    by_contra left
    obtain ⟨going, running⟩ := not_or.mp left
    exact none_busy ⟨w, worker, at_w, going, running⟩
  obtain ⟨w, worker, at_w, going, running⟩ := busy
  obtain ⟨v, mover, act, v_running, at_v, acts, moves⟩ := unfinished_acts failing threads at_w going running
  have step : failingStep plan s (.run v) = some { s with fetch := applyAction plan s.fetch v mover act } := by
    rw [failingStep, if_neg v_running, at_v, Option.bind_some, acts]
    rfl
  exact ⟨.run v, _, trivial, step, failing_step failing step, acted_spends failing v_running at_v acts moves⟩

end Progress

section Protocol
variable {plan : Plan} {s : FailingFetch} {workers : Nat} {events : List FetchEvent}

theorem handed_before_lost (failing : Failing plan s) {place : Nat × Nat} (handed : place ∈ s.fetch.handedPositions)
    {ordinal : Nat} (lost : ordinal ∈ s.lost) : place.1 < ordinal := by
  have published : place ∈ plan.positions (List.range s.fetch.queue.nextPublish) := by
    have covered : s.fetch.handedPositions ++ s.fetch.queue.ready.flatMap PublishedCandidates.remaining =
      plan.positions (List.range s.fetch.queue.nextPublish) := failing.ordered.covered
    rw [← covered]
    exact List.mem_append_left _ handed
  obtain ⟨segment, listed, inside⟩ := List.mem_flatMap.mp published
  obtain ⟨i, _, rfl⟩ := List.mem_map.mp inside
  have in_flight : ordinal ∈ List.range' s.fetch.queue.nextPublish (s.fetch.nextSegment - s.fetch.queue.nextPublish) :=
    failing.ordered.in_flight.mem_iff.mp (List.mem_append_right _ (lost_decoding failing lost))
  exact (List.mem_range.mp listed).trans_le (List.mem_range'_1.mp in_flight).1

/-- In any interleaving of workers that take, claim, publish and raise: each candidate is
    handed out at most once and in order, at most the plan's threads are decoding or hold a
    decoded segment, nothing behind a lost segment is handed out, and a worker is told
    EXHAUSTED only after a decode has failed or when everything is handed out. From every
    state the workers that have not raised can come to their end. -/
theorem failing_queue_protocol (run : exec (failingStep plan) (startFailing workers) events = some s) :
    s.fetch.handedPositions.Nodup ∧
    s.fetch.handedPositions <+: plan.positions (List.range plan.segments.length) ∧
    s.fetch.queue.inFlight ≤ plan.maxThreads ∧
    (s.failed = true ↔ ∃ w ∈ s.raised, ∃ ordinal, s.fetch.workers[w]? = some (.decoding ordinal)) ∧
    (∀ w ∈ s.raised, ∀ ordinal, s.fetch.workers[w]? = some (.decoding ordinal) →
      ∀ place ∈ s.fetch.handedPositions, place.1 < ordinal) ∧
    (∀ w : Nat, s.fetch.workers[w]? = some .exhausted → s.failed = true ∨
      s.fetch.handedPositions = plan.positions (List.range plan.segments.length)) ∧
    (0 < plan.maxThreads → ∃ more u, (∀ e ∈ more, FetchEvent.runs e) ∧
      exec (failingStep plan) s more = some u ∧ u.done) := by
  have failing := run_failing run
  have covered : s.fetch.handedPositions ++ s.fetch.queue.ready.flatMap PublishedCandidates.remaining =
    plan.positions (List.range s.fetch.queue.nextPublish) := failing.ordered.covered
  have front : s.restored.handedPositions <+: plan.positions (List.range plan.segments.length) :=
    handed_initial failing.ordered
  refine ⟨?_, front, failing.bounded, ?_, ?_, ?_, failing_finishes failing⟩
  · have all := plan_positions_nodup plan s.fetch.queue.nextPublish
    rw [← covered] at all
    exact (List.nodup_append.mp all).1
  · rw [failing.flagged]
    constructor
    · intro some_lost
      obtain ⟨ordinal, rest, lost⟩ := List.exists_cons_of_ne_nil some_lost
      obtain ⟨w, raised, at_w⟩ := failing.lost_by ordinal (by rw [lost]; exact List.mem_cons_self)
      exact ⟨w, raised, ordinal, at_w⟩
    · rintro ⟨w, raised, ordinal, at_w⟩ nothing
      have listed := failing.raised_lost w raised ordinal at_w
      rw [nothing] at listed
      cases listed
  · intro w raised ordinal at_w place handed
    exact handed_before_lost failing handed (failing.raised_lost w raised ordinal at_w)
  · intro w at_w
    refine (failing.ended w at_w).imp id fun drained => ?_
    have handed : s.restored.handedPositions = plan.positions (List.range plan.segments.length) :=
      drained_handed failing.ordered drained
    exact handed

end Protocol

/-- The second of three segments is lost while the third one is pending. -/
def lostSecond : List FetchEvent :=
  [.run 0, .run 1, .run 2, .run 2, .raise 1, .run 0, .run 0, .run 2, .run 0, .raise 0]

theorem lost_second_stops : ∃ s, exec (failingStep ⟨[[3, 9], [5], [700]], 3⟩) (startFailing 3) lostSecond = some s ∧
    s.fetch.handed = [(0, ⟨0, 0, 2, false⟩)] ∧ s.fetch.queue.pending = [(2, [700])] ∧
    s.fetch.workers = [.claiming, .decoding 1, .exhausted] ∧ s.raised = [0, 1] ∧
    ∀ place ∈ s.fetch.handedPositions, place.1 < 1 := by
  have ends : (exec (failingStep ⟨[[3, 9], [5], [700]], 3⟩) (startFailing 3) lostSecond).map (fun s =>
      (s.fetch.handed, s.fetch.queue.pending, s.fetch.workers, s.raised)) =
      some ([(0, ⟨0, 0, 2, false⟩)], [(2, [700])], [.claiming, .decoding 1, .exhausted], [0, 1]) := by
    decide +kernel
  obtain ⟨s, run, facts⟩ := Option.map_eq_some_iff.mp ends
  simp only [Prod.mk.injEq] at facts
  obtain ⟨handed, pending, workers, raised⟩ := facts
  refine ⟨s, run, handed, pending, workers, raised, ?_⟩
  exact (failing_queue_protocol run).2.2.2.2.1 1 (by rw [raised]; decide) 1 (by rw [workers]; rfl)

end NgramQueueFailure
