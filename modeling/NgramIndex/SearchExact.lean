import Mathlib.Data.List.Flatten
import Mathlib.Data.List.Perm.Subperm
import NgramIndex.SearchCore

/- What a search emits. Rows emitted and rows its workers still hold are together
   the matching rows of the batches handed out and of the units begun, under the
   numbering the table has now. -/
namespace NgramSearchCore
open LabelledRun NgramCandidateQueue WorkLedger AscendingLists
open NgramStorage
open scoped List
variable {Row : Type} {core : SearchCore} {filters : ScanFilters Row}

def Reading.size : Reading Row → Nat
  | .rowids left => left.length
  | .rows left => left.length

inductive WorkerTurn (core : SearchCore) (filters : ScanFilters Row) (tail : TailPlan)
    (s : SearchState Row) (w : Nat) : SearchState Row → Prop where
  | queued {queue : FetchState} (at_w : s.locals[w]? = some (.fetch none))
      (moved : fetchStep core.plan s.queue w = some queue)
      (still : ∀ batch, queue.workers[w]? ≠ some (.fetching batch))
      (unfinished : queue.workers[w]? ≠ some .exhausted) :
      WorkerTurn core filters tail s w { s with queue := queue }
  | batched {queue : FetchState} {batch : Batch} (at_w : s.locals[w]? = some (.fetch none))
      (moved : fetchStep core.plan s.queue w = some queue)
      (taken : queue.workers[w]? = some (.fetching batch)) :
      WorkerTurn core filters tail s w { s with
        queue := queue
        locals := s.locals.set w (.fetch (some
          (startBatch filters s.table (core.plan.candidates batch.segmentOrdinal) batch))) }
  | exhausted {queue : FetchState} (at_w : s.locals[w]? = some (.fetch none))
      (moved : fetchStep core.plan s.queue w = some queue)
      (done : queue.workers[w]? = some .exhausted) :
      WorkerTurn core filters tail s w { s with queue := queue, locals := s.locals.set w .scan }
  | released {queue : FetchState} {reading : Reading Row} (at_w : s.locals[w]? = some (.fetch (some reading)))
      (empty : reading.holds filters s.table = [])
      (moved : fetchStep core.plan s.queue w = some queue) :
      WorkerTurn core filters tail s w { s with queue := queue, locals := s.locals.set w (.fetch none) }
  | fetched {reading rest : Reading Row} {rows : List Row}
      (at_w : s.locals[w]? = some (.fetch (some reading)))
      (split : rows ++ rest.holds filters s.table = reading.holds filters s.table)
      (shorter : rest.size < reading.size) :
      WorkerTurn core filters tail s w { s with
        emitted := s.emitted ++ rows
        locals := s.locals.set w (.fetch (some rest)) }
  | claimed (at_w : s.locals[w]? = some .scan) :
      WorkerTurn core filters tail s w { s with
        nextTailUnit := s.nextTailUnit + 1
        locals := s.locals.set w
          (if tail.tailUnits < s.nextTailUnit then .done else .claimed s.nextTailUnit) }
  | begun {unit : Nat} (at_w : s.locals[w]? = some (.claimed unit)) :
      WorkerTurn core filters tail s w { s with
        begun := s.begun ++ [unit]
        locals := s.locals.set w (.reading (tail.readUnit filters s.table s.localRows unit)) }
  | yielded {left rows rest : List Row} (at_w : s.locals[w]? = some (.reading left))
      (split : rows ++ rest = left) (shorter : rest.length < left.length) :
      WorkerTurn core filters tail s w { s with
        emitted := s.emitted ++ rows
        locals := s.locals.set w (.reading rest) }
  | closed (at_w : s.locals[w]? = some (.reading [])) :
      WorkerTurn core filters tail s w { s with locals := s.locals.set w .scan }

theorem claimStep_turn {tail : TailPlan} {s t : SearchState Row} {w : Nat}
    (at_w : s.locals[w]? = some (.fetch none)) (step : claimStep core filters s w = some t) :
    WorkerTurn core filters tail s w t := by
  unfold claimStep at step
  obtain ⟨queue, moved, step⟩ := Option.bind_eq_some_iff.mp step
  split at step
  · rename_i batch taken
    cases step
    exact .batched at_w moved taken
  · rename_i done
    cases step
    exact .exhausted at_w moved done
  · rename_i no_batch unfinished
    cases step
    exact .queued at_w moved no_batch unfinished

theorem emitChunk_eq {s t : SearchState Row} {w chunk : Nat} {left : List Row} {rest : List Row → Local Row}
    (step : emitChunk s w chunk left rest = some t) :
    0 < chunk ∧ t = { s with
      emitted := s.emitted ++ left.take chunk
      locals := s.locals.set w (rest (left.drop chunk)) } := by
  unfold emitChunk at step
  split at step
  · cases step
  · rename_i some_rows
    cases step
    exact ⟨Nat.pos_of_ne_zero some_rows, rfl⟩

theorem drop_shorter {α : Type*} {left : List α} {chunk : Nat} (nonempty : left ≠ []) (positive : 0 < chunk) :
    (left.drop chunk).length < left.length := by
  have some_left := List.length_pos_of_ne_nil nonempty
  rw [List.length_drop]
  omega

theorem workerStep_turn {tail : TailPlan} {s t : SearchState Row} {w chunk : Nat}
    (step : workerStep core filters tail s w chunk = some t) : WorkerTurn core filters tail s w t := by
  unfold workerStep at step
  split at step
  · cases step
  · cases step
  · rename_i at_w
    exact claimStep_turn at_w step
  · rename_i at_w
    obtain ⟨queue, moved, same⟩ := Option.map_eq_some_iff.mp step
    cases same
    exact .released at_w rfl moved
  · rename_i at_w
    obtain ⟨queue, moved, same⟩ := Option.map_eq_some_iff.mp step
    cases same
    exact .released at_w rfl moved
  · rename_i left nonempty at_w
    rw [fetchKept_ok] at step
    cases step
    apply WorkerTurn.fetched at_w
    · simp only [Reading.holds]
      rw [← kept_append, List.take_append_drop]
    · exact drop_shorter nonempty (by decide)
  · rename_i left nonempty at_w
    obtain ⟨positive, same⟩ := emitChunk_eq step
    rw [same]
    apply WorkerTurn.fetched at_w
    · exact List.take_append_drop chunk left
    · exact drop_shorter nonempty positive
  · rename_i at_w
    cases step
    exact .claimed at_w
  · rename_i at_w
    cases step
    exact .begun at_w
  · rename_i at_w
    cases step
    exact .closed at_w
  · rename_i left nonempty at_w
    obtain ⟨positive, same⟩ := emitChunk_eq step
    rw [same]
    apply WorkerTurn.yielded at_w
    · exact List.take_append_drop chunk left
    · exact drop_shorter nonempty positive

inductive SearchMove (core : SearchCore) (filters : ScanFilters Row) (s : SearchState Row) :
    SearchEvent Row → SearchState Row → Prop where
  | finalized (unplanned : s.tail = none) :
      SearchMove core filters s .finalize { s with tail := some (finalizeSearchCore core s.table) }
  | turned {tail : TailPlan} {t : SearchState Row} {w chunk : Nat} (planned : s.tail = some tail)
      (turn : WorkerTurn core filters tail s w t) : SearchMove core filters s (.run w chunk) t
  | committed {table : DataTable Row} {artOnly : Bool} (visible : table.visible = s.table.visible) :
      SearchMove core filters s (.commit table artOnly) { s with table := table, artOnly := artOnly }
  | checkpointed {table : DataTable Row} (unlocked : s.vacuumLock = false)
      (vacuums : Vacuums s.artOnly s.table table) :
      SearchMove core filters s (.checkpoint table) { s with table := table }

theorem searchStep_move [DecidableEq Row] {s t : SearchState Row} {e : SearchEvent Row}
    (step : searchStep core filters s e = some t) : SearchMove core filters s e t := by
  cases e with
  | finalize =>
    simp only [searchStep] at step
    split at step
    · cases step
    · rename_i unplanned
      cases step
      exact .finalized unplanned
  | run w chunk =>
    simp only [searchStep] at step
    split at step
    · cases step
    · rename_i tail planned
      exact .turned planned (workerStep_turn step)
  | commit table artOnly =>
    obtain ⟨visible, same⟩ := Option.ite_none_right_eq_some.mp step
    cases same
    exact .committed visible
  | checkpoint table =>
    obtain ⟨⟨unlocked, vacuums⟩, same⟩ := Option.ite_none_right_eq_some.mp step
    cases same
    exact .checkpointed unlocked vacuums

theorem set_same {α : Type*} {l : List α} {w : Nat} {a : α} (at_w : l[w]? = some a) : l.set w a = l := by
  obtain ⟨bound, found⟩ := List.getElem?_eq_some_iff.mp at_w
  rw [← found, List.set_getElem_self]

section Queue

/-- A section of the queue leaves the other workers as they are, and hands out
    a batch exactly when it leaves its own worker fetching one. -/
structure QueueTurn (plan : Plan) (w : Nat) (s t : FetchState) : Prop where
  others : ∀ v : Nat, v ≠ w → t.workers[v]? = s.workers[v]?
  workers : t.workers.length = s.workers.length
  taken : ∀ batch, t.workers[w]? = some (.fetching batch) →
    t.handedPositions = s.handedPositions ++ batch.positions ∧
      batch.candidateOffset < batch.candidateEnd ∧
      batch.candidateEnd ≤ (plan.candidates batch.segmentOrdinal).length
  kept : (∀ batch, t.workers[w]? ≠ some (.fetching batch)) → t.handedPositions = s.handedPositions

theorem set_turn {plan : Plan} {s t : FetchState} {w : Nat} {old new : Worker}
    (at_w : s.workers[w]? = some old) (set : t.workers = s.workers.set w new)
    (idle : ∀ batch, new ≠ .fetching batch) (handed : t.handed = s.handed) : QueueTurn plan w s t where
  others v other := by rw [set, List.getElem?_set_ne (Ne.symm other)]
  workers := by rw [set, List.length_set]
  taken batch found := by
    have bound := (List.getElem?_eq_some_iff.mp at_w).1
    rw [set, List.getElem?_set_self bound] at found
    exact absurd (Option.some.inj found) (idle batch)
  kept _ := by rw [FetchState.handedPositions, handed]; rfl

theorem fetchStep_turn {plan : Plan} {s t : FetchState} {w : Nat} (ordered : Ordered plan s)
    (step : fetchStep plan s w = some t) : QueueTurn plan w s t := by
  rcases fetchStep_cases step with ⟨front, others, at_w, ready, rfl⟩ |
    ⟨at_w, _, _, _, rfl⟩ | ⟨ordinal, at_w, rfl⟩ | ⟨batch, at_w, rfl⟩ | ⟨at_w, _, _, _, rfl⟩ | ⟨at_w, rfl⟩
  · have bound := (List.getElem?_eq_some_iff.mp at_w).1
    have handed : (takeBatch s w front others).handedPositions =
        s.handedPositions ++ (cutBatch front).positions := by
      simp [takeBatch, FetchState.handedPositions]
    have now : (takeBatch s w front others).workers[w]? = some (.fetching (cutBatch front)) :=
      List.getElem?_set_self bound
    constructor
    · intro v other
      exact List.getElem?_set_ne (Ne.symm other)
    · exact List.length_set
    · intro batch found
      rw [now] at found
      cases found
      obtain ⟨decoded, unread⟩ := ordered.ready_decoded front (by rw [ready]; exact List.mem_cons_self)
      have bounds := cutBatch_bounds unread
      rw [decoded] at bounds
      exact ⟨handed, bounds⟩
    · intro still
      exact absurd now (still _)
  · exact set_turn at_w rfl (fun _ => Worker.noConfusion) rfl
  · exact set_turn at_w rfl (fun _ => Worker.noConfusion) rfl
  · exact set_turn at_w rfl (fun _ => Worker.noConfusion) rfl
  · exact set_turn at_w rfl (fun _ => Worker.noConfusion) rfl
  · exact set_turn at_w (set_same at_w).symm (fun _ => Worker.noConfusion) rfl

end Queue

section Units
variable {tail : TailPlan} {t : DataTable Row}

/-- The tail unit whose rowids hold a rowid. -/
def TailPlan.unitOf (tail : TailPlan) (r : Nat) : Option Nat :=
  if tail.tailStart ≤ r ∧ r < tail.tailEnd then some ((r - tail.tailStart) / tail.tailUnitRows) else none

theorem unitOf_eq (positive : 0 < tail.tailUnitRows) {r unit : Nat} :
    tail.unitOf r = some unit ↔ tail.unitStart unit ≤ r ∧ r < tail.unitEnd unit := by
  have inUnit : (r - tail.tailStart) / tail.tailUnitRows = unit ↔
      unit * tail.tailUnitRows ≤ r - tail.tailStart ∧
        r - tail.tailStart < unit * tail.tailUnitRows + tail.tailUnitRows := by
    rw [Nat.div_eq_iff positive]
    omega
  unfold TailPlan.unitOf TailPlan.unitEnd TailPlan.unitStart
  split
  · rw [Option.some.injEq, inUnit]
    omega
  · constructor
    · intro absent
      cases absent
    · intro bounds
      omega

theorem finalize_positive (core : SearchCore) (t : DataTable Row) :
    0 < (finalizeSearchCore core t).tailUnitRows :=
  Nat.lt_of_lt_of_le Nat.zero_lt_one (Nat.le_max_right _ _)

theorem unitOf_lt (core : SearchCore) (t : DataTable Row) {r unit : Nat}
    (found : (finalizeSearchCore core t).unitOf r = some unit) :
    unit < (finalizeSearchCore core t).tailUnits := by
  have positive := finalize_positive core t
  unfold TailPlan.unitOf at found
  split at found
  · rename_i bounds
    cases found
    have nonempty : (finalizeSearchCore core t).tailStart < (finalizeSearchCore core t).tailEnd := by omega
    have units : (finalizeSearchCore core t).tailUnits =
        ((finalizeSearchCore core t).tailEnd - (finalizeSearchCore core t).tailStart +
          (finalizeSearchCore core t).tailUnitRows - 1) / (finalizeSearchCore core t).tailUnitRows :=
      if_pos nonempty
    rw [units, Nat.div_lt_iff_lt_mul positive]
    have last := Nat.lt_div_mul_add (a := (finalizeSearchCore core t).tailEnd -
      (finalizeSearchCore core t).tailStart + (finalizeSearchCore core t).tailUnitRows - 1) positive
    omega
  · cases found

def unitRows (filters : ScanFilters Row) (tail : TailPlan) (t : DataTable Row) (localRows : List Row)
    (unit : Nat) : List Row :=
  ((t.visible.filter fun entry => filters.passes entry.2).filter fun entry =>
    decide (tail.unitOf entry.1 = some unit)).map Prod.snd ++
  if unit = tail.tailUnits then localRows.filter filters.passes else []

theorem readUnit_eq {laid : DataTable Row} (planned : tail = finalizeSearchCore core laid)
    (localRows : List Row) (unit : Nat) :
    tail.readUnit filters t localRows unit = unitRows filters tail t localRows unit := by
  have positive : 0 < tail.tailUnitRows := planned ▸ finalize_positive core laid
  unfold TailPlan.readUnit unitRows
  split
  · rename_i last
    have none_left : (t.visible.filter fun entry => filters.passes entry.2).filter (fun entry =>
        decide (tail.unitOf entry.1 = some unit)) = [] := by
      apply List.filter_eq_nil_iff.mpr
      intro entry _ here
      subst planned
      have below := unitOf_lt core laid (of_decide_eq_true here)
      omega
    rw [none_left]
    rfl
  · rw [boundedScan_eq, List.append_nil, List.filter_filter]
    apply congrArg
    apply List.filter_congr
    intro entry _
    unfold scanned
    rw [decide_eq_decide.mpr (unitOf_eq positive)]

theorem chosen_rows {α : Type*} {chosen : Nat} {units : List Nat} (distinct : units.Nodup)
    (rows : List α) :
    (units.flatMap fun unit => if unit = chosen then rows else []) =
      if chosen ∈ units then rows else [] := by
  induction units with
  | nil => rfl
  | cons unit rest ih =>
    obtain ⟨fresh, rest_distinct⟩ := List.nodup_cons.mp distinct
    rw [List.flatMap_cons, ih rest_distinct]
    by_cases here : unit = chosen
    · subst here
      simp [fresh]
    · have not_here : ¬ chosen = unit := fun same => here same.symm
      simp [here, not_here]

theorem units_perm {units : List Nat} (distinct : units.Nodup) (localRows : List Row) :
    (units.flatMap (unitRows filters tail t localRows)).Perm
      (((t.visible.filter fun entry => filters.passes entry.2).filter
          (hasKey (fun entry => tail.unitOf entry.1) units)).map Prod.snd ++
        if tail.tailUnits ∈ units then localRows.filter filters.passes else []) := by
  unfold unitRows
  refine (List.flatMap_append_perm units _ _).symm.trans ?_
  rw [chosen_rows distinct, ← List.map_flatMap]
  exact ((parts_perm _ _ distinct).map Prod.snd).append_right _

end Units

section Workers

def Local.fits : Local Row → Option Worker → Prop
  | .fetch none, view => view = some .claiming ∨ ∃ ordinal, view = some (.decoding ordinal)
  | .fetch (some _), view => ∃ batch, view = some (.fetching batch)
  | .scan, view | .claimed _, view | .reading _, view | .done, view =>
      ∀ worker, view = some worker → worker = .exhausted

structure Working (core : SearchCore) (s : SearchState Row) : Prop where
  exhausts : Exhausts core.plan s.queue
  fetchers : s.queue.workers.length = min s.locals.length core.plan.maxThreads
  fits : ∀ (w : Nat) (l : Local Row), s.locals[w]? = some l → l.fits s.queue.workers[w]?
  listed : ∀ (w : Nat) (reading : Reading Row), s.locals[w]? = some (.fetch (some reading)) →
    core.plan.segments.flatten ≠ []

theorem local_set {locals : List (Local Row)} {v w : Nat} {old new l : Local Row}
    (at_w : locals[w]? = some old) (at_v : (locals.set w new)[v]? = some l) :
    (v = w ∧ l = new) ∨ (v ≠ w ∧ locals[v]? = some l) := by
  by_cases same : w = v
  · subst same
    rw [List.getElem?_set_self (List.getElem?_eq_some_iff.mp at_w).1] at at_v
    exact Or.inl ⟨rfl, (Option.some.inj at_v).symm⟩
  · rw [List.getElem?_set_ne same] at at_v
    exact Or.inr ⟨fun back => same back.symm, at_v⟩

/-- A turn that leaves the queue alone leaves its worker in a phase that fits. -/
theorem working_set {s t : SearchState Row} {w : Nat} {old new : Local Row} (working : Working core s)
    (at_w : s.locals[w]? = some old) (queue : t.queue = s.queue)
    (locals : t.locals = s.locals.set w new) (fits : ∀ view, old.fits view → new.fits view)
    (fetch : ∀ reading, new = .fetch (some reading) → ∃ before, old = .fetch (some before)) :
    Working core t where
  exhausts := queue ▸ working.exhausts
  fetchers := by rw [queue, locals, List.length_set, working.fetchers]
  fits v l at_v := by
    rw [locals] at at_v
    rw [queue]
    rcases local_set at_w at_v with ⟨rfl, rfl⟩ | ⟨_, before⟩
    · exact fits _ (working.fits v old at_w)
    · exact working.fits v l before
  listed v reading at_v := by
    rw [locals] at at_v
    rcases local_set at_w at_v with ⟨rfl, same⟩ | ⟨_, before⟩
    · obtain ⟨earlier, was⟩ := fetch reading same.symm
      exact working.listed v earlier (was ▸ at_w)
    · exact working.listed v reading before

/-- A turn through the queue leaves its worker in a phase that fits. -/
theorem working_queue {s : SearchState Row} {w : Nat} {batch : Option (Reading Row)} {new : Local Row}
    {queue : FetchState} (working : Working core s) (at_w : s.locals[w]? = some (.fetch batch))
    (moved : fetchStep core.plan s.queue w = some queue) (fits : new.fits queue.workers[w]?)
    (listed : ∀ reading, new = .fetch (some reading) → core.plan.segments.flatten ≠ []) :
    Working core { s with queue := queue, locals := s.locals.set w new } := by
  have turn := fetchStep_turn working.exhausts.ordered moved
  constructor
  case exhausts => exact step_exhausts core.plan s.queue w queue working.exhausts moved
  case fetchers =>
    simp only [turn.workers, List.length_set]
    exact working.fetchers
  case fits =>
    intro v l at_v
    rcases local_set at_w at_v with ⟨rfl, rfl⟩ | ⟨other, before⟩
    · exact fits
    · simp only [turn.others v other]
      exact working.fits v l before
  case listed =>
    intro v reading at_v
    rcases local_set at_w at_v with ⟨_, same⟩ | ⟨_, before⟩
    · exact listed reading same.symm
    · exact working.listed v reading before

theorem fetch_known {s : SearchState Row} {w : Nat} {batch : Option (Reading Row)} (working : Working core s)
    (at_w : s.locals[w]? = some (.fetch batch)) : ∃ worker, s.queue.workers[w]? = some worker := by
  have fits := working.fits w _ at_w
  cases batch with
  | none =>
    rcases fits with claiming | ⟨ordinal, decoding⟩
    · exact ⟨_, claiming⟩
    · exact ⟨_, decoding⟩
  | some reading =>
    obtain ⟨batch, fetching⟩ := fits
    exact ⟨_, fetching⟩

theorem queued_fits {s : SearchState Row} {w : Nat} {queue : FetchState} (working : Working core s)
    (at_w : s.locals[w]? = some (.fetch none)) (moved : fetchStep core.plan s.queue w = some queue)
    (still : ∀ batch, queue.workers[w]? ≠ some (.fetching batch))
    (unfinished : queue.workers[w]? ≠ some .exhausted) :
    (Local.fetch none : Local Row).fits queue.workers[w]? := by
  obtain ⟨worker, known⟩ := fetch_known working at_w
  have bound := (List.getElem?_eq_some_iff.mp known).1
  rw [← (fetchStep_turn working.exhausts.ordered moved).workers] at bound
  have found := List.getElem?_eq_getElem bound
  cases now : queue.workers[w] with
  | claiming => exact Or.inl (found.trans (congrArg some now))
  | decoding ordinal => exact Or.inr ⟨ordinal, found.trans (congrArg some now)⟩
  | fetching batch => exact absurd (found.trans (congrArg some now)) (still batch)
  | exhausted => exact absurd (found.trans (congrArg some now)) unfinished

theorem batch_listed {ordinal : Nat} (core : SearchCore) (some_there : core.plan.candidates ordinal ≠ []) :
    core.plan.segments.flatten ≠ [] := by
  intro none_left
  apply some_there
  unfold Plan.candidates
  rw [List.getD_eq_getElem?_getD]
  cases found : core.plan.segments[ordinal]? with
  | none => rfl
  | some segment => exact List.flatten_eq_nil_iff.mp none_left segment (List.mem_of_getElem? found)

theorem release_claiming {plan : Plan} {s t : FetchState} {w : Nat} {batch : Batch}
    (at_w : s.workers[w]? = some (.fetching batch)) (step : fetchStep plan s w = some t) :
    t.workers[w]? = some .claiming ∧ t.handedPositions = s.handedPositions := by
  unfold fetchStep at step
  rw [at_w] at step
  cases step
  exact ⟨List.getElem?_set_self (List.getElem?_eq_some_iff.mp at_w).1, rfl⟩

theorem working_turn {tail : TailPlan} {s t : SearchState Row} {w : Nat} (working : Working core s)
    (turn : WorkerTurn core filters tail s w t) : Working core t := by
  cases turn with
  | queued at_w moved still unfinished =>
    have kept := working_queue working at_w moved (queued_fits working at_w moved still unfinished) nofun
    rwa [set_same at_w] at kept
  | batched at_w moved taken =>
    rename_i queue batch
    obtain ⟨_, order, inside⟩ := (fetchStep_turn working.exhausts.ordered moved).taken batch taken
    apply working_queue working at_w moved
    · exact ⟨batch, taken⟩
    · intro reading _
      have some_there : core.plan.candidates batch.segmentOrdinal ≠ [] :=
        List.ne_nil_of_length_pos (Nat.lt_of_lt_of_le (Nat.zero_lt_of_lt order) inside)
      exact batch_listed core some_there
  | exhausted at_w moved done =>
    apply working_queue working at_w moved
    · intro worker now
      rw [done] at now
      exact (Option.some.inj now).symm
    · nofun
  | released at_w empty moved =>
    obtain ⟨batch, fetching⟩ := working.fits w _ at_w
    apply working_queue working at_w moved
    · exact Or.inl (release_claiming fetching moved).1
    · nofun
  | fetched at_w split shorter =>
    refine working_set working at_w rfl rfl ?_ ?_
    · intro view fits
      exact fits
    · intro reading _
      exact ⟨_, rfl⟩
  | claimed at_w =>
    refine working_set working at_w rfl rfl ?_ ?_
    · intro view fits
      split
      · exact fits
      · exact fits
    · intro reading same
      split at same
      · cases same
      · cases same
  | begun at_w =>
    refine working_set working at_w rfl rfl ?_ ?_
    · intro view fits
      exact fits
    · nofun
  | yielded at_w split shorter =>
    refine working_set working at_w rfl rfl ?_ ?_
    · intro view fits
      exact fits
    · nofun
  | closed at_w =>
    refine working_set working at_w rfl rfl ?_ ?_
    · intro view fits
      exact fits
    · nofun

def Local.claims : Local Row → List Nat
  | .claimed unit => [unit]
  | _ => []

def SearchState.unitCount (s : SearchState Row) : Nat :=
  match s.tail with
  | none => 0
  | some tail => tail.tailUnits + 1

structure Counted (s : SearchState Row) : Prop where
  idle : s.tail = none → s.nextTailUnit = 0
  units : Conserved Local.claims s.locals s.begun (List.range (min s.nextTailUnit s.unitCount))
  done : ∀ (w : Nat), s.locals[w]? = some .done → ∃ tail, s.tail = some tail ∧ tail.tailUnits < s.nextTailUnit

theorem claimed_range {s : SearchState Row} {w unit : Nat} (counted : Counted s)
    (at_w : s.locals[w]? = some (.claimed unit)) : unit < min s.nextTailUnit s.unitCount := by
  have claims : unit ∈ s.begun ++ s.locals.flatMap Local.claims :=
    List.mem_append_right _ (List.mem_flatMap.mpr ⟨_, List.mem_of_getElem? at_w, List.mem_singleton_self unit⟩)
  exact List.mem_range.mp (counted.units.mem_iff.mp claims)

theorem counted_set {s t : SearchState Row} {w : Nat} {old new : Local Row} {gone : List Nat}
    (counted : Counted s) (at_w : s.locals[w]? = some old) (tail : t.tail = s.tail)
    (next : t.nextTailUnit = s.nextTailUnit) (locals : t.locals = s.locals.set w new)
    (begun : t.begun = s.begun ++ gone) (moved : gone ++ new.claims = old.claims)
    (unfinished : new ≠ .done) : Counted t where
  idle none_yet := next ▸ counted.idle (tail ▸ none_yet)
  units := by
    have same_put : gone ++ new.claims ~ old.claims ++ [] := by rw [moved, List.append_nil]
    have after := conserved_set at_w same_put counted.units
    rwa [List.append_nil, ← begun, ← locals, ← next,
      show s.unitCount = t.unitCount by simp only [SearchState.unitCount, tail]] at after
  done v at_v := by
    rw [locals] at at_v
    rw [tail, next]
    rcases local_set at_w at_v with ⟨_, same⟩ | ⟨_, before⟩
    · exact absurd same.symm unfinished
    · exact counted.done v before

theorem counted_claim {tail : TailPlan} {s : SearchState Row} {w : Nat} (counted : Counted s)
    (planned : s.tail = some tail) (at_w : s.locals[w]? = some .scan) :
    Counted { s with
      nextTailUnit := s.nextTailUnit + 1
      locals := s.locals.set w
        (if tail.tailUnits < s.nextTailUnit then .done else .claimed s.nextTailUnit) } := by
  have count : s.unitCount = tail.tailUnits + 1 := by simp only [SearchState.unitCount, planned]
  have units := counted.units
  rw [count] at units
  constructor
  case idle =>
    intro none_yet
    rw [planned] at none_yet
    cases none_yet
  case units =>
    have later : ({ s with
        nextTailUnit := s.nextTailUnit + 1
        locals := s.locals.set w (if tail.tailUnits < s.nextTailUnit then .done
          else .claimed s.nextTailUnit) } : SearchState Row).unitCount = tail.tailUnits + 1 := count
    rw [later]
    simp only
    split
    · rename_i past
      have still : min (s.nextTailUnit + 1) (tail.tailUnits + 1) = min s.nextTailUnit (tail.tailUnits + 1) := by
        omega
      have nothing : [] ++ (Local.done : Local Row).claims ~ (Local.scan : Local Row).claims ++ [] :=
        List.Perm.refl _
      have after := conserved_set at_w nothing units
      rwa [List.append_nil, List.append_nil, ← still] at after
    · rename_i inside
      have next : List.range (min s.nextTailUnit (tail.tailUnits + 1)) ++ [s.nextTailUnit] =
          List.range (min (s.nextTailUnit + 1) (tail.tailUnits + 1)) := by
        rw [Nat.min_eq_left (by omega), Nat.min_eq_left (by omega), List.range_succ]
      have taken : [] ++ (Local.claimed s.nextTailUnit : Local Row).claims ~
          (Local.scan : Local Row).claims ++ [s.nextTailUnit] := List.Perm.refl _
      have after := conserved_set at_w taken units
      rwa [List.append_nil, next] at after
  case done =>
    intro v at_v
    refine ⟨tail, planned, ?_⟩
    simp only at at_v ⊢
    rcases local_set at_w at_v with ⟨_, same⟩ | ⟨_, before⟩
    · split at same
      · omega
      · cases same
    · obtain ⟨other, found, past⟩ := counted.done v before
      rw [planned] at found
      cases found
      omega

theorem counted_finalize {s : SearchState Row} (tail : TailPlan) (counted : Counted s) (unplanned : s.tail = none) :
    Counted { s with tail := some tail } := by
  have next : s.nextTailUnit = 0 := counted.idle unplanned
  have units := counted.units
  rw [next, Nat.zero_min] at units
  constructor
  case idle =>
    intro none_yet
    cases none_yet
  case units =>
    simp only [next, Nat.zero_min]
    exact units
  case done =>
    intro w at_w
    obtain ⟨_, found, _⟩ := counted.done w at_w
    rw [unplanned] at found
    cases found

theorem counted_turn {tail : TailPlan} {s t : SearchState Row} {w : Nat} (counted : Counted s)
    (planned : s.tail = some tail) (turn : WorkerTurn core filters tail s w t) : Counted t := by
  cases turn with
  | queued at_w moved still unfinished => exact ⟨counted.idle, counted.units, counted.done⟩
  | batched at_w moved taken =>
    exact counted_set counted at_w rfl rfl rfl (List.append_nil _).symm rfl nofun
  | exhausted at_w moved done =>
    exact counted_set counted at_w rfl rfl rfl (List.append_nil _).symm rfl nofun
  | released at_w empty moved =>
    exact counted_set counted at_w rfl rfl rfl (List.append_nil _).symm rfl nofun
  | fetched at_w split shorter =>
    exact counted_set counted at_w rfl rfl rfl (List.append_nil _).symm rfl nofun
  | claimed at_w => exact counted_claim counted planned at_w
  | begun at_w => exact counted_set counted at_w rfl rfl rfl rfl rfl nofun
  | yielded at_w split shorter =>
    exact counted_set counted at_w rfl rfl rfl (List.append_nil _).symm rfl nofun
  | closed at_w =>
    exact counted_set counted at_w rfl rfl rfl (List.append_nil _).symm rfl nofun

end Workers

section Rows

def Local.holds (filters : ScanFilters Row) (t : DataTable Row) : Local Row → List Row
  | .fetch (some batch) => batch.holds filters t
  | .reading left => left
  | _ => []

def SearchState.handedRowids (core : SearchCore) (s : SearchState Row) : List Nat :=
  s.queue.handedPositions.map (candidateAt core)

def SearchState.rowsOf (filters : ScanFilters Row) (s : SearchState Row) (unit : Nat) : List Row :=
  match s.tail with
  | none => []
  | some tail => unitRows filters tail s.table s.localRows unit

def SearchState.read (core : SearchCore) (filters : ScanFilters Row) (s : SearchState Row) : List Row :=
  kept filters s.table (s.handedRowids core) ++ s.begun.flatMap (s.rowsOf filters)

def Accounted (core : SearchCore) (filters : ScanFilters Row) (s : SearchState Row) : Prop :=
  Conserved (Local.holds filters s.table) s.locals s.emitted (s.read core filters)

theorem accounted_set {s t : SearchState Row} {w : Nat} {old new : Local Row} {gone added : List Row}
    (accounted : Accounted core filters s) (at_w : s.locals[w]? = some old) (table : t.table = s.table)
    (locals : t.locals = s.locals.set w new) (emitted : t.emitted = s.emitted ++ gone)
    (read : s.read core filters ++ added ~ t.read core filters)
    (moved : gone ++ new.holds filters s.table ~ old.holds filters s.table ++ added) :
    Accounted core filters t := by
  unfold Accounted
  rw [table, locals, emitted]
  exact conserved_put (conserved_set at_w moved accounted) read

theorem accounted_same {s t : SearchState Row} {w : Nat} {old new : Local Row} {gone : List Row}
    (accounted : Accounted core filters s) (at_w : s.locals[w]? = some old) (table : t.table = s.table)
    (locals : t.locals = s.locals.set w new) (emitted : t.emitted = s.emitted ++ gone)
    (read : t.read core filters = s.read core filters)
    (moved : gone ++ new.holds filters s.table = old.holds filters s.table) :
    Accounted core filters t := by
  have unread : s.read core filters ++ [] ~ t.read core filters := by rw [read, List.append_nil]
  apply accounted_set accounted at_w table locals emitted unread
  rw [moved, List.append_nil]

theorem accounted_turn {tail : TailPlan} {s t : SearchState Row} {laid : DataTable Row} {w : Nat}
    (accounted : Accounted core filters s) (working : Working core s)
    (probed : Probed filters core s.table) (planned : s.tail = some tail)
    (made : tail = finalizeSearchCore core laid) (turn : WorkerTurn core filters tail s w t) :
    Accounted core filters t := by
  have ordered := working.exhausts.ordered
  cases turn with
  | queued at_w moved still unfinished =>
    have handed := (fetchStep_turn ordered moved).kept still
    unfold Accounted SearchState.read SearchState.handedRowids at *
    rwa [handed]
  | batched at_w moved taken =>
    rename_i queue batch
    obtain ⟨handed, order, inside⟩ := (fetchStep_turn ordered moved).taken batch taken
    refine @accounted_set _ _ _ _ _ _ _ _ []
      (kept filters s.table (batch.positions.map (candidateAt core))) accounted at_w rfl rfl
      (List.append_nil _).symm ?_ (startBatch_holds probed order inside)
    unfold SearchState.read SearchState.handedRowids
    rw [handed, List.map_append, kept_append, List.append_assoc, List.append_assoc]
    exact List.perm_append_comm.append_left _
  | exhausted at_w moved done =>
    have handed := (fetchStep_turn ordered moved).kept fun batch taken => by
      rw [done] at taken
      cases taken
    refine accounted_same accounted at_w rfl rfl (List.append_nil _).symm ?_ rfl
    unfold SearchState.read SearchState.handedRowids
    rw [handed]
    rfl
  | released at_w empty moved =>
    obtain ⟨batch, fetching⟩ := working.fits w _ at_w
    have handed := (release_claiming fetching moved).2
    refine accounted_same accounted at_w rfl rfl (List.append_nil _).symm ?_ empty.symm
    unfold SearchState.read SearchState.handedRowids
    rw [handed]
    rfl
  | fetched at_w split shorter => exact accounted_same accounted at_w rfl rfl rfl rfl split
  | claimed at_w =>
    refine accounted_same accounted at_w rfl rfl (List.append_nil _).symm rfl ?_
    split
    · rfl
    · rfl
  | begun at_w =>
    rename_i unit
    have rows : tail.readUnit filters s.table s.localRows unit = s.rowsOf filters unit := by
      rw [readUnit_eq made, SearchState.rowsOf, planned]
    refine @accounted_set _ _ _ _ _ _ _ _ [] (s.rowsOf filters unit) accounted at_w rfl rfl
      (List.append_nil _).symm ?_ (List.Perm.of_eq rows)
    unfold SearchState.read
    rw [List.flatMap_append, List.flatMap_singleton, ← List.append_assoc]
    rfl
  | yielded at_w split shorter => exact accounted_same accounted at_w rfl rfl rfl rfl split
  | closed at_w => exact accounted_same accounted at_w rfl rfl (List.append_nil _).symm rfl rfl

end Rows

section Host

theorem fetch_congr {t u : DataTable Row} (visible : u.visible = t.visible) : u.fetch = t.fetch := by
  have rows : ∀ r, u.fetchRow r = t.fetchRow r := by
    intro r
    apply Option.ext
    intro row
    rw [fetchRow_eq_some, fetchRow_eq_some, visible]
  funext rowids
  simp only [DataTable.fetch, rows]

theorem kept_congr {t u : DataTable Row} (visible : u.visible = t.visible) :
    kept filters u = kept filters t := by
  funext rowids
  simp only [kept, fetch_congr visible]

theorem accounted_congr {s : SearchState Row} {table : DataTable Row} (artOnly : Bool)
    (visible : table.visible = s.table.visible) (accounted : Accounted core filters s) :
    Accounted core filters { s with table := table, artOnly := artOnly } := by
  have holds : Local.holds filters table = Local.holds filters s.table := by
    funext l
    unfold Local.holds Reading.holds
    rw [kept_congr visible]
  have rows : ({ s with table := table, artOnly := artOnly } : SearchState Row).rowsOf filters =
      s.rowsOf filters := by
    funext unit
    unfold SearchState.rowsOf unitRows
    simp only [visible]
  unfold Accounted SearchState.read SearchState.handedRowids at *
  simp only [holds, rows, kept_congr visible]
  exact accounted

/-- What the host and the policy's init owe the search: the index covers, the
    rows to emit stay the same, and a search with a mark holds the lock. -/
structure Host (core : SearchCore) (filters : ScanFilters Row) (expected : List Row)
    (s : SearchState Row) : Prop where
  probed : Probed filters core s.table
  expected : s.matches filters = expected
  lock : s.vacuumLock = decide (0 ≤ core.hwm)
  waiting : s.tail = none → s.emitted = []
  planned : ∀ tail, s.tail = some tail →
    (∃ laid : DataTable Row, tail = finalizeSearchCore core laid) ∧
      ∀ entry ∈ s.table.visible, entry.1 < tail.tailEnd

theorem host_turn {tail : TailPlan} {s t : SearchState Row} {w : Nat} {expected : List Row}
    (host : Host core filters expected s) (planned : s.tail = some tail)
    (turn : WorkerTurn core filters tail s w t) : Host core filters expected t := by
  have same : t.table = s.table ∧ t.localRows = s.localRows ∧ t.vacuumLock = s.vacuumLock ∧
      t.tail = s.tail := by
    cases turn with
    | queued | batched | exhausted | released | fetched | claimed | begun | yielded | closed =>
      exact ⟨rfl, rfl, rfl, rfl⟩
  obtain ⟨table, localRows, lock, tail_same⟩ := same
  constructor
  case probed => rw [table]; exact host.probed
  case expected =>
    rw [← host.expected]
    unfold SearchState.matches
    rw [table, localRows]
  case lock => rw [lock, host.lock]
  case waiting =>
    intro none_yet
    rw [tail_same, planned] at none_yet
    cases none_yet
  case planned =>
    rw [tail_same, table]
    exact host.planned

/-- A search without a mark has no candidates, so what it reads by rowid is tail. -/
theorem no_candidates {t : DataTable Row} (probed : Probed filters core t) (unmarked : core.hwm < 0) :
    core.plan.segments.flatten = [] := by
  apply List.eq_nil_iff_forall_not_mem.mpr
  intro r listed
  have low := probed.below r listed
  omega

theorem none_handed {s : SearchState Row} (working : Working core s)
    (none_listed : core.plan.segments.flatten = []) : s.handedRowids core = [] := by
  have covered := working.exhausts.ordered.covered
  have none_planned : core.plan.positions (List.range s.queue.queue.nextPublish) = [] := by
    apply List.flatMap_eq_nil_iff.mpr
    intro ordinal _
    have empty : core.plan.candidates ordinal = [] := by
      by_contra some_there
      exact batch_listed core some_there none_listed
    rw [empty]
    rfl
  rw [none_planned] at covered
  unfold SearchState.handedRowids
  rw [(List.append_eq_nil_iff.mp covered).1]
  rfl

/-- The rowid lies in a unit whose scan has been initialized. -/
def SearchState.beganRow (s : SearchState Row) (r : Nat) : Bool :=
  match s.tail with
  | none => false
  | some tail => hasKey (fun entry : Nat => tail.unitOf entry) s.begun r

/-- A renumbering keeps each matching row in the units already begun, or out of them. -/
def KeepsSides (filters : ScanFilters Row) (s : SearchState Row) : SearchEvent Row → Prop
  | .checkpoint table => List.Forall₂ (fun a b => filters.passes a.2 = true →
      s.beganRow a.1 = s.beganRow b.1) s.table.visible table.visible
  | .finalize | .run _ _ | .commit _ _ => True

instance (filters : ScanFilters Row) (s : SearchState Row) :
    ∀ e, Decidable (KeepsSides filters s e)
  | .checkpoint _ => inferInstanceAs (Decidable (List.Forall₂ _ _ _))
  | .finalize | .run _ _ | .commit _ _ => isTrue trivial

theorem vacuums_moved {movable : Bool} {before after : DataTable Row}
    (vacuums : Vacuums movable before after) :
    List.Forall₂ (fun a b => b.2 = a.2 ∧ b.1 ≤ a.1) before.visible after.visible := by
  unfold Vacuums at vacuums
  split at vacuums
  · exact vacuums
  · rw [vacuums]
    exact List.forall₂_same.mpr fun entry _ => ⟨rfl, Nat.le_refl _⟩

theorem moved_from {before after : List (Nat × Row)}
    (moved : List.Forall₂ (fun a b => b.2 = a.2 ∧ b.1 ≤ a.1) before after) {entry : Nat × Row}
    (present : entry ∈ after) : ∃ old ∈ before, entry.2 = old.2 ∧ entry.1 ≤ old.1 := by
  induction moved with
  | nil => cases present
  | @cons a b _ _ step _ ih =>
    rcases List.mem_cons.mp present with rfl | later
    · exact ⟨a, List.mem_cons_self, step⟩
    · obtain ⟨old, listed, same⟩ := ih later
      exact ⟨old, List.mem_cons_of_mem a listed, same⟩

theorem filter_moved {passes : Row → Bool} {before after : List (Nat × Row)} {old new : Nat × Row → Bool}
    (moved : List.Forall₂ (fun a b => b.2 = a.2 ∧ b.1 ≤ a.1) before after)
    (sides : List.Forall₂ (fun a b => passes a.2 = true → old a = new b) before after) :
    ((after.filter fun entry => passes entry.2).filter new).map Prod.snd =
      ((before.filter fun entry => passes entry.2).filter old).map Prod.snd := by
  induction moved with
  | nil => rfl
  | @cons a b _ _ step _ ih =>
    obtain ⟨side, rest⟩ := List.forall₂_cons.mp sides
    have tail := ih rest
    by_cases passing : passes a.2 = true
    · have passing' : passes b.2 = true := step.1 ▸ passing
      rw [List.filter_cons_of_pos (p := fun entry : Nat × Row => passes entry.2) passing,
        List.filter_cons_of_pos (p := fun entry : Nat × Row => passes entry.2) passing',
        List.filter_cons, List.filter_cons, side passing]
      split
      · rw [List.map_cons, List.map_cons, tail, step.1]
      · exact tail
    · have refused : ¬ passes b.2 = true := step.1 ▸ passing
      rw [List.filter_cons_of_neg (p := fun entry : Nat × Row => passes entry.2) passing,
        List.filter_cons_of_neg (p := fun entry : Nat × Row => passes entry.2) refused]
      exact tail

end Host

section Runs
variable {expected : List Row}

structure Tracked (core : SearchCore) (filters : ScanFilters Row) (expected : List Row)
    (s : SearchState Row) : Prop where
  working : Working core s
  counted : Counted s
  host : Host core filters expected s
  accounted : Accounted core filters s

theorem begun_nodup {s : SearchState Row} (counted : Counted s) : s.begun.Nodup := by
  have all : (s.begun ++ s.locals.flatMap Local.claims).Nodup :=
    counted.units.nodup_iff.mpr List.nodup_range
  exact (List.nodup_append.mp all).1

theorem tracked_finalize {s : SearchState Row} (tracked : Tracked core filters expected s)
    (unplanned : s.tail = none) :
    Tracked core filters expected { s with tail := some (finalizeSearchCore core s.table) } := by
  have next : s.nextTailUnit = 0 := tracked.counted.idle unplanned
  have units := tracked.counted.units
  rw [next, Nat.zero_min] at units
  have nothing := List.append_eq_nil_iff.mp (List.perm_nil.mp units)
  constructor
  case working =>
    exact ⟨tracked.working.exhausts, tracked.working.fetchers, tracked.working.fits,
      tracked.working.listed⟩
  case counted => exact counted_finalize _ tracked.counted unplanned
  case host =>
    refine ⟨tracked.host.probed, tracked.host.expected, tracked.host.lock, ?_, ?_⟩
    · intro none_yet
      cases none_yet
    · intro tail planned
      cases planned
      exact ⟨⟨s.table, rfl⟩, fun entry present => s.table.visible_below present⟩
  case accounted =>
    have accounted := tracked.accounted
    unfold Accounted SearchState.read SearchState.handedRowids at *
    simp only [nothing.1] at accounted ⊢
    exact accounted

theorem tracked_commit {s : SearchState Row} {table : DataTable Row} (artOnly : Bool)
    (tracked : Tracked core filters expected s) (visible : table.visible = s.table.visible) :
    Tracked core filters expected { s with table := table, artOnly := artOnly } where
  working := ⟨tracked.working.exhausts, tracked.working.fetchers, tracked.working.fits,
    tracked.working.listed⟩
  counted := ⟨tracked.counted.idle, tracked.counted.units, tracked.counted.done⟩
  host := by
    have probed := tracked.host.probed
    refine ⟨⟨probed.ascending, probed.below, ?_, probed.threads, probed.marked⟩, ?_,
      tracked.host.lock, tracked.host.waiting, ?_⟩
    · simp only [visible]
      exact probed.covers
    · rw [← tracked.host.expected]
      unfold SearchState.matches
      simp only [visible]
    · simp only [visible]
      exact tracked.host.planned
  accounted := accounted_congr artOnly visible tracked.accounted

/-- Where no side changes, the units begun hold the same rows in the new numbering. -/
theorem begun_moved {s : SearchState Row} {table : DataTable Row} (counted : Counted s)
    (vacuums : Vacuums s.artOnly s.table table) (keeps : KeepsSides filters s (.checkpoint table)) :
    s.begun.flatMap (s.rowsOf filters) ~
      s.begun.flatMap (({ s with table := table } : SearchState Row).rowsOf filters) := by
  rcases Option.eq_none_or_eq_some s.tail with planned | ⟨tail, planned⟩
  · have nothing : s.unitCount = 0 := by simp only [SearchState.unitCount, planned]
    have units := counted.units
    rw [nothing, Nat.min_zero] at units
    rw [(List.append_eq_nil_iff.mp (List.perm_nil.mp units)).1]
    exact List.Perm.refl _
  · have before : s.rowsOf filters = unitRows filters tail s.table s.localRows := by
      funext unit
      simp only [SearchState.rowsOf, planned]
    have after : ({ s with table := table } : SearchState Row).rowsOf filters =
        unitRows filters tail table s.localRows := by
      funext unit
      simp only [SearchState.rowsOf, planned]
    have sides : List.Forall₂ (fun a b => filters.passes a.2 = true →
        hasKey (fun entry : Nat × Row => tail.unitOf entry.1) s.begun a =
          hasKey (fun entry : Nat × Row => tail.unitOf entry.1) s.begun b)
        s.table.visible table.visible := by
      apply List.Forall₂.imp _ keeps
      intro a b same passing
      have side := same passing
      unfold SearchState.beganRow at side
      rw [planned] at side
      exact side
    rw [before, after]
    refine (units_perm (begun_nodup counted) _).trans (List.Perm.trans ?_ (units_perm (begun_nodup counted) _).symm)
    rw [filter_moved (vacuums_moved vacuums) sides]

theorem matches_moved {s : SearchState Row} {table : DataTable Row}
    (vacuums : Vacuums s.artOnly s.table table) :
    ({ s with table := table } : SearchState Row).matches filters = s.matches filters := by
  have rows : table.visible.map Prod.snd = s.table.visible.map Prod.snd := by
    have moved := vacuums_moved vacuums
    generalize s.table.visible = before, table.visible = after at moved
    induction moved with
    | nil => rfl
    | cons step _ ih => rw [List.map_cons, List.map_cons, ih, step.1]
  unfold SearchState.matches
  simp only [rows]

theorem tracked_checkpoint {s : SearchState Row} {table : DataTable Row}
    (tracked : Tracked core filters expected s) (unlocked : s.vacuumLock = false)
    (vacuums : Vacuums s.artOnly s.table table) (keeps : KeepsSides filters s (.checkpoint table)) :
    Tracked core filters expected { s with table := table } := by
  have unmarked : core.hwm < 0 := by
    have lock := tracked.host.lock
    rw [unlocked] at lock
    have refused := of_decide_eq_false lock.symm
    omega
  have none_listed := no_candidates tracked.host.probed unmarked
  have none_fetching : ∀ l ∈ s.locals, l.holds filters table = l.holds filters s.table := by
    intro l present
    obtain ⟨w, at_w⟩ := List.getElem?_of_mem present
    cases l with
    | fetch batch =>
      cases batch with
      | none => rfl
      | some reading => exact absurd none_listed (tracked.working.listed w reading at_w)
    | scan | claimed | reading | done => rfl
  constructor
  case working =>
    exact ⟨tracked.working.exhausts, tracked.working.fetchers, tracked.working.fits,
      tracked.working.listed⟩
  case counted => exact ⟨tracked.counted.idle, tracked.counted.units, tracked.counted.done⟩
  case host =>
    have probed := tracked.host.probed
    refine ⟨⟨probed.ascending, probed.below, ?_, probed.threads, probed.marked⟩, ?_,
      tracked.host.lock, tracked.host.waiting, ?_⟩
    · intro entry _ _ low
      omega
    · rw [matches_moved vacuums]
      exact tracked.host.expected
    · intro tail planned
      obtain ⟨made, below⟩ := tracked.host.planned tail planned
      refine ⟨made, ?_⟩
      intro entry present
      obtain ⟨old, listed, _, lower⟩ := moved_from (vacuums_moved vacuums) present
      have bound := below old listed
      omega
  case accounted =>
    have nothing := none_handed tracked.working none_listed
    have moved := begun_moved tracked.counted vacuums keeps
    have accounted := tracked.accounted
    unfold Accounted SearchState.read at *
    rw [nothing] at accounted
    have same : ({ s with table := table } : SearchState Row).handedRowids core = [] := nothing
    rw [same]
    unfold Conserved at *
    rw [List.flatMap_congr none_fetching]
    exact accounted.trans moved

theorem tracked_step [DecidableEq Row] (s : SearchState Row) (e : SearchEvent Row) (t : SearchState Row)
    (tracked : Tracked core filters expected s) (keeps : KeepsSides filters s e)
    (step : searchStep core filters s e = some t) : Tracked core filters expected t := by
  cases searchStep_move step with
  | finalized unplanned => exact tracked_finalize tracked unplanned
  | turned planned turn =>
    obtain ⟨⟨laid, made⟩, _⟩ := tracked.host.planned _ planned
    exact ⟨working_turn tracked.working turn, counted_turn tracked.counted planned turn,
      host_turn tracked.host planned turn,
      accounted_turn tracked.accounted tracked.working tracked.host.probed planned made turn⟩
  | committed visible => exact tracked_commit _ tracked visible
  | checkpointed unlocked vacuums => exact tracked_checkpoint tracked unlocked vacuums keeps

theorem start_fits (core : SearchCore) (t : DataTable Row) (artOnly : Bool) (localRows : List Row)
    (workers : Nat) {w : Nat} {l : Local Row}
    (at_w : (startSearch core t artOnly localRows workers).locals[w]? = some l) :
    l.fits (startSearch core t artOnly localRows workers).queue.workers[w]? := by
  simp only [startSearch, start, List.getElem?_replicate] at at_w ⊢
  by_cases fetcher : w < min workers core.plan.maxThreads
  · rw [List.getElem?_append_left (by rw [List.length_replicate]; exact fetcher),
      List.getElem?_replicate, if_pos fetcher] at at_w
    cases at_w
    exact Or.inl (if_pos fetcher)
  · rw [List.getElem?_append_right (by rw [List.length_replicate]; omega)] at at_w
    cases List.eq_of_mem_replicate (List.mem_of_getElem? at_w)
    intro worker known
    rw [if_neg fetcher] at known
    cases known

theorem start_idle (core : SearchCore) (t : DataTable Row) (artOnly : Bool) (localRows : List Row)
    (workers : Nat) :
    ∀ l ∈ (startSearch core t artOnly localRows workers).locals, l = .fetch none ∨ l = .scan := by
  intro l present
  rcases List.mem_append.mp present with fetcher | scanner
  · exact Or.inl (List.eq_of_mem_replicate fetcher)
  · exact Or.inr (List.eq_of_mem_replicate scanner)

theorem working_start (core : SearchCore) (t : DataTable Row) (artOnly : Bool) (localRows : List Row)
    (workers : Nat) : Working core (startSearch core t artOnly localRows workers) := by
  constructor
  case exhausts =>
    refine ⟨start_ordered _ _, ?_⟩
    intro w at_w
    simp [startSearch, start, List.getElem?_replicate] at at_w
  case fetchers => simp [startSearch, start]
  case fits =>
    intro w l at_w
    exact start_fits core t artOnly localRows workers at_w
  case listed =>
    intro w reading at_w
    rcases start_idle core t artOnly localRows workers _ (List.mem_of_getElem? at_w) with same | same
    · cases same
    · cases same

theorem counted_start (core : SearchCore) (t : DataTable Row) (artOnly : Bool) (localRows : List Row)
    (workers : Nat) : Counted (startSearch core t artOnly localRows workers) := by
  have idle : (startSearch core t artOnly localRows workers).locals.flatMap Local.claims = [] := by
    apply List.flatMap_eq_nil_iff.mpr
    intro l present
    rcases start_idle core t artOnly localRows workers l present with rfl | rfl
    · rfl
    · rfl
  constructor
  case idle =>
    intro _
    rfl
  case units =>
    unfold Conserved
    rw [idle]
    exact List.Perm.refl []
  case done =>
    intro w at_w
    rcases start_idle core t artOnly localRows workers _ (List.mem_of_getElem? at_w) with same | same
    · cases same
    · cases same

/-- The phases and the counters hold whatever the host does. -/
theorem phases_step [DecidableEq Row] {s t : SearchState Row} {e : SearchEvent Row} (working : Working core s)
    (counted : Counted s) (step : searchStep core filters s e = some t) : Working core t ∧ Counted t := by
  cases searchStep_move step with
  | finalized unplanned =>
    exact ⟨⟨working.exhausts, working.fetchers, working.fits, working.listed⟩,
      counted_finalize _ counted unplanned⟩
  | turned planned turn => exact ⟨working_turn working turn, counted_turn counted planned turn⟩
  | committed | checkpointed =>
    exact ⟨⟨working.exhausts, working.fetchers, working.fits, working.listed⟩,
      ⟨counted.idle, counted.units, counted.done⟩⟩

theorem tracked_start {t : DataTable Row} (probed : Probed filters core t) (artOnly : Bool)
    (localRows : List Row) (workers : Nat) :
    Tracked core filters ((startSearch core t artOnly localRows workers).matches filters)
      (startSearch core t artOnly localRows workers) := by
  have holds : (startSearch core t artOnly localRows workers).locals.flatMap
      (Local.holds filters (startSearch core t artOnly localRows workers).table) = [] := by
    apply List.flatMap_eq_nil_iff.mpr
    intro l present
    rcases start_idle core t artOnly localRows workers l present with rfl | rfl
    · rfl
    · rfl
  constructor
  case working => exact working_start core t artOnly localRows workers
  case counted => exact counted_start core t artOnly localRows workers
  case host =>
    refine ⟨probed, rfl, rfl, fun _ => rfl, ?_⟩
    intro tail planned
    cases planned
  case accounted =>
    unfold Accounted Conserved
    rw [holds]
    exact List.Perm.refl []

theorem plan_positions_flatten (core : SearchCore) :
    (core.plan.positions (List.range core.plan.segments.length)).map (candidateAt core) =
      core.plan.segments.flatten := by
  have each : ∀ ordinal, (positions ordinal 0 (core.plan.candidates ordinal).length).map (candidateAt core) =
      core.plan.candidates ordinal := by
    intro ordinal
    rw [positions_candidates core (Nat.zero_le _) (Nat.le_refl _), List.take_length, List.drop_zero]
  unfold Plan.positions
  rw [List.map_flatMap]
  simp only [each]
  rw [List.flatMap_def]
  apply congrArg
  apply List.ext_getElem
  · simp
  · intro i left right
    simp [Plan.candidates, List.getElem?_eq_getElem right]

/-- The candidates below the tail are the matching rows there. -/
theorem indexed_rows {t laid : DataTable Row} {tail : TailPlan} (probed : Probed filters core t)
    (made : tail = finalizeSearchCore core laid) :
    kept filters t core.plan.segments.flatten ~
      ((t.visible.filter fun entry => filters.passes entry.2).filter fun entry =>
        decide (entry.1 < tail.tailStart)).map Prod.snd := by
  refine (kept_perm filters t (ascending_nodup probed.ascending)).trans (List.Perm.of_eq ?_)
  rw [List.filter_filter]
  apply congrArg
  apply List.filter_congr
  intro entry present
  cases passes : filters.passes entry.2 with
  | false => rw [Bool.and_false, Bool.and_false]
  | true =>
    rw [Bool.and_true, Bool.and_true, made]
    apply decide_eq_decide.mpr
    simp only [finalizeSearchCore]
    constructor
    · intro listed
      have low := probed.below _ listed
      have some_probe := Option.isSome_iff_ne_none.mpr (probed.marked (by omega))
      rw [if_pos ⟨some_probe, by omega⟩]
      omega
    · intro low
      apply probed.covers entry present passes
      split at low
      · omega
      · omega

theorem in_some_unit {laid : DataTable Row} {tail : TailPlan} (made : tail = finalizeSearchCore core laid)
    {entry : Nat × Row} (bound : entry.1 < tail.tailEnd) :
    (!decide (entry.1 < tail.tailStart)) =
      hasKey (fun entry : Nat × Row => tail.unitOf entry.1) (List.range (tail.tailUnits + 1)) entry := by
  rw [← decide_not]
  apply decide_eq_decide.mpr
  constructor
  · intro past
    have found : tail.unitOf entry.1 = some ((entry.1 - tail.tailStart) / tail.tailUnitRows) :=
      if_pos ⟨by omega, bound⟩
    have small := unitOf_lt core laid (made ▸ found)
    rw [← made] at small
    exact ⟨_, List.mem_range.mpr (by omega), found⟩
  · rintro ⟨unit, _, found⟩ low
    have found : tail.unitOf entry.1 = some unit := found
    unfold TailPlan.unitOf at found
    rw [if_neg (by omega)] at found
    cases found

theorem all_units_perm {t laid : DataTable Row} {tail : TailPlan} (made : tail = finalizeSearchCore core laid)
    (below : ∀ entry ∈ t.visible, entry.1 < tail.tailEnd) (localRows : List Row) :
    (List.range (tail.tailUnits + 1)).flatMap (unitRows filters tail t localRows) ~
      ((t.visible.filter fun entry => filters.passes entry.2).filter fun entry =>
        !decide (entry.1 < tail.tailStart)).map Prod.snd ++ localRows.filter filters.passes := by
  have later : ∀ entry ∈ t.visible.filter fun entry => filters.passes entry.2,
      (!decide (entry.1 < tail.tailStart)) =
        hasKey (fun entry : Nat × Row => tail.unitOf entry.1) (List.range (tail.tailUnits + 1)) entry :=
    fun entry present => in_some_unit made (below entry (List.mem_of_mem_filter present))
  have last : tail.tailUnits ∈ List.range (tail.tailUnits + 1) := List.mem_range.mpr (Nat.lt_succ_self _)
  have tail_rows := @units_perm _ filters tail t _ (List.nodup_range (n := tail.tailUnits + 1)) localRows
  rwa [if_pos last, ← List.filter_congr later] at tail_rows

theorem matches_split {s : SearchState Row} {tail : TailPlan} (host : Host core filters expected s)
    (planned : s.tail = some tail) : expected ~ kept filters s.table core.plan.segments.flatten ++
      (List.range (tail.tailUnits + 1)).flatMap (s.rowsOf filters) := by
  obtain ⟨⟨laid, made⟩, below⟩ := host.planned tail planned
  have rows : s.rowsOf filters = unitRows filters tail s.table s.localRows := by
    funext unit
    simp only [SearchState.rowsOf, planned]
  have tail_rows := @all_units_perm _ core filters s.table laid tail made below s.localRows
  rw [← rows] at tail_rows
  have parts := (List.filter_append_perm (fun entry : Nat × Row => decide (entry.1 < tail.tailStart))
    (s.table.visible.filter fun entry => filters.passes entry.2)).map Prod.snd
  rw [List.map_append] at parts
  have committed : (s.table.visible.filter fun entry => filters.passes entry.2).map Prod.snd =
      (s.table.visible.map Prod.snd).filter filters.passes := by
    rw [List.filter_map]
    rfl
  calc expected
      _ = (s.table.visible.filter fun entry => filters.passes entry.2).map Prod.snd ++
          s.localRows.filter filters.passes := by
        rw [← host.expected, SearchState.matches, List.filter_append, committed]
      _ ~ _ := parts.symm.append_right _
      _ ~ _ := by
        rw [List.append_assoc]
        exact (indexed_rows host.probed made).symm.append tail_rows.symm

theorem begun_units {s : SearchState Row} {tail : TailPlan} (counted : Counted s)
    (planned : s.tail = some tail) : s.begun <+~ List.range (tail.tailUnits + 1) := by
  have count : s.unitCount = tail.tailUnits + 1 := by simp only [SearchState.unitCount, planned]
  have units := counted.units
  rw [count] at units
  exact ((List.sublist_append_left _ _).subperm.trans (List.Perm.subperm units)).trans
    (List.range_sublist.mpr (Nat.min_le_right _ _)).subperm

/-- What has been emitted is part of what matches, at any time. -/
theorem emitted_subperm {s : SearchState Row} (tracked : Tracked core filters expected s) :
    s.emitted <+~ expected := by
  rcases Option.eq_none_or_eq_some s.tail with unplanned | ⟨tail, planned⟩
  · rw [tracked.host.waiting unplanned]
    exact List.nil_subperm
  · have ordered := tracked.working.exhausts.ordered
    have handed : kept filters s.table (s.handedRowids core) <+~
        kept filters s.table core.plan.segments.flatten := by
      obtain ⟨later, whole⟩ := handed_initial ordered
      rw [← plan_positions_flatten, ← whole, List.map_append, kept_append]
      exact (List.sublist_append_left _ _).subperm
    have begun : s.begun.flatMap (s.rowsOf filters) <+~
        (List.range (tail.tailUnits + 1)).flatMap (s.rowsOf filters) := by
      obtain ⟨part, same, sub⟩ := begun_units tracked.counted planned
      exact ⟨part.flatMap (s.rowsOf filters), same.flatMap_right _, sub.flatMap _⟩
    have read : s.read core filters <+~ expected :=
      (List.Subperm.append handed begun).trans (matches_split tracked.host planned).symm.subperm
    have out : s.emitted <+~ s.read core filters :=
      (List.sublist_append_left _ _).subperm.trans (List.Perm.subperm tracked.accounted)
    exact out.trans read

theorem finished_units {s : SearchState Row} (counted : Counted s) (some_worker : s.locals ≠ [])
    (finished : s.finished) :
    ∃ tail, s.tail = some tail ∧ s.begun ~ List.range (tail.tailUnits + 1) := by
  obtain ⟨first, rest, locals⟩ := List.exists_cons_of_ne_nil some_worker
  have first_done : s.locals[0]? = some .done := by
    rw [locals, finished first (by rw [locals]; exact List.mem_cons_self)]
    rfl
  obtain ⟨tail, planned, past⟩ := counted.done 0 first_done
  have nothing_claimed : ∀ l ∈ s.locals, l.claims = [] := by
    intro l present
    rw [finished l present]
    rfl
  have count : s.unitCount = tail.tailUnits + 1 := by simp only [SearchState.unitCount, planned]
  have units := conserved_out counted.units nothing_claimed
  rw [count, Nat.min_eq_right (by omega)] at units
  exact ⟨tail, planned, units⟩

/-- Once the workers are all done, every batch has been handed out. -/
theorem finished_drained {s : SearchState Row} (working : Working core s)
    (threads : core.plan.maxThreads = 0 → core.plan.segments = []) (some_worker : s.locals ≠ [])
    (finished : s.finished) : s.queue.drained core.plan := by
  have ordered := working.exhausts.ordered
  obtain ⟨first, rest, locals⟩ := List.exists_cons_of_ne_nil some_worker
  have first_done : s.locals[0]? = some .done := by
    rw [locals, finished first (by rw [locals]; exact List.mem_cons_self)]
    rfl
  by_cases fetchers : s.queue.workers.length = 0
  · have sizes := working.fetchers
    rw [locals, List.length_cons] at sizes
    have no_segments := threads (by omega)
    have published := ordered.published
    have claimed := ordered.claimed
    rw [no_segments, List.length_nil] at claimed
    constructor
    · rw [no_segments, List.length_nil]
      omega
    · apply List.eq_nil_iff_forall_not_mem.mpr
      intro entry present
      obtain ⟨decoded, unread⟩ := ordered.ready_decoded entry present
      rw [decoded, Plan.candidates, no_segments] at unread
      cases unread
  · have known := List.getElem?_eq_getElem (Nat.pos_of_ne_zero fetchers)
    have exhausted := working.fits 0 .done first_done _ known
    exact working.exhausts.drained 0 (exhausted ▸ known)

theorem finished_perm {s : SearchState Row} (tracked : Tracked core filters expected s)
    (some_worker : s.locals ≠ []) (finished : s.finished) : s.emitted ~ expected := by
  obtain ⟨tail, planned, all_units⟩ := finished_units tracked.counted some_worker finished
  have ordered := tracked.working.exhausts.ordered
  have nothing_held : ∀ l ∈ s.locals, l.holds filters s.table = [] := by
    intro l present
    rw [finished l present]
    rfl
  have all_handed := drained_handed ordered
    (finished_drained tracked.working tracked.host.probed.threads some_worker finished)
  have all_read : s.read core filters = kept filters s.table core.plan.segments.flatten ++
      s.begun.flatMap (s.rowsOf filters) := by
    rw [SearchState.read, SearchState.handedRowids, all_handed, plan_positions_flatten]
  have out := conserved_out tracked.accounted nothing_held
  rw [all_read] at out
  exact (out.trans ((all_units.flatMap_right _).append_left _)).trans
    (matches_split tracked.host planned).symm

variable [DecidableEq Row]

theorem locals_length (s : SearchState Row) (e : SearchEvent Row) (t : SearchState Row)
    (step : searchStep core filters s e = some t) : t.locals.length = s.locals.length := by
  cases searchStep_move step with
  | finalized | committed | checkpointed => rfl
  | turned _ turn =>
    cases turn with
    | queued => rfl
    | batched | exhausted | released | fetched | claimed | begun | yielded | closed =>
      exact List.length_set

theorem run_workers {t : DataTable Row} {artOnly : Bool} {localRows : List Row} {workers : Nat}
    {events : List (SearchEvent Row)} {s : SearchState Row}
    (run : exec (searchStep core filters) (startSearch core t artOnly localRows workers) events = some s) :
    s.locals.length = workers := by
  have preserves : ∀ s e u, s.locals.length = workers → searchStep core filters s e = some u →
      u.locals.length = workers := by
    intro s e u size step
    rw [locals_length s e u step, size]
  apply exec_invariant preserves run
  simp only [startSearch, List.length_append, List.length_replicate]
  omega

/-- What a search owes in any state: it has emitted no more than the matching
    rows, and, when its workers are done, those. -/
structure SearchExact (filters : ScanFilters Row) (first s : SearchState Row) : Prop where
  once : s.emitted <+~ first.matches filters
  complete : s.finished → s.emitted ~ first.matches filters

/-- Every run whose checkpoints keep sides is exact, in every state it reaches. -/
theorem search_exact_along {t : DataTable Row} {artOnly : Bool} {localRows : List Row} {workers : Nat}
    (probed : Probed filters core t) (some_worker : 0 < workers) {events : List (SearchEvent Row)}
    {s : SearchState Row}
    (along : Along (searchStep core filters) (KeepsSides filters)
      (startSearch core t artOnly localRows workers) events)
    (run : exec (searchStep core filters) (startSearch core t artOnly localRows workers) events = some s) :
    SearchExact filters (startSearch core t artOnly localRows workers) s := by
  have tracked := exec_invariant_along tracked_step along run (tracked_start probed artOnly localRows workers)
  constructor
  case once => exact emitted_subperm tracked
  case complete =>
    apply finished_perm tracked
    have size := run_workers run
    exact List.ne_nil_of_length_pos (by omega)

end Runs

end NgramSearchCore
