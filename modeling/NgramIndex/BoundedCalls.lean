import NgramIndex.BatchOrder
import NgramIndex.Coverage
import NgramIndex.ManifestSpans
import NgramIndex.SearchProgress

/- The calls of InitializeBoundedScan and its assertion. A range batch takes its
   bounds from stored candidates, a tail unit from the end that the table had at
   init and a manifest span from the column segments of the segments table. -/
namespace NgramSearchCore
open LabelledRun NgramCandidateQueue AscendingLists
open NgramStorage
variable {Row : Type} {core : SearchCore} {filters : ScanFilters Row} {t : DataTable Row}

def Batch.first (plan : Plan) (batch : Batch) : Nat :=
  (plan.candidates batch.segmentOrdinal).getD batch.candidateOffset 0

def Batch.last (plan : Plan) (batch : Batch) : Nat :=
  (plan.candidates batch.segmentOrdinal).getD (batch.candidateEnd - 1) 0

/-- Whether StartRangeScan reads a batch. -/
def Batch.ranged (plan : Plan) (batch : Batch) : Bool :=
  batch.rangeBatch &&
    rangeScanPays (plan.candidates batch.segmentOrdinal) batch.candidateOffset batch.candidateEnd

/-- A call of InitializeBoundedScan, with the table's next rowid at the time. -/
structure BoundedCall where
  startRow : Nat
  endRow : Nat
  nextRowId : Nat
  deriving DecidableEq, Repr

/-- The assertion of InitializeBoundedScan. -/
def BoundedCall.Asserted (call : BoundedCall) : Prop :=
  call.startRow < call.endRow ∧ call.endRow ≤ call.nextRowId

/-- The bounded scan that StartRangeScan or StartTailUnit makes for some work. -/
def Work.bounds (core : SearchCore) (tail : Option TailPlan) : Work → Option (Nat × Nat)
  | .batch b => if Batch.ranged core.plan b then some (Batch.first core.plan b, Batch.last core.plan b + 1) else none
  | .unit u => tail.bind fun tail =>
      if u = tail.tailUnits then none else some (tail.unitStart u, tail.unitEnd u)

structure CalledState (Row : Type) where
  search : SearchState Row
  calls : List BoundedCall

def boundedCalls (core : SearchCore) (s u : SearchState Row) (e : SearchEvent Row) : List BoundedCall :=
  (assignedBy s u e).filterMap fun entry =>
    (entry.2.bounds core s.tail).map fun bounds => ⟨bounds.1, bounds.2, s.table.nextRowId⟩

def calledStep [DecidableEq Row] (core : SearchCore) (filters : ScanFilters Row) (c : CalledState Row)
    (e : SearchEvent Row) : Option (CalledState Row) :=
  (searchStep core filters c.search e).map fun u => ⟨u, c.calls ++ boundedCalls core c.search u e⟩

/-- A commit hands no rowid back, and no checkpoint takes the end of the table below
    the end of the planned tail. -/
def KeepsEnd (s : SearchState Row) : SearchEvent Row → Prop
  | .finalize | .run _ _ => True
  | .commit table _ => s.table.nextRowId ≤ table.nextRowId
  | .checkpoint table => ∀ tail, s.tail = some tail → tail.tailEnd ≤ table.nextRowId

theorem own_keeps_end {s : SearchState Row} {e : SearchEvent Row} (own : SearchEvent.own e) : KeepsEnd s e := by
  cases e with
  | finalize | run => trivial
  | commit | checkpoint => exact own.elim

/-- Range batches hold no rowid past the end of the table, such as the postings of
    discarded row groups. -/
def CandidatesEnd (core : SearchCore) (nextRowId : Nat) : Prop :=
  ∀ batch ∈ core.batches, Batch.ranged core.plan batch = true → ∀ r ∈ batch.slice core.plan, r < nextRowId

section Calls

theorem batch_ends (segmented : Segmented core.plan) {batch : Batch} (cut : batch ∈ core.batches) :
    Batch.first core.plan batch ≤ Batch.last core.plan batch ∧
      Batch.last core.plan batch ∈ batch.slice core.plan ∧
      ∀ r ∈ batch.slice core.plan, r ≤ Batch.last core.plan batch ∧ r ∈ core.plan.segments.flatten := by
  obtain ⟨known, _, order, inside⟩ := mem_batches cut
  obtain ⟨head, final⟩ : (batch.slice core.plan).head? = some (Batch.first core.plan batch) ∧
      (batch.slice core.plan).getLast? = some (Batch.last core.plan batch) := piece_ends order inside
  have last_in := List.mem_of_getLast? final
  have ascending : Ascending (Batch.slice core.plan batch) :=
    ((candidates_ascending segmented batch.segmentOrdinal).sublist (List.take_sublist _ _)).sublist
      (List.drop_sublist _ _)
  have highest : ∀ r ∈ batch.slice core.plan, r ≤ Batch.last core.plan batch := by
    intro r present
    have nonempty : batch.slice core.plan ≠ [] := List.ne_nil_of_mem present
    have reached := ascending_le_getLast ascending nonempty r present
    rw [List.getLast?_eq_some_getLast nonempty] at final
    rwa [Option.some.inj final] at reached
  refine ⟨highest _ (List.mem_of_mem_head? head), last_in, ?_⟩
  intro r present
  exact ⟨highest r present,
    List.mem_flatten.mpr ⟨_, candidates_mem (List.mem_range.mp known), slice_subset batch present⟩⟩

theorem unit_asserted {laid : DataTable Row} {unit : Nat}
    (inside : unit < (finalizeSearchCore core laid).tailUnits) :
    (finalizeSearchCore core laid).unitStart unit < (finalizeSearchCore core laid).unitEnd unit ∧
      (finalizeSearchCore core laid).unitEnd unit ≤ (finalizeSearchCore core laid).tailEnd := by
  have positive := finalize_positive core laid
  have count : (finalizeSearchCore core laid).tailUnits =
      if (finalizeSearchCore core laid).tailStart < (finalizeSearchCore core laid).tailEnd then
        ((finalizeSearchCore core laid).tailEnd - (finalizeSearchCore core laid).tailStart +
          (finalizeSearchCore core laid).tailUnitRows - 1) / (finalizeSearchCore core laid).tailUnitRows
      else 0 := rfl
  generalize finalizeSearchCore core laid = tail at *
  rw [count] at inside
  split at inside
  · have room := (Nat.le_div_iff_mul_le positive).mp (Nat.succ_le_of_lt inside)
    rw [Nat.succ_mul] at room
    unfold TailPlan.unitEnd TailPlan.unitStart
    omega
  · cases inside

theorem claimed_unit {s : SearchState Row} {tail : TailPlan} {w unit : Nat} (counted : Counted s)
    (planned : s.tail = some tail) (at_w : s.locals[w]? = some (.claimed unit)) : unit ≤ tail.tailUnits := by
  have listed := claimed_range counted at_w
  simp only [SearchState.unitCount, planned] at listed
  omega

/-- The end of the table while a search runs. A search with a mark holds the vacuum
    lock; one without has no candidates. -/
structure EndKept (core : SearchCore) (t : DataTable Row) (s : SearchState Row) : Prop where
  working : Working core s
  counted : Counted s
  cut : Cut core.plan s.queue
  planned : ∀ tail, s.tail = some tail → ∃ laid : DataTable Row, tail = finalizeSearchCore core laid
  ends : ∀ tail, s.tail = some tail → tail.tailEnd ≤ s.table.nextRowId
  locked : s.vacuumLock = decide (0 ≤ core.hwm)
  marked : 0 ≤ core.hwm → t.nextRowId ≤ s.table.nextRowId

theorem end_start (core : SearchCore) (t : DataTable Row) (artOnly : Bool) (localRows : List Row)
    (workers : Nat) : EndKept core t (startSearch core t artOnly localRows workers) where
  working := working_start core t artOnly localRows workers
  counted := counted_start core t artOnly localRows workers
  cut := start_cut core.plan _
  planned := nofun
  ends := nofun
  locked := rfl
  marked _ := Nat.le_refl _

theorem turn_cut {s u : SearchState Row} {tail : TailPlan} {w : Nat} (cut : Cut core.plan s.queue)
    (turn : WorkerTurn core filters tail s w u) : Cut core.plan u.queue := by
  cases turn with
  | queued _ moved | batched _ moved | exhausted _ moved | released _ _ moved => exact step_cut _ w _ cut moved
  | fetched | claimed | begun | yielded | closed => exact cut

theorem turn_handed {s u : SearchState Row} {tail : TailPlan} {w : Nat} {batch : Batch}
    (turn : WorkerTurn core filters tail s w u) (at_w : s.locals[w]? = some (.fetch none))
    (fetching : u.queue.workers[w]? = some (.fetching batch)) :
    u.queue.handed = s.queue.handed ++ [(w, batch)] := by
  have other : ∀ l : Local Row, s.locals[w]? = some l → l = .fetch none := fun l found =>
    Option.some.inj (found.symm.trans at_w)
  cases turn with
  | queued _ _ still _ => exact absurd fetching (still batch)
  | batched _ moved _ => exact (fetchStep_handed moved).1 batch fetching
  | exhausted _ _ done =>
    rw [done] at fetching
    cases fetching
  | released now | fetched now | claimed now | begun now | yielded now | closed now => cases other _ now

theorem end_step [DecidableEq Row] {s u : SearchState Row} {e : SearchEvent Row} (kept : EndKept core t s)
    (keeps : KeepsEnd s e) (step : searchStep core filters s e = some u) : EndKept core t u := by
  obtain ⟨working, counted⟩ := phases_step kept.working kept.counted step
  cases searchStep_move step with
  | finalized =>
    refine ⟨working, counted, kept.cut, ?_, ?_, kept.locked, kept.marked⟩
    · intro tail planned
      exact ⟨s.table, (Option.some.inj planned).symm⟩
    · intro tail planned
      rw [← Option.some.inj planned]
      exact Nat.le_refl _
  | turned _ turn =>
    obtain ⟨table, tail, locked⟩ := turn_host turn
    constructor
    case working => exact working
    case counted => exact counted
    case cut => exact turn_cut kept.cut turn
    case planned => exact tail ▸ kept.planned
    case ends =>
      rw [tail, table]
      exact kept.ends
    case locked => exact locked.trans kept.locked
    case marked => exact table ▸ kept.marked
  | @committed table _ _ =>
    have further : s.table.nextRowId ≤ table.nextRowId := keeps
    exact ⟨working, counted, kept.cut, kept.planned, fun tail planned => (kept.ends tail planned).trans further,
      kept.locked, fun low => (kept.marked low).trans further⟩
  | checkpointed unlocked _ =>
    refine ⟨working, counted, kept.cut, kept.planned, keeps, kept.locked, ?_⟩
    intro low
    have held := kept.locked.symm.trans unlocked
    exact absurd low (of_decide_eq_false held)

theorem step_asserted [DecidableEq Row] (segmented : Segmented core.plan)
    (below : ∀ r ∈ core.plan.segments.flatten, (r : Int) ≤ core.hwm) (ends : CandidatesEnd core t.nextRowId)
    {s u : SearchState Row} {e : SearchEvent Row} (kept : EndKept core t s)
    (step : searchStep core filters s e = some u) : ∀ call ∈ boundedCalls core s u e, call.Asserted := by
  intro call made
  obtain ⟨⟨worker, work⟩, taken, bounded⟩ := List.mem_filterMap.mp made
  obtain ⟨bounds, found, rfl⟩ := Option.map_eq_some_iff.mp bounded
  cases searchStep_move step with
  | finalized | committed | checkpointed => cases taken
  | @turned tail _ w chunk planned turn =>
    have cut := turn_cut kept.cut turn
    simp only [assignedBy] at taken
    split at taken
    · split at taken
      · rename_i batch fetching
        cases List.mem_singleton.mp taken
        rename_i at_w
        have handed : (worker, batch) ∈ u.queue.handed := by
          rw [turn_handed turn at_w fetching]
          exact List.mem_append_right _ (List.mem_singleton_self _)
        have of_plan := (cut_initial cut).subset (List.mem_map_of_mem handed)
        obtain ⟨order, last_in, listed⟩ := batch_ends segmented of_plan
        simp only [Work.bounds] at found
        split at found
        · rename_i ranged
          cases found
          have low := below _ (listed _ last_in).2
          have further := kept.marked (by omega)
          have inside := ends batch of_plan ranged _ last_in
          exact ⟨Nat.lt_succ_of_le order, Nat.succ_le_of_lt (inside.trans_le further)⟩
        · cases found
      · cases taken
    · rename_i unit at_w
      cases List.mem_singleton.mp taken
      simp only [Work.bounds, planned, Option.bind_some] at found
      split at found
      · cases found
      · rename_i committed
        cases found
        have last := claimed_unit kept.counted planned at_w
        obtain ⟨laid, same⟩ := kept.planned tail planned
        have reached := kept.ends tail planned
        subst same
        have inside : unit < (finalizeSearchCore core laid).tailUnits := by omega
        obtain ⟨order, inside⟩ := unit_asserted inside
        exact ⟨order, inside.trans reached⟩
    · cases taken

theorem handed_assigned [DecidableEq Row] {s u : SearchState Row} {e : SearchEvent Row} (working : Working core s)
    (step : searchStep core filters s e = some u) : ∀ entry ∈ u.queue.handed,
      entry ∈ s.queue.handed ∨ (entry.1, Work.batch entry.2) ∈ assignedBy s u e := by
  intro entry handed
  cases searchStep_move step with
  | finalized | committed | checkpointed => exact Or.inl handed
  | @turned _ _ w _ _ turn =>
    have idle : ∀ {queue : FetchState}, fetchStep core.plan s.queue w = some queue →
        (∀ batch, queue.workers[w]? ≠ some (.fetching batch)) → entry ∈ queue.handed →
          entry ∈ s.queue.handed := by
      intro queue moved still listed
      rwa [(fetchStep_handed moved).2 still] at listed
    cases turn with
    | queued at_w moved still _ => exact Or.inl (idle moved still handed)
    | batched at_w moved taken =>
      rw [(fetchStep_handed moved).1 _ taken] at handed
      rcases List.mem_append.mp handed with earlier | now
      · exact Or.inl earlier
      · cases List.mem_singleton.mp now
        simp [assignedBy, at_w, taken]
    | exhausted at_w moved done =>
      refine Or.inl (idle moved ?_ handed)
      rw [done]
      intro batch same
      cases same
    | released at_w empty moved =>
      obtain ⟨batch, fetching⟩ := working.fits w _ at_w
      refine Or.inl (idle moved ?_ handed)
      rw [(release_claiming fetching moved).1]
      intro batch same
      cases same
    | fetched | claimed | begun | yielded | closed => exact Or.inl handed

structure ScansLogged (core : SearchCore) (t : DataTable Row) (c : CalledState Row) : Prop where
  kept : EndKept core t c.search
  table : c.search.table = t
  logged : ∀ entry ∈ c.search.queue.handed, Batch.ranged core.plan entry.2 = true →
    ⟨Batch.first core.plan entry.2, Batch.last core.plan entry.2 + 1, t.nextRowId⟩ ∈ c.calls

theorem logged_step [DecidableEq Row] (c : CalledState Row) (e : SearchEvent Row) (d : CalledState Row)
    (logged : ScansLogged core t c) (own : SearchEvent.own e) (step : calledStep core filters c e = some d) :
    ScansLogged core t d := by
  obtain ⟨u, moved, rfl⟩ := Option.map_eq_some_iff.mp step
  have still : u.table = c.search.table := by
    cases searchStep_move moved with
    | finalized => rfl
    | turned _ turn => exact (turn_host turn).1
    | committed | checkpointed => exact own.elim
  refine ⟨end_step logged.kept (own_keeps_end own) moved, still.trans logged.table, ?_⟩
  intro entry handed ranged
  rcases handed_assigned logged.kept.working moved entry handed with earlier | now
  · exact List.mem_append_left _ (logged.logged entry earlier ranged)
  · apply List.mem_append_right
    refine List.mem_filterMap.mpr ⟨_, now, ?_⟩
    simp only [Work.bounds, ranged, if_true, Option.map_some, logged.table]

end Calls

section Runs
variable [DecidableEq Row]

theorem called_step (segmented : Segmented core.plan)
    (below : ∀ r ∈ core.plan.segments.flatten, (r : Int) ≤ core.hwm) (ends : CandidatesEnd core t.nextRowId)
    (c : CalledState Row) (e : SearchEvent Row) (d : CalledState Row)
    (inv : EndKept core t c.search ∧ ∀ call ∈ c.calls, call.Asserted) (keeps : KeepsEnd c.search e)
    (step : calledStep core filters c e = some d) :
    EndKept core t d.search ∧ ∀ call ∈ d.calls, call.Asserted := by
  obtain ⟨u, moved, rfl⟩ := Option.map_eq_some_iff.mp step
  refine ⟨end_step inv.1 keeps moved, ?_⟩
  intro call logged
  rcases List.mem_append.mp logged with earlier | now
  · exact inv.2 call earlier
  · exact step_asserted segmented below ends inv.1 moved call now

/-- A search left to itself scans each range batch of its plan. -/
theorem all_ranged_scanned (probed : Probed filters core t) :
    ∃ events c, (∀ e ∈ events, SearchEvent.own e) ∧
      exec (calledStep core filters) ⟨startSearch core t false [] 1, []⟩ events = some c ∧
      ∀ batch ∈ core.batches, Batch.ranged core.plan batch = true →
        ⟨Batch.first core.plan batch, Batch.last core.plan batch + 1, t.nextRowId⟩ ∈ c.calls := by
  have no_event : Along (searchStep core filters) (KeepsSides filters) (startSearch core t false [] 1) [] := trivial
  obtain ⟨events, s, own, run, finished⟩ := (search_live_along probed no_event rfl).finishes
  have lifts : ∀ (c : CalledState Row) e u, searchStep core filters c.search e = some u →
      ∃ d, calledStep core filters c e = some d ∧ d.search = u := by
    intro c e u step
    refine ⟨⟨u, c.calls ++ boundedCalls core c.search u e⟩, ?_, rfl⟩
    unfold calledStep
    rw [step]
    rfl
  obtain ⟨c, called, rfl⟩ := exec_lift (s := ⟨startSearch core t false [] 1, []⟩) lifts run
  have along : Along (calledStep core filters) (fun _ e => SearchEvent.own e)
      ⟨startSearch core t false [] 1, []⟩ events := along_of_forall (fun e listed _ => own e listed) _
  have logged : ScansLogged core t c :=
    exec_invariant_along logged_step along called ⟨end_start core t false [] 1, rfl, nofun⟩
  refine ⟨events, c, own, called, ?_⟩
  intro batch cut ranged
  have size := run_workers run
  have drained := finished_drained logged.kept.working probed.threads (List.ne_nil_of_length_pos (by omega)) finished
  rw [SearchCore.batches, ← cut_drained logged.kept.cut drained] at cut
  obtain ⟨entry, handed, rfl⟩ := List.mem_map.mp cut
  exact logged.logged entry handed ranged

end Runs

section Discarded
open NgramCoverage NgramMaintenance NgramRowIdGuard Fallible
open NgramProbe

/-- 256 rows of one key, all deleted after the index was created, in a table whose
    row group a checkpoint then discards. -/
def deadRows : List (BaseRow (List Nat)) := (List.range 256).map fun r => ⟨r, some [7]⟩

def discardRun : List (IndexEvent Unit (List Nat)) :=
  [.prepareCreate () 256 1, .run 0 "guard" [], .host (.delete (List.range 256)) [],
    .host .beginCheckpoint [], .host (.reclaim 0) [], .host (.finishCheckpoint true) []]

def deadSegments : List (SegmentRow Nat) := [writtenRow 0 7 0 0 (List.range 256)]
def deadChunks (key : Nat) : List (List (SegmentRow Nat)) :=
  [deadSegments.filter fun row => decide (row.gramKey = key)]
def deadSettings : ProbeSettings := ⟨1000000000, 4, 4, 0, 1000000, fun _ _ => false⟩
def deadCore : SearchCore := ⟨255, some ⟨[List.range 256], 1⟩, false⟩
def emptied : DataTable Nat := ⟨[], 0, 2048, by simp, by simp⟩

/-- A row group that a checkpoint discards while a full scan holds its next unit. -/
def trailing : DataTable Nat where
  rowGroups := [⟨0, [some 10]⟩, ⟨2048, [none]⟩]
  nextRowId := 2049
  rowGroupSize := 2048
  ascending := by decide
  allocated := by decide

def truncated : DataTable Nat where
  rowGroups := [⟨0, [some 10]⟩]
  nextRowId := 1
  rowGroupSize := 2048
  ascending := by decide
  allocated := by decide

end Discarded

end NgramSearchCore
