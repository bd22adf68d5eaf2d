import NgramIndex.CandidateBatches
import NgramIndex.SearchExact

/- What the batches of a plan emit, fetched or scanned, and the batch indexes that
   the rows of a search carry. Batches take the indexes of their place in the
   plan, and tail units follow them. -/
namespace NgramSearchCore
open LabelledRun NgramCandidateQueue AscendingLists
open NgramStorage
open NgramProbe (segmentRows fetchBatchRows)
open scoped List
variable {Row : Type} {core : SearchCore} {filters : ScanFilters Row} {t : DataTable Row}

section Rows

def scanBatch (filters : ScanFilters Row) (t : DataTable Row) (plan : Plan) (batch : Batch) : List (Nat × Row) :=
  let rowids := plan.candidates batch.segmentOrdinal
  t.boundedScan filters (rowids.getD batch.candidateOffset 0) (rowids.getD (batch.candidateEnd - 1) 0 + 1)

def fetchBatch (filters : ScanFilters Row) (t : DataTable Row) (plan : Plan) (batch : Batch) : List (Nat × Row) :=
  (t.fetch (batch.slice plan)).filter fun entry => filters.passes entry.2

theorem startBatch_rows (plan : Plan) (batch : Batch) :
    let rowids := plan.candidates batch.segmentOrdinal
    (startBatch filters t rowids batch).holds filters t =
      (if batch.rangeBatch && rangeScanPays rowids batch.candidateOffset batch.candidateEnd then
        scanBatch filters t plan batch else fetchBatch filters t plan batch).map Prod.snd := by
  simp only [startBatch]
  split
  · rfl
  · rfl

abbrev SearchCore.batches (core : SearchCore) : List Batch :=
  core.plan.batches (List.range core.plan.segments.length)

theorem scan_fetch_perm (segmented : Segmented core.plan)
    (below : ∀ r ∈ core.plan.segments.flatten, (r : Int) ≤ core.hwm)
    (covers : ∀ entry ∈ t.visible, filters.passes entry.2 = true → (entry.1 : Int) ≤ core.hwm →
      entry.1 ∈ core.plan.segments.flatten)
    {batch : Batch} (cut : batch ∈ core.batches) :
    scanBatch filters t core.plan batch ~ fetchBatch filters t core.plan batch := by
  obtain ⟨_, _, order, inside⟩ := mem_batches cut
  obtain ⟨front, back, split⟩ := candidates_piece core order inside
  obtain ⟨head, final⟩ := piece_ends order inside
  have ascending := segmented_ascending segmented
  have piece_ascending := ascending
  rw [split] at piece_ascending
  have distinct := ascending_nodup (List.pairwise_append.mp (List.pairwise_append.mp piece_ascending).1).2.1
  have scanned := scan_piece ascending below covers split head final
  exact (List.Perm.of_eq scanned).trans (fetch_perm filters t distinct).symm

theorem fetchBatch_flatMap (plan : Plan) (batches : List Batch) :
    batches.flatMap (fetchBatch filters t plan) =
      (t.fetch (batches.flatMap (Batch.slice plan))).filter fun entry => filters.passes entry.2 := by
  induction batches with
  | nil => rfl
  | cons batch rest ih =>
    rw [List.flatMap_cons, List.flatMap_cons, ih]
    unfold fetchBatch DataTable.fetch
    rw [List.filterMap_append, List.filter_append]

/-- All batches together emit each matching row up to the mark once, whichever
    of them are scanned. -/
theorem mixed_batches (segmented : Segmented core.plan)
    (below : ∀ r ∈ core.plan.segments.flatten, (r : Int) ≤ core.hwm)
    (covers : ∀ entry ∈ t.visible, filters.passes entry.2 = true → (entry.1 : Int) ≤ core.hwm →
      entry.1 ∈ core.plan.segments.flatten) (ranged : Batch → Bool) :
    (core.batches.flatMap fun batch => if ranged batch then scanBatch filters t core.plan batch
      else fetchBatch filters t core.plan batch) ~
      t.visible.filter fun entry => decide ((entry.1 : Int) ≤ core.hwm) && filters.passes entry.2 := by
  have distinct := ascending_nodup (segmented_ascending segmented)
  calc (core.batches.flatMap fun batch => if ranged batch then scanBatch filters t core.plan batch
        else fetchBatch filters t core.plan batch)
      ~ core.batches.flatMap (fetchBatch filters t core.plan) := by
        apply List.Perm.flatMap_left
        intro batch cut
        split
        · exact scan_fetch_perm segmented below covers cut
        · exact List.Perm.refl _
    _ = (t.fetch core.plan.segments.flatten).filter fun entry => filters.passes entry.2 := by
        rw [fetchBatch_flatMap, plan_slices]
    _ ~ t.visible.filter fun entry => decide (entry.1 ∈ core.plan.segments.flatten) && filters.passes entry.2 :=
        fetch_perm filters t distinct
    _ = _ := by
        apply List.filter_congr
        intro entry present
        cases passes : filters.passes entry.2 with
        | false => rw [Bool.and_false, Bool.and_false]
        | true =>
          rw [Bool.and_true, Bool.and_true]
          exact decide_eq_decide.mpr ⟨below entry.1, covers entry present passes⟩

/-- The queue hands out consecutive slices of each candidate list, no two of them
    share a block of rowids, and scanned or fetched they emit the same rows. -/
theorem batches_emit_once (segmented : Segmented core.plan)
    (below : ∀ r ∈ core.plan.segments.flatten, (r : Int) ≤ core.hwm)
    (covers : ∀ entry ∈ t.visible, filters.passes entry.2 = true → (entry.1 : Int) ≤ core.hwm →
      entry.1 ∈ core.plan.segments.flatten) :
    (∀ (workers : Nat) (schedule : List Nat) (s : FetchState),
      exec (fetchStep core.plan) (start workers) schedule = some s →
      s.handed.map Prod.snd <+: core.batches ∧
      ∀ w : Nat, s.workers[w]? = some .exhausted → s.handed.map Prod.snd = core.batches) ∧
    (∀ ordinal, Consecutive ordinal (core.plan.candidates ordinal).length 0 (core.plan.segmentBatches ordinal) ∧
      (core.plan.segmentBatches ordinal).flatMap (Batch.slice core.plan) = core.plan.candidates ordinal) ∧
    (core.batches.Pairwise fun a b => ∀ x ∈ a.slice core.plan, ∀ y ∈ b.slice core.plan,
      x / standardVectorSize ≠ y / standardVectorSize) ∧
    (∀ batch ∈ core.batches, scanBatch filters t core.plan batch ~ fetchBatch filters t core.plan batch ∧
      (startBatch filters t (core.plan.candidates batch.segmentOrdinal) batch).holds filters t ~
        (fetchBatch filters t core.plan batch).map Prod.snd) ∧
    ∀ ranged : Batch → Bool,
      (core.batches.flatMap fun batch => if ranged batch then scanBatch filters t core.plan batch
        else fetchBatch filters t core.plan batch) ~
        t.visible.filter fun entry => decide ((entry.1 : Int) ≤ core.hwm) && filters.passes entry.2 := by
  refine ⟨?_, ?_, ?_, ?_, mixed_batches segmented below covers⟩
  · intro workers schedule s run
    have cut := exec_invariant step_cut run (start_cut core.plan workers)
    refine ⟨cut_initial cut, ?_⟩
    intro w at_w
    exact cut_drained cut ((run_exhausts run).drained w at_w)
  · intro ordinal
    exact ⟨segment_consecutive core.plan ordinal, segment_slices core.plan ordinal⟩
  · apply (batches_blocks segmented core.plan.segments.length).imp
    intro a b apart x in_a y in_b
    exact Nat.ne_of_lt (apart x in_a y in_b)
  · intro batch cut
    have same := scan_fetch_perm segmented below covers cut
    refine ⟨same, ?_⟩
    rw [startBatch_rows]
    apply List.Perm.map
    split
    · exact same
    · exact List.Perm.refl _

def hundreds : ScanFilters Nat where
  passes row := row % 100 == 0
  excludes _ _ := false
  sound := nofun

/-- A dense row group, and one a segment further with a hole and a row past the mark. -/
def twoGroups : DataTable Nat where
  rowGroups := [⟨0, (List.range 256).map some⟩, ⟨1048576, [some 300, some 301, none, some 400]⟩]
  nextRowId := 1048580
  rowGroupSize := 1048576
  ascending := by simp [RowGroup.finish, RowGroup.count]
  allocated := by simp [RowGroup.finish, RowGroup.count]

def twoGroupsCore : SearchCore := ⟨1048578, some ⟨[List.range 256, [1048576, 1048577]], 1⟩, false⟩

/-- The first batch pays for a range scan and the second is fetched. -/
theorem dense_beside_sparse : twoGroupsCore.batches = [⟨0, 0, 256, true⟩, ⟨1, 0, 2, false⟩] ∧
    (twoGroupsCore.batches.flatMap fun batch =>
      if batch.rangeBatch then scanBatch hundreds twoGroups twoGroupsCore.plan batch
      else fetchBatch hundreds twoGroups twoGroupsCore.plan batch) ~
      [(0, 0), (100, 100), (200, 200), (1048576, 300)] := by
  have first (x : Nat) (listed : x ∈ List.range 256) : x / segmentRows = 0 :=
    Nat.div_eq_of_lt (Nat.lt_trans (List.mem_range.mp listed) (by decide))
  have second : ∀ x ∈ [1048576, 1048577], x / segmentRows = 1 := by decide
  have segmented : Segmented twoGroupsCore.plan := by
    refine ⟨?_, ?_, ?_⟩
    · exact List.forall_mem_cons.mpr ⟨List.pairwise_lt_range, by decide⟩
    · refine List.forall_mem_cons.mpr ⟨?_, by decide⟩
      intro x in_x y in_y
      rw [first x in_x, first y in_y]
    · refine List.pairwise_pair.mpr ?_
      intro x in_x y in_y
      rw [first x in_x, second y in_y]
      exact Nat.zero_lt_one
  have emitted := (@batches_emit_once Nat twoGroupsCore hundreds twoGroups segmented (by decide +kernel)
    (by decide +kernel)).2.2.2.2 Batch.rangeBatch
  have cut : twoGroupsCore.batches = [⟨0, 0, 256, true⟩, ⟨1, 0, 2, false⟩] := by decide +kernel
  have matching : (twoGroups.visible.filter fun entry =>
      decide ((entry.1 : Int) ≤ twoGroupsCore.hwm) && hundreds.passes entry.2) =
      [(0, 0), (100, 100), (200, 200), (1048576, 300)] := by decide +kernel
  exact ⟨cut, matching ▸ emitted⟩

end Rows

section Indexes

def fetchBatchesPerSegment : Nat := segmentRows / fetchBatchRows

inductive Work where
  | batch (batch : Batch)
  | unit (unit : Nat)
  deriving DecidableEq, Repr

def SearchCore.fetchBatchBase (core : SearchCore) : Nat :=
  match core.probe with
  | none => 0
  | some plan => plan.segments.length * fetchBatchesPerSegment

def batchIndex (core : SearchCore) : Work → Nat
  | .batch batch => batch.segmentOrdinal * fetchBatchesPerSegment + batch.candidateOffset / fetchBatchRows
  | .unit unit => core.fetchBatchBase + unit

def Work.reads (core : SearchCore) (tail : TailPlan) : Work → Nat → Prop
  | .batch b, r => r ∈ b.slice core.plan
  | .unit u, r => u < tail.tailUnits ∧ tail.unitStart u ≤ r ∧ r < tail.unitEnd u

def Work.batch? : Work → Option Batch
  | .batch b => some b
  | .unit _ => none

def Work.unit? : Work → Option Nat
  | .batch _ => none
  | .unit u => some u

structure IndexedState (Row : Type) where
  search : SearchState Row
  assigned : List (Nat × Work)

/-- The work a worker takes in one turn: the batch that it claims, or the unit
    whose scan it initializes. -/
def assignedBy (s t : SearchState Row) : SearchEvent Row → List (Nat × Work)
  | .run w _ =>
      match s.locals[w]? with
      | some (.fetch none) =>
          match t.queue.workers[w]? with
          | some (.fetching batch) => [(w, .batch batch)]
          | _ => []
      | some (.claimed unit) => [(w, .unit unit)]
      | _ => []
  | .finalize | .commit _ _ | .checkpoint _ => []

def indexedStep [DecidableEq Row] (core : SearchCore) (filters : ScanFilters Row) (i : IndexedState Row)
    (e : SearchEvent Row) : Option (IndexedState Row) :=
  (searchStep core filters i.search e).map fun t => ⟨t, i.assigned ++ assignedBy i.search t e⟩

theorem fetchBatchBase_eq (core : SearchCore) :
    core.fetchBatchBase = core.plan.segments.length * fetchBatchesPerSegment := by
  unfold SearchCore.fetchBatchBase SearchCore.plan
  cases core.probe with
  | none => simp
  | some plan => rfl

theorem batch_place {plan : Plan} (segmented : Segmented plan) {ordinals : List Nat} {batch : Batch}
    (cut : batch ∈ plan.batches ordinals) :
    batch.candidateOffset / fetchBatchRows < fetchBatchesPerSegment := by
  obtain ⟨_, _, order, inside⟩ := mem_batches cut
  have room := candidates_length segmented batch.segmentOrdinal
  have whole : segmentRows = fetchBatchesPerSegment * fetchBatchRows := by decide
  have positive : 0 < fetchBatchRows := by decide
  rw [Nat.div_lt_iff_lt_mul positive, ← whole]
  omega

theorem batches_indexed (segmented : Segmented core.plan) :
    core.batches.Pairwise fun a b => batchIndex core (.batch a) < batchIndex core (.batch b) := by
  apply batches_pairwise
  · intro ordinal
    refine (batchesFrom_spread ⟨ordinal, core.plan.candidates ordinal, 0⟩).imp_of_mem ?_
    intro a b in_a in_b spread
    have positive : 0 < fetchBatchRows := by decide
    have steps : a.candidateOffset / fetchBatchRows + 1 ≤ b.candidateOffset / fetchBatchRows := by
      rw [← Nat.add_div_right _ positive]
      exact Nat.div_le_div_right spread
    simp only [batchIndex, segment_ordinal in_a, segment_ordinal in_b]
    omega
  · intro a b before first in_a second in_b
    have cut : first ∈ core.plan.batches [a] := List.mem_flatMap.mpr ⟨a, List.mem_singleton_self a, in_a⟩
    have place := batch_place segmented cut
    have room := Nat.mul_le_mul_right fetchBatchesPerSegment (Nat.succ_le_of_lt before)
    rw [Nat.succ_mul] at room
    simp only [batchIndex, segment_ordinal in_a, segment_ordinal in_b]
    calc a * fetchBatchesPerSegment + first.candidateOffset / fetchBatchRows
        < a * fetchBatchesPerSegment + fetchBatchesPerSegment := Nat.add_lt_add_left place _
      _ ≤ b * fetchBatchesPerSegment := room
      _ ≤ _ := Nat.le_add_right _ _

theorem batch_below_base (segmented : Segmented core.plan) {batch : Batch} (cut : batch ∈ core.batches) :
    batchIndex core (.batch batch) < core.fetchBatchBase := by
  have place := batch_place segmented cut
  have known := List.mem_range.mp (mem_batches cut).1
  have room := Nat.mul_le_mul_right fetchBatchesPerSegment (Nat.succ_le_of_lt known)
  rw [Nat.succ_mul] at room
  rw [fetchBatchBase_eq]
  simp only [batchIndex]
  omega

/-- A section of the queue logs the batch that it leaves its worker, if any. -/
theorem fetchStep_handed {plan : Plan} {s q : FetchState} {w : Nat} (step : fetchStep plan s w = some q) :
    (∀ batch, q.workers[w]? = some (.fetching batch) → q.handed = s.handed ++ [(w, batch)]) ∧
      ((∀ batch, q.workers[w]? ≠ some (.fetching batch)) → q.handed = s.handed) := by
  have idle : ∀ {new : Worker}, (∀ batch, new ≠ .fetching batch) →
      ∀ batch, (s.workers.set w new)[w]? ≠ some (.fetching batch) := by
    intro new other batch found
    rw [List.getElem?_set] at found
    split at found
    · split at found
      · exact other batch (Option.some.inj found)
      · cases found
    · contradiction
  rcases fetchStep_cases step with ⟨front, others, at_w, ready, rfl⟩ | ⟨at_w, _, _, _, rfl⟩ |
    ⟨ordinal, at_w, rfl⟩ | ⟨batch, at_w, rfl⟩ | ⟨at_w, _, _, _, rfl⟩ | ⟨at_w, rfl⟩
  · have now : (takeBatch s w front others).workers[w]? = some (.fetching (cutBatch front)) :=
      List.getElem?_set_self (List.getElem?_eq_some_iff.mp at_w).1
    constructor
    · intro batch found
      rw [now] at found
      cases found
      rfl
    · intro still
      exact absurd now (still _)
  · exact ⟨fun batch found => absurd found (idle (fun _ => Worker.noConfusion) batch), fun _ => rfl⟩
  · exact ⟨fun batch found => absurd found (idle (fun _ => Worker.noConfusion) batch), fun _ => rfl⟩
  · exact ⟨fun _ found => absurd found (idle (fun _ => Worker.noConfusion) _), fun _ => rfl⟩
  · exact ⟨fun batch found => absurd found (idle (fun _ => Worker.noConfusion) batch), fun _ => rfl⟩
  · refine ⟨fun batch found => ?_, fun _ => rfl⟩
    rw [at_w] at found
    cases found

/-- The log holds the batches handed out and the units begun, and a worker's
    part of it rises. -/
structure IndexLog (core : SearchCore) (i : IndexedState Row) : Prop where
  working : Working core i.search
  counted : Counted i.search
  cut : Cut core.plan i.search.queue
  planned : ∀ tail, i.search.tail = some tail → ∃ laid : DataTable Row, tail = finalizeSearchCore core laid
  batches : (i.assigned.filterMap fun e => e.2.batch?.map fun b => (e.1, b)) = i.search.queue.handed
  units : (i.assigned.filterMap fun e => e.2.unit?) = i.search.begun
  -- A worker that fetches has begun no unit, and claims units in turn.
  fetching : ∀ (w : Nat) (reading : Option (Reading Row)), i.search.locals[w]? = some (.fetch reading) →
    ∀ unit, (w, Work.unit unit) ∉ i.assigned
  claimed : ∀ (w unit : Nat), i.search.locals[w]? = some (.claimed unit) →
    ∀ earlier, (w, Work.unit earlier) ∈ i.assigned → earlier < unit
  taken : ∀ (w unit : Nat), (w, Work.unit unit) ∈ i.assigned → unit < i.search.nextTailUnit
  rising : ∀ w, (i.assigned.filter fun e => decide (e.1 = w)).Pairwise fun a b =>
    batchIndex core a.2 < batchIndex core b.2
  distinct : i.assigned.Pairwise fun a b => batchIndex core a.2 ≠ batchIndex core b.2

theorem mem_handed {i : IndexedState Row} (log : IndexLog core i) {w : Nat} {batch : Batch}
    (present : (w, Work.batch batch) ∈ i.assigned) : (w, batch) ∈ i.search.queue.handed := by
  rw [← log.batches]
  exact List.mem_filterMap.mpr ⟨_, present, rfl⟩

theorem mem_begun {i : IndexedState Row} (log : IndexLog core i) {w unit : Nat}
    (present : (w, Work.unit unit) ∈ i.assigned) : unit ∈ i.search.begun := by
  rw [← log.units]
  exact List.mem_filterMap.mpr ⟨_, present, rfl⟩

theorem mem_cut {i : IndexedState Row} (log : IndexLog core i) {w : Nat} {batch : Batch}
    (present : (w, Work.batch batch) ∈ i.assigned) : batch ∈ core.batches :=
  (cut_initial log.cut).subset (List.mem_map_of_mem (mem_handed log present))

theorem log_one {assigned : List (Nat × Work)} {v : Nat} {work : Work}
    (rising : ∀ w, (assigned.filter fun e => decide (e.1 = w)).Pairwise fun a b =>
      batchIndex core a.2 < batchIndex core b.2)
    (above : ∀ earlier, (v, earlier) ∈ assigned → batchIndex core earlier < batchIndex core work) :
    ∀ w, ((assigned ++ [(v, work)]).filter fun e => decide (e.1 = w)).Pairwise fun a b =>
      batchIndex core a.2 < batchIndex core b.2 := by
  intro w
  rw [List.filter_append]
  refine List.pairwise_append.mpr ⟨rising w, ?_, ?_⟩
  · exact (List.pairwise_singleton _ (v, work)).filter _
  · intro e present last here
    obtain ⟨listed, own⟩ := List.mem_filter.mp present
    obtain ⟨same, at_w⟩ := List.mem_filter.mp here
    obtain rfl := List.mem_singleton.mp same
    obtain ⟨u, earlier⟩ := e
    simp only [decide_eq_true_eq] at own at_w
    subst own at_w
    exact above earlier listed

/-- A turn that takes no work leaves the log as it is. -/
theorem log_kept {i : IndexedState Row} {t : SearchState Row} {w : Nat} {old new : Local Row}
    (log : IndexLog core i) (working : Working core t) (counted : Counted t) (cut : Cut core.plan t.queue)
    (at_w : i.search.locals[w]? = some old) (locals : t.locals = i.search.locals.set w new)
    (tail : t.tail = i.search.tail) (handed : t.queue.handed = i.search.queue.handed)
    (begun : t.begun = i.search.begun) (next : i.search.nextTailUnit ≤ t.nextTailUnit)
    (fetch : ∀ reading, new = .fetch reading → ∃ before, old = .fetch before)
    (claims : ∀ unit, new = .claimed unit → i.search.nextTailUnit ≤ unit) :
    IndexLog core ⟨t, i.assigned⟩ where
  working := working
  counted := counted
  cut := cut
  planned := tail ▸ log.planned
  batches := log.batches.trans handed.symm
  units := log.units.trans begun.symm
  fetching v reading at_v := by
    simp only [locals] at at_v
    rcases local_set at_w at_v with ⟨rfl, same⟩ | ⟨_, before⟩
    · obtain ⟨earlier, was⟩ := fetch reading same.symm
      exact log.fetching v earlier (was ▸ at_w)
    · exact log.fetching v reading before
  claimed v unit at_v earlier present := by
    simp only [locals] at at_v
    rcases local_set at_w at_v with ⟨rfl, same⟩ | ⟨_, before⟩
    · have past := claims unit same.symm
      have low := log.taken v earlier present
      omega
    · exact log.claimed v unit before earlier present
  taken v unit present := Nat.lt_of_lt_of_le (log.taken v unit present) next
  rising := log.rising
  distinct := log.distinct

theorem log_batch (segmented : Segmented core.plan) {i : IndexedState Row} {w : Nat} {batch : Batch}
    {queue : FetchState} {reading : Reading Row} (log : IndexLog core i)
    (working : Working core { i.search with
      queue := queue, locals := i.search.locals.set w (.fetch (some reading)) })
    (counted : Counted { i.search with
      queue := queue, locals := i.search.locals.set w (.fetch (some reading)) })
    (cut : Cut core.plan queue) (at_w : i.search.locals[w]? = some (.fetch none))
    (handed : queue.handed = i.search.queue.handed ++ [(w, batch)]) :
    IndexLog core ⟨{ i.search with
      queue := queue, locals := i.search.locals.set w (.fetch (some reading)) },
      i.assigned ++ [(w, .batch batch)]⟩ := by
  have order := (batches_indexed segmented).sublist (cut_initial cut).sublist
  rw [handed, List.map_append] at order
  have last : ∀ v other, (v, Work.batch other) ∈ i.assigned →
      batchIndex core (.batch other) < batchIndex core (.batch batch) := by
    intro v other present
    exact (List.pairwise_append.mp order).2.2 other (List.mem_map_of_mem (mem_handed log present)) batch
      (List.mem_singleton_self batch)
  have below : batchIndex core (.batch batch) < core.fetchBatchBase := by
    apply batch_below_base segmented
    apply (cut_initial cut).subset
    rw [handed, List.map_append]
    exact List.mem_append_right _ (List.mem_singleton_self batch)
  have no_unit : ∀ v unit, (v, Work.unit unit) ∉ [(w, Work.batch batch)] := by
    intro v unit present
    cases List.mem_singleton.mp present
  constructor
  case working => exact working
  case counted => exact counted
  case cut => exact cut
  case planned => exact log.planned
  case batches =>
    rw [List.filterMap_append, log.batches]
    exact handed.symm
  case units =>
    rw [List.filterMap_append, log.units]
    exact List.append_nil _
  case fetching =>
    intro v before at_v unit present
    have earlier := (List.mem_append.mp present).resolve_right (no_unit v unit)
    rcases local_set at_w at_v with ⟨rfl, _⟩ | ⟨_, was⟩
    · exact log.fetching v none at_w unit earlier
    · exact log.fetching v before was unit earlier
  case claimed =>
    intro v unit at_v earlier present
    have logged := (List.mem_append.mp present).resolve_right (no_unit v earlier)
    rcases local_set at_w at_v with ⟨_, same⟩ | ⟨_, was⟩
    · cases same
    · exact log.claimed v unit was earlier logged
  case taken =>
    intro v unit present
    exact log.taken v unit ((List.mem_append.mp present).resolve_right (no_unit v unit))
  case rising =>
    apply log_one log.rising
    intro earlier present
    cases earlier with
    | batch other => exact last w other present
    | unit unit => exact absurd present (log.fetching w none at_w unit)
  case distinct =>
    refine List.pairwise_append.mpr ⟨log.distinct, List.pairwise_singleton _ _, ?_⟩
    rintro ⟨v, earlier⟩ present fresh here
    obtain rfl := List.mem_singleton.mp here
    cases earlier with
    | batch other => exact Nat.ne_of_lt (last v other present)
    | unit unit =>
      simp only [batchIndex] at below ⊢
      omega

theorem log_unit (segmented : Segmented core.plan) {i : IndexedState Row} {w unit : Nat} {rows : List Row}
    (log : IndexLog core i)
    (working : Working core { i.search with
      begun := i.search.begun ++ [unit], locals := i.search.locals.set w (.reading rows) })
    (counted : Counted { i.search with
      begun := i.search.begun ++ [unit], locals := i.search.locals.set w (.reading rows) })
    (at_w : i.search.locals[w]? = some (.claimed unit)) (claimed : unit < i.search.nextTailUnit) :
    IndexLog core ⟨{ i.search with
      begun := i.search.begun ++ [unit], locals := i.search.locals.set w (.reading rows) },
      i.assigned ++ [(w, .unit unit)]⟩ := by
  have batch_lower : ∀ v other, (v, Work.batch other) ∈ i.assigned →
      batchIndex core (.batch other) < batchIndex core (.unit unit) := by
    intro v other present
    have below := batch_below_base segmented (mem_cut log present)
    simp only [batchIndex] at below ⊢
    omega
  have fresh : unit ∉ i.search.begun := by
    have distinct := begun_nodup counted
    exact fun listed => (List.nodup_append.mp distinct).2.2 unit listed unit (List.mem_singleton_self unit) rfl
  have split : ∀ v other, (v, Work.unit other) ∈ i.assigned ++ [(w, Work.unit unit)] →
      (v, Work.unit other) ∈ i.assigned ∨ (v = w ∧ other = unit) := by
    intro v other present
    rcases List.mem_append.mp present with earlier | here
    · exact Or.inl earlier
    · cases List.mem_singleton.mp here
      exact Or.inr ⟨rfl, rfl⟩
  constructor
  case working => exact working
  case counted => exact counted
  case cut => exact log.cut
  case planned => exact log.planned
  case batches =>
    rw [List.filterMap_append, log.batches]
    exact List.append_nil _
  case units =>
    rw [List.filterMap_append, log.units]
    rfl
  case fetching =>
    intro v reading at_v other present
    rcases local_set at_w at_v with ⟨_, same⟩ | ⟨differs, was⟩
    · cases same
    · rcases split v other present with earlier | ⟨same, _⟩
      · exact log.fetching v reading was other earlier
      · exact differs same
  case claimed =>
    intro v next at_v other present
    rcases local_set at_w at_v with ⟨_, same⟩ | ⟨differs, was⟩
    · cases same
    · rcases split v other present with earlier | ⟨same, _⟩
      · exact log.claimed v next was other earlier
      · exact absurd same differs
  case taken =>
    intro v other present
    rcases split v other present with earlier | ⟨_, rfl⟩
    · exact log.taken v other earlier
    · exact claimed
  case rising =>
    apply log_one log.rising
    intro earlier present
    cases earlier with
    | batch other => exact batch_lower w other present
    | unit other => exact Nat.add_lt_add_left (log.claimed w unit at_w other present) _
  case distinct =>
    refine List.pairwise_append.mpr ⟨log.distinct, List.pairwise_singleton _ _, ?_⟩
    rintro ⟨v, earlier⟩ present last here
    obtain rfl := List.mem_singleton.mp here
    cases earlier with
    | batch other => exact Nat.ne_of_lt (batch_lower v other present)
    | unit other =>
      have differs : other ≠ unit := fun same => fresh (same ▸ mem_begun log present)
      simp only [batchIndex]
      omega

theorem log_turn (segmented : Segmented core.plan) {i : IndexedState Row} {t : SearchState Row} {tail : TailPlan}
    {w chunk : Nat} (log : IndexLog core i) (working : Working core t) (counted : Counted t)
    (turn : WorkerTurn core filters tail i.search w t) :
    IndexLog core ⟨t, i.assigned ++ assignedBy i.search t (.run w chunk)⟩ := by
  cases turn with
  | queued at_w moved still unfinished =>
    rename_i queue
    have nothing : assignedBy i.search { i.search with queue := queue } (.run w chunk) = [] := by
      simp only [assignedBy, at_w]
    rw [nothing, List.append_nil]
    exact log_kept log working counted (step_cut _ w _ log.cut moved) at_w (set_same at_w).symm rfl
      ((fetchStep_handed moved).2 still) rfl (Nat.le_refl _) (fun _ _ => ⟨none, rfl⟩) nofun
  | batched at_w moved taken =>
    rename_i queue batch
    have logged : ∀ locals, assignedBy i.search { i.search with queue := queue, locals := locals } (.run w chunk) =
        [(w, .batch batch)] := by
      intro locals
      simp only [assignedBy, at_w, taken]
    rw [logged]
    exact log_batch segmented log working counted (step_cut _ w _ log.cut moved) at_w
      ((fetchStep_handed moved).1 batch taken)
  | exhausted at_w moved done =>
    rename_i queue
    have still : ∀ batch, queue.workers[w]? ≠ some (.fetching batch) := fun batch found => by
      rw [done] at found
      cases found
    simp only [assignedBy, at_w, done, List.append_nil]
    exact log_kept log working counted (step_cut _ w _ log.cut moved) at_w rfl rfl
      ((fetchStep_handed moved).2 still) rfl (Nat.le_refl _) nofun nofun
  | released at_w empty moved =>
    rename_i queue reading
    obtain ⟨batch, fetching⟩ := log.working.fits w _ at_w
    have still : ∀ batch, queue.workers[w]? ≠ some (.fetching batch) := fun batch found => by
      rw [(release_claiming fetching moved).1] at found
      cases found
    simp only [assignedBy, at_w, List.append_nil]
    exact log_kept log working counted (step_cut _ w _ log.cut moved) at_w rfl rfl
      ((fetchStep_handed moved).2 still) rfl (Nat.le_refl _) (fun _ _ => ⟨_, rfl⟩) nofun
  | fetched at_w split shorter =>
    simp only [assignedBy, at_w, List.append_nil]
    exact log_kept log working counted log.cut at_w rfl rfl rfl rfl (Nat.le_refl _) (fun _ _ => ⟨_, rfl⟩) nofun
  | claimed at_w =>
    simp only [assignedBy, at_w, List.append_nil]
    refine log_kept log working counted log.cut at_w rfl rfl rfl rfl (Nat.le_succ _) ?_ ?_
    · intro reading same
      split at same
      · cases same
      · cases same
    · intro unit same
      split at same
      · cases same
      · cases same
        exact Nat.le_refl _
  | begun at_w =>
    simp only [assignedBy, at_w]
    exact log_unit segmented log working counted at_w (Nat.lt_of_lt_of_le (claimed_range log.counted at_w) (Nat.min_le_left _ _))
  | yielded at_w split shorter =>
    simp only [assignedBy, at_w, List.append_nil]
    exact log_kept log working counted log.cut at_w rfl rfl rfl rfl (Nat.le_refl _) nofun nofun
  | closed at_w =>
    simp only [assignedBy, at_w, List.append_nil]
    exact log_kept log working counted log.cut at_w rfl rfl rfl rfl (Nat.le_refl _) nofun nofun

theorem log_host {i : IndexedState Row} {table : DataTable Row} {artOnly : Bool} (log : IndexLog core i)
    (working : Working core { i.search with table := table, artOnly := artOnly })
    (counted : Counted { i.search with table := table, artOnly := artOnly }) :
    IndexLog core ⟨{ i.search with table := table, artOnly := artOnly }, i.assigned⟩ where
  working := working
  counted := counted
  cut := log.cut
  planned := log.planned
  batches := log.batches
  units := log.units
  fetching := log.fetching
  claimed := log.claimed
  taken := log.taken
  rising := log.rising
  distinct := log.distinct

theorem log_step [DecidableEq Row] (segmented : Segmented core.plan) (i : IndexedState Row)
    (e : SearchEvent Row) (j : IndexedState Row) (log : IndexLog core i)
    (step : indexedStep core filters i e = some j) : IndexLog core j := by
  obtain ⟨t, moved, same⟩ := Option.map_eq_some_iff.mp step
  subst same
  clear step
  obtain ⟨working, counted⟩ := phases_step log.working log.counted moved
  cases searchStep_move moved with
  | finalized =>
    rw [show assignedBy i.search _ .finalize = [] from rfl, List.append_nil]
    exact ⟨working, counted, log.cut, fun tail same => ⟨i.search.table, (Option.some.inj same).symm⟩,
      log.batches, log.units, log.fetching, log.claimed, log.taken, log.rising, log.distinct⟩
  | turned _ turn => exact log_turn segmented log working counted turn
  | @committed table artOnly _ =>
    rw [show assignedBy i.search _ (.commit table artOnly) = [] from rfl, List.append_nil]
    exact log_host log working counted
  | @checkpointed table _ _ =>
    rw [show assignedBy i.search _ (.checkpoint table) = [] from rfl, List.append_nil]
    exact @log_host _ _ _ _ i.search.artOnly log working counted

theorem log_start (core : SearchCore) (t : DataTable Row) (artOnly : Bool) (localRows : List Row)
    (workers : Nat) : IndexLog core ⟨startSearch core t artOnly localRows workers, []⟩ where
  working := working_start core t artOnly localRows workers
  counted := counted_start core t artOnly localRows workers
  cut := start_cut core.plan _
  planned := nofun
  batches := rfl
  units := rfl
  fetching := nofun
  claimed := nofun
  taken := nofun
  rising _ := List.Pairwise.nil
  distinct := List.Pairwise.nil

/-- Where a later element is larger, a larger element is later. -/
theorem pairwise_of_lt {α : Type*} {f : α → Nat} {rel : α → α → Prop} {l : List α}
    (ordered : l.Pairwise fun a b => f a < f b) (related : l.Pairwise rel) {a b : α} (in_a : a ∈ l) (in_b : b ∈ l)
    (less : f a < f b) : rel a b := by
  induction l with
  | nil => cases in_a
  | cons head rest ih =>
    obtain ⟨rising, ordered⟩ := List.pairwise_cons.mp ordered
    obtain ⟨ahead, related⟩ := List.pairwise_cons.mp related
    rcases List.mem_cons.mp in_a with rfl | later_a
    · rcases List.mem_cons.mp in_b with rfl | later_b
      · exact absurd less (Nat.lt_irrefl _)
      · exact ahead b later_b
    · rcases List.mem_cons.mp in_b with rfl | later_b
      · exact absurd less (Nat.lt_asymm (rising a later_a))
      · exact ih ordered related later_a later_b

theorem units_apart (tail : TailPlan) {u v : Nat} (before : u < v) : tail.unitEnd u ≤ tail.unitStart v := by
  have room := Nat.mul_le_mul_right tail.tailUnitRows (Nat.succ_le_of_lt before)
  rw [Nat.succ_mul] at room
  unfold TailPlan.unitEnd TailPlan.unitStart
  omega

theorem index_orders_rows (segmented : Segmented core.plan)
    (below : ∀ r ∈ core.plan.segments.flatten, (r : Int) ≤ core.hwm) {laid : DataTable Row} {a b : Work}
    (batch_a : ∀ batch, a = .batch batch → batch ∈ core.batches)
    (batch_b : ∀ batch, b = .batch batch → batch ∈ core.batches)
    (less : batchIndex core a < batchIndex core b) {x y : Nat}
    (reads_a : a.reads core (finalizeSearchCore core laid) x)
    (reads_b : b.reads core (finalizeSearchCore core laid) y) : x < y := by
  cases a with
  | batch first =>
    have cut := batch_a first rfl
    cases b with
    | batch second =>
      have blocks := pairwise_of_lt (batches_indexed segmented) (batches_blocks segmented _) cut
        (batch_b second rfl) less
      exact Nat.lt_of_div_lt_div (blocks x reads_a y reads_b)
    | unit unit =>
      obtain ⟨known, _⟩ := mem_batches cut
      have some_segment : core.plan.segments ≠ [] := by
        intro none_left
        rw [none_left] at known
        cases known
      have some_probe : core.probe.isSome = true := by
        cases probe : core.probe with
        | some plan => rfl
        | none =>
          have no_plan : core.plan.segments = [] := by rw [SearchCore.plan, probe]; rfl
          exact absurd no_plan some_segment
      have listed : x ∈ core.plan.segments.flatten :=
        List.mem_flatten.mpr ⟨_, candidates_mem (List.mem_range.mp known), slice_subset first reads_a⟩
      have low := below x listed
      have starts : (finalizeSearchCore core laid).tailStart = core.hwm.toNat + 1 :=
        if_pos ⟨some_probe, by omega⟩
      have past := reads_b.2.1
      unfold TailPlan.unitStart at past
      omega
  | unit first =>
    cases b with
    | batch second =>
      have lower := batch_below_base segmented (batch_b second rfl)
      simp only [batchIndex] at less lower
      omega
    | unit second =>
      have apart := units_apart (finalizeSearchCore core laid) (Nat.lt_of_add_lt_add_left less)
      have ends := reads_a.2.2
      have begins := reads_b.2.1
      omega

variable [DecidableEq Row]

/-- In every run of a search no two pieces of work share a batch index, indexes
    follow the rowids that are read, batches stay below the units, and each
    worker's indexes rise. -/
theorem batch_indexes_ordered (segmented : Segmented core.plan)
    (below : ∀ r ∈ core.plan.segments.flatten, (r : Int) ≤ core.hwm)
    {artOnly : Bool} {localRows : List Row} {workers : Nat} {events : List (SearchEvent Row)}
    {i : IndexedState Row}
    (run : exec (indexedStep core filters) ⟨startSearch core t artOnly localRows workers, []⟩ events = some i) :
    (i.assigned.filterMap fun e => e.2.batch?.map fun b => (e.1, b)) = i.search.queue.handed ∧
    (i.assigned.filterMap fun e => e.2.unit?) = i.search.begun ∧
    (i.assigned.map fun e => batchIndex core e.2).Nodup ∧
    (∀ tail, i.search.tail = some tail → ∀ a ∈ i.assigned, ∀ b ∈ i.assigned,
      batchIndex core a.2 < batchIndex core b.2 →
        ∀ x, a.2.reads core tail x → ∀ y, b.2.reads core tail y → x < y) ∧
    (∀ w batch, (w, Work.batch batch) ∈ i.assigned →
      batchIndex core (.batch batch) < core.fetchBatchBase ∧ batch.slice core.plan ≠ []) ∧
    (∀ w unit, (w, Work.unit unit) ∈ i.assigned →
      batchIndex core (.unit unit) = core.fetchBatchBase + unit) ∧
    ∀ w, ((i.assigned.filter fun e => decide (e.1 = w)).map fun e => batchIndex core e.2).Pairwise (· < ·) := by
  have log := exec_invariant (log_step segmented) run (log_start core t artOnly localRows workers)
  refine ⟨log.batches, log.units, List.pairwise_map.mpr log.distinct, ?_, ?_, fun _ _ _ => rfl,
    fun w => List.pairwise_map.mpr (log.rising w)⟩
  · intro tail planned a in_a b in_b less x reads_a y reads_b
    obtain ⟨laid, rfl⟩ := log.planned tail planned
    refine index_orders_rows segmented below ?_ ?_ less reads_a reads_b
    · rintro batch same
      exact mem_cut log (w := a.1) (by rw [← same]; exact in_a)
    · rintro batch same
      exact mem_cut log (w := b.1) (by rw [← same]; exact in_b)
  · intro w batch present
    have cut := mem_cut log present
    exact ⟨batch_below_base segmented cut, slice_nonempty cut⟩

def evenRows : ScanFilters Nat where
  passes row := row % 2 == 0
  excludes _ _ := false
  sound := nofun

/-- Rowid 2 is gone and 4 lies past the mark. -/
def fourRows : DataTable Nat where
  rowGroups := [⟨0, [some 10, some 11, none, some 12, some 14]⟩]
  nextRowId := 5
  rowGroupSize := 2048
  ascending := by simp
  allocated := by simp [RowGroup.finish, RowGroup.count]

def fourCore : SearchCore := ⟨3, some ⟨[[0, 2, 3]], 1⟩, false⟩

/-- One worker fetches the batch and begins the tail unit, the other the local rows. -/
def fourSchedule : List (SearchEvent Nat) :=
  .finalize :: List.replicate 8 (.run 0 1) ++ List.replicate 2 (.run 1 1)

def fourRun : Option (IndexedState Nat) :=
  exec (indexedStep fourCore evenRows) ⟨startSearch fourCore fourRows true [] 2, []⟩ fourSchedule

theorem four_rows_indexed : ∃ i, fourRun = some i ∧
    i.assigned = [(0, .batch ⟨0, 0, 3, false⟩), (0, .unit 0), (1, .unit 1)] ∧
    (i.assigned.map fun e => batchIndex fourCore e.2).Nodup ∧
    ∀ w, ((i.assigned.filter fun e => decide (e.1 = w)).map fun e => batchIndex fourCore e.2).Pairwise (· < ·) := by
  have logged : fourRun.map IndexedState.assigned =
      some [(0, .batch ⟨0, 0, 3, false⟩), (0, .unit 0), (1, .unit 1)] := by decide +kernel
  obtain ⟨i, run, assigned⟩ := Option.map_eq_some_iff.mp logged
  have segmented : Segmented fourCore.plan := ⟨by decide, by decide, by decide⟩
  have ordered := batch_indexes_ordered segmented (by decide) run
  exact ⟨i, run, assigned, ordered.2.2.1, ordered.2.2.2.2.2.2⟩

end Indexes

end NgramSearchCore
