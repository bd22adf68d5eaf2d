import Mathlib.Data.List.Forall2
import Mathlib.Data.List.GetD
import NgramIndex.Ascending
import NgramIndex.CandidateQueue
import NgramIndex.Storage
import NgramIndex.WorkLedger

/- The fetch, scan and emit machine of one search, with the host around it. A
   worker fetches candidates while segments are left and then takes tail units;
   commits come at any time, and checkpoints while no one holds the vacuum lock. -/
namespace NgramSearchCore
open LabelledRun NgramCandidateQueue WorkLedger AscendingLists
open NgramStorage
open scoped List
variable {Row : Type}

/-- What the policy's init hands over: the mark, what an admitted probe decodes
    to, and whether kept rows have columns outside the probe layout. -/
structure SearchCore where
  hwm : Int
  probe : Option Plan
  extraColumns : Bool
  deriving DecidableEq, Repr

def SearchCore.plan (core : SearchCore) : Plan := core.probe.getD ⟨[], 0⟩

/-- The committed rows past the index, in units. The unit after the last one is
    the transaction-local storage. -/
structure TailPlan where
  tailStart : Nat
  tailEnd : Nat
  tailUnitRows : Nat
  tailUnits : Nat
  deriving DecidableEq, Repr

def finalizeSearchCore (core : SearchCore) (t : DataTable Row) : TailPlan :=
  let tailStart := if core.probe.isSome ∧ 0 ≤ core.hwm then core.hwm.toNat + 1 else 0
  let tailEnd := t.nextRowId
  let tailUnitRows := max t.rowGroupSize 1
  { tailStart := tailStart
    tailEnd := tailEnd
    tailUnitRows := tailUnitRows
    tailUnits := if tailStart < tailEnd then (tailEnd - tailStart + tailUnitRows - 1) / tailUnitRows else 0 }

def TailPlan.unitStart (tail : TailPlan) (unit : Nat) : Nat := tail.tailStart + unit * tail.tailUnitRows

def TailPlan.unitEnd (tail : TailPlan) (unit : Nat) : Nat :=
  min (tail.unitStart unit + tail.tailUnitRows) tail.tailEnd

/-- The rows a tail unit reads: those of its rowids, or every local row. -/
def TailPlan.readUnit (tail : TailPlan) (filters : ScanFilters Row) (t : DataTable Row)
    (localRows : List Row) (unit : Nat) : List Row :=
  if unit = tail.tailUnits then localRows.filter filters.passes
  else (t.boundedScan filters (tail.unitStart unit) (tail.unitEnd unit)).map Prod.snd

/-- A claimed batch: candidates left to fetch, or rows of a range scan left. -/
inductive Reading (Row : Type) where
  | rowids (left : List Nat)
  | rows (left : List Row)
  deriving DecidableEq, Repr

/-- SearchCoreLocal by phase. In FETCH the queue knows what the worker does
    between batches; in SCAN a claimed unit has no scan state yet. -/
inductive Local (Row : Type) where
  | fetch (batch : Option (Reading Row))
  | scan
  | claimed (unit : Nat)
  | reading (left : List Row)
  | done
  deriving DecidableEq, Repr

/-- StartRangeScan, or the candidates of the batch when it does not pay. -/
def startBatch (filters : ScanFilters Row) (t : DataTable Row) (rowids : List Nat) (batch : Batch) :
    Reading Row :=
  if batch.rangeBatch && rangeScanPays rowids batch.candidateOffset batch.candidateEnd then
    let first := rowids.getD batch.candidateOffset 0
    let last := rowids.getD (batch.candidateEnd - 1) 0
    .rows ((t.boundedScan filters first (last + 1)).map Prod.snd)
  else .rowids ((rowids.take batch.candidateEnd).drop batch.candidateOffset)

def rowVanished : String := "ngram: a kept candidate row vanished between two fetches"

def fetchKept (core : SearchCore) (filters : ScanFilters Row) (t : DataTable Row) (rowids : List Nat) :
    Except String (List Row) :=
  let hits := (t.fetch rowids).filter fun entry => filters.passes entry.2
  if core.extraColumns then
    let extra := t.fetch (hits.map Prod.fst)
    if extra.length ≠ hits.length then .error rowVanished else .ok (extra.map Prod.snd)
  else .ok (hits.map Prod.snd)

/-- The table, its indexes and the query. The log records the units whose scan
    has been initialized, in order. -/
structure SearchState (Row : Type) where
  table : DataTable Row
  artOnly : Bool
  localRows : List Row
  vacuumLock : Bool
  tail : Option TailPlan
  queue : FetchState
  nextTailUnit : Nat
  locals : List (Local Row)
  begun : List Nat
  emitted : List Row
  deriving DecidableEq

/-- After the policy's init has released the vacuum lock of a search without a
    mark, and before FinalizeSearchCore. The first max_threads locals fetch. -/
def startSearch (core : SearchCore) (t : DataTable Row) (artOnly : Bool) (localRows : List Row)
    (workers : Nat) : SearchState Row :=
  let fetching := min workers core.plan.maxThreads
  { table := t
    artOnly := artOnly
    localRows := localRows
    vacuumLock := decide (0 ≤ core.hwm)
    tail := none
    queue := start fetching
    nextTailUnit := 0
    locals := List.replicate fetching (.fetch none) ++ List.replicate (workers - fetching) .scan
    begun := []
    emitted := [] }

/-- Rows of the snapshot may be renumbered only where every index is an ART
    index, or there is none, and then downwards and in order. -/
def Vacuums (movable : Bool) (before after : DataTable Row) : Prop :=
  if movable then List.Forall₂ (fun a b => b.2 = a.2 ∧ b.1 ≤ a.1) before.visible after.visible
  else after.visible = before.visible

instance [DecidableEq Row] (movable : Bool) (before after : DataTable Row) :
    Decidable (Vacuums movable before after) :=
  inferInstanceAs (Decidable (if movable then _ else _))

inductive SearchEvent (Row : Type) where
  | finalize
  | run (w chunk : Nat)
  | commit (table : DataTable Row) (artOnly : Bool)
  | checkpoint (table : DataTable Row)
  deriving DecidableEq

/-- A worker in FETCH between two batches: a section of the queue, and the
    batch it claimed there. -/
def claimStep (core : SearchCore) (filters : ScanFilters Row) (s : SearchState Row) (w : Nat) :
    Option (SearchState Row) := do
  let queue ← fetchStep core.plan s.queue w
  match queue.workers[w]? with
  | some (.fetching batch) =>
      let rowids := core.plan.candidates batch.segmentOrdinal
      some { s with
        queue := queue
        locals := s.locals.set w (.fetch (some (startBatch filters s.table rowids batch))) }
  | some .exhausted => some { s with queue := queue, locals := s.locals.set w .scan }
  | _ => some { s with queue := queue }

/-- The chunk a storage scan yields next is never empty while rows are left. -/
def emitChunk (s : SearchState Row) (w chunk : Nat) (left : List Row) (rest : List Row → Local Row) :
    Option (SearchState Row) :=
  if chunk = 0 then none
  else some { s with
    emitted := s.emitted ++ left.take chunk
    locals := s.locals.set w (rest (left.drop chunk)) }

/-- A worker's turn in ExecuteSearchCore. An error ends the query. -/
def workerStep (core : SearchCore) (filters : ScanFilters Row) (tail : TailPlan) (s : SearchState Row)
    (w chunk : Nat) : Option (SearchState Row) :=
  match s.locals[w]? with
  | none => none
  | some .done => none
  | some (.fetch none) => claimStep core filters s w
  | some (.fetch (some (.rowids []))) | some (.fetch (some (.rows []))) =>
      (fetchStep core.plan s.queue w).map fun queue =>
        { s with queue := queue, locals := s.locals.set w (.fetch none) }
  | some (.fetch (some (.rowids left))) =>
      match fetchKept core filters s.table (left.take standardVectorSize) with
      | .error _ => none
      | .ok rows => some { s with
          emitted := s.emitted ++ rows
          locals := s.locals.set w (.fetch (some (.rowids (left.drop standardVectorSize)))) }
  | some (.fetch (some (.rows left))) => emitChunk s w chunk left fun rest => .fetch (some (.rows rest))
  | some .scan =>
      let unit := s.nextTailUnit
      some { s with
        nextTailUnit := unit + 1
        locals := s.locals.set w (if tail.tailUnits < unit then .done else .claimed unit) }
  | some (.claimed unit) =>
      some { s with
        begun := s.begun ++ [unit]
        locals := s.locals.set w (.reading (tail.readUnit filters s.table s.localRows unit)) }
  | some (.reading []) => some { s with locals := s.locals.set w .scan }
  | some (.reading left) => emitChunk s w chunk left .reading

def searchStep [DecidableEq Row] (core : SearchCore) (filters : ScanFilters Row) (s : SearchState Row) :
    SearchEvent Row → Option (SearchState Row)
  | .finalize =>
      match s.tail with
      | some _ => none
      | none => some { s with tail := some (finalizeSearchCore core s.table) }
  | .run w chunk =>
      match s.tail with
      | none => none
      | some tail => workerStep core filters tail s w chunk
  | .commit table artOnly =>
      if table.visible = s.table.visible then some { s with table := table, artOnly := artOnly } else none
  | .checkpoint table =>
      if s.vacuumLock = false ∧ Vacuums s.artOnly s.table table then some { s with table := table }
      else none

/-- Every worker has left the scan phase. -/
def SearchState.finished (s : SearchState Row) : Prop := ∀ l ∈ s.locals, l = .done

def SearchState.matches (filters : ScanFilters Row) (s : SearchState Row) : List Row :=
  (s.table.visible.map Prod.snd ++ s.localRows).filter filters.passes

section Kept
variable (filters : ScanFilters Row) (t : DataTable Row)

def kept (rowids : List Nat) : List Row :=
  ((t.fetch rowids).filter fun entry => filters.passes entry.2).map Prod.snd

theorem kept_append (a b : List Nat) : kept filters t (a ++ b) = kept filters t a ++ kept filters t b := by
  unfold kept DataTable.fetch
  rw [List.filterMap_append, List.filter_append, List.map_append]

theorem fetch_nodup {rowids : List Nat} (distinct : rowids.Nodup) : (t.fetch rowids).Nodup := by
  unfold DataTable.fetch
  apply distinct.filterMap
  intro a b entry here there
  obtain ⟨_, _, rfl⟩ := Option.map_eq_some_iff.mp here
  obtain ⟨_, _, same⟩ := Option.map_eq_some_iff.mp there
  exact (Prod.mk.inj same).1.symm

theorem fetch_perm {rowids : List Nat} (distinct : rowids.Nodup) :
    ((t.fetch rowids).filter fun entry => filters.passes entry.2).Perm
      (t.visible.filter fun entry => decide (entry.1 ∈ rowids) && filters.passes entry.2) := by
  rw [List.perm_ext_iff_of_nodup ((fetch_nodup t distinct).filter _) (t.visible_nodup.filter _)]
  rintro ⟨r, row⟩
  simp only [List.mem_filter, mem_fetch, Bool.and_eq_true, decide_eq_true_eq]
  constructor
  · rintro ⟨⟨asked, present⟩, passes⟩
    exact ⟨present, asked, passes⟩
  · rintro ⟨present, asked, passes⟩
    exact ⟨⟨asked, present⟩, passes⟩

theorem kept_perm {rowids : List Nat} (distinct : rowids.Nodup) :
    (kept filters t rowids).Perm ((t.visible.filter fun entry =>
      decide (entry.1 ∈ rowids) && filters.passes entry.2).map Prod.snd) :=
  (fetch_perm filters t distinct).map Prod.snd

theorem fetch_visible {entries : List (Nat × Row)} (visible : ∀ entry ∈ entries, entry ∈ t.visible) :
    t.fetch (entries.map Prod.fst) = entries := by
  unfold DataTable.fetch
  rw [List.filterMap_map]
  induction entries with
  | nil => rfl
  | cons entry rest ih =>
    have found : t.fetchRow entry.1 = some entry.2 :=
      (fetchRow_eq_some t entry.1 entry.2).mpr (visible entry List.mem_cons_self)
    have tail := ih fun other present => visible other (List.mem_cons_of_mem entry present)
    rw [List.filterMap_cons_some (b := entry), tail]
    simp [found]

theorem fetchKept_ok (core : SearchCore) (rowids : List Nat) :
    fetchKept core filters t rowids = .ok (kept filters t rowids) := by
  have again : t.fetch (((t.fetch rowids).filter fun entry => filters.passes entry.2).map Prod.fst) =
      (t.fetch rowids).filter fun entry => filters.passes entry.2 := by
    apply fetch_visible
    rintro ⟨r, row⟩ present
    exact ((mem_fetch t).mp (List.mem_of_mem_filter present)).2
  unfold fetchKept
  simp only [again, ne_eq, not_true_eq_false, if_false, ite_self]
  rfl

end Kept

/-- What an index owes a search: the candidates ascend, none passes the mark,
    and each matching row up to the mark is one. -/
structure Probed (filters : ScanFilters Row) (core : SearchCore) (t : DataTable Row) : Prop where
  ascending : Ascending core.plan.segments.flatten
  below : ∀ r ∈ core.plan.segments.flatten, (r : Int) ≤ core.hwm
  covers : ∀ entry ∈ t.visible, filters.passes entry.2 = true → (entry.1 : Int) ≤ core.hwm →
    entry.1 ∈ core.plan.segments.flatten
  threads : core.plan.maxThreads = 0 → core.plan.segments = []
  marked : 0 ≤ core.hwm → core.probe ≠ none

/-- A search without a probe owes the index nothing. -/
theorem unprobed_covers (filters : ScanFilters Row) (t : DataTable Row) (extraColumns : Bool) :
    Probed filters ⟨-1, none, extraColumns⟩ t where
  ascending := List.Pairwise.nil
  below r listed := by cases listed
  covers entry _ _ low := by
    have unmarked : ((⟨-1, none, extraColumns⟩ : SearchCore).hwm) = -1 := rfl
    omega
  threads _ := rfl
  marked low := by
    have unmarked : ((⟨-1, none, extraColumns⟩ : SearchCore).hwm) = -1 := rfl
    omega

section Batches
variable {filters : ScanFilters Row} {core : SearchCore} {t : DataTable Row}

def candidateAt (core : SearchCore) (place : Nat × Nat) : Nat :=
  (core.plan.candidates place.1).getD place.2 0

theorem positions_candidates (core : SearchCore) {ordinal first last : Nat} (order : first ≤ last)
    (inside : last ≤ (core.plan.candidates ordinal).length) :
    (positions ordinal first last).map (candidateAt core) =
      ((core.plan.candidates ordinal).take last).drop first := by
  apply List.ext_getElem
  · simp [positions]
    omega
  · intro i left right
    simp only [positions, List.length_map, List.length_range'] at left
    have place : first + i < (core.plan.candidates ordinal).length := by omega
    simp [positions, candidateAt, List.getElem?_eq_getElem place]

theorem between_in_piece {front piece back : List Nat} (ascending : Ascending (front ++ piece ++ back))
    {first last r : Nat} (head : piece.head? = some first) (final : piece.getLast? = some last)
    (low : first ≤ r) (high : r ≤ last) (listed : r ∈ front ++ piece ++ back) : r ∈ piece := by
  have apart := List.pairwise_append.mp ascending
  have apart' := List.pairwise_append.mp apart.1
  have first_in : first ∈ piece := List.mem_of_mem_head? head
  have last_in : last ∈ piece := List.mem_of_getLast? final
  rw [List.append_assoc, List.mem_append, List.mem_append] at listed
  rcases listed with before | here | after
  · have less := apart'.2.2 r before first first_in
    omega
  · exact here
  · have less := apart.2.2 last (List.mem_append_right front last_in) r after
    omega

theorem candidates_piece (core : SearchCore) {ordinal first last : Nat} (order : first < last)
    (inside : last ≤ (core.plan.candidates ordinal).length) :
    ∃ front back, core.plan.segments.flatten =
      front ++ ((core.plan.candidates ordinal).take last).drop first ++ back := by
  have known : ordinal < core.plan.segments.length := by
    by_contra past
    have none_there : core.plan.segments[ordinal]? = none := List.getElem?_eq_none (Nat.le_of_not_lt past)
    simp [Plan.candidates, List.getD_eq_getElem?_getD, none_there] at inside
    omega
  have found : core.plan.candidates ordinal = core.plan.segments[ordinal] :=
    List.getD_eq_getElem _ _ known
  have segments : core.plan.segments = core.plan.segments.take ordinal ++
      core.plan.candidates ordinal :: core.plan.segments.drop (ordinal + 1) := by
    rw [found, List.getElem_cons_drop, List.take_append_drop]
  have taken := List.take_append_drop last (core.plan.candidates ordinal)
  have dropped := List.take_append_drop first ((core.plan.candidates ordinal).take last)
  refine ⟨(core.plan.segments.take ordinal).flatten ++ ((core.plan.candidates ordinal).take last).take first,
    (core.plan.candidates ordinal).drop last ++ (core.plan.segments.drop (ordinal + 1)).flatten, ?_⟩
  have parts : (((core.plan.candidates ordinal).take last).take first ++
      ((core.plan.candidates ordinal).take last).drop first) ++ (core.plan.candidates ordinal).drop last =
        core.plan.candidates ordinal := by
    rw [dropped, taken]
  conv_lhs => rw [segments, List.flatten_append, List.flatten_cons, ← parts]
  simp only [List.append_assoc]

theorem piece_ends {rowids : List Nat} {first last : Nat} (order : first < last) (inside : last ≤ rowids.length) :
    ((rowids.take last).drop first).head? = some (rowids.getD first 0) ∧
      ((rowids.take last).drop first).getLast? = some (rowids.getD (last - 1) 0) := by
  have size : ((rowids.take last).drop first).length = last - first := by
    rw [List.length_drop, List.length_take]
    omega
  have nth : ∀ i, ((rowids.take last).drop first)[i]? =
      if first + i < last then rowids[first + i]? else none := by
    intro i
    rw [List.getElem?_drop, List.getElem?_take]
  constructor
  · rw [List.head?_eq_getElem?, nth, Nat.add_zero, if_pos order]
    rw [List.getD_eq_getElem _ _ (by omega), List.getElem?_eq_getElem (by omega)]
  · have last_place : first + (last - first - 1) = last - 1 := by omega
    rw [List.getLast?_eq_getElem?, size, nth, last_place, if_pos (by omega)]
    rw [List.getD_eq_getElem _ _ (by omega), List.getElem?_eq_getElem (by omega)]

/-- A bounded scan from the first to the last of a piece of the candidates reads
    the matching rows of the piece: what else passes there would be a candidate. -/
theorem scan_piece {candidates front piece back : List Nat} {hwm : Int} {first last : Nat}
    (ascending : Ascending candidates) (below : ∀ r ∈ candidates, (r : Int) ≤ hwm)
    (covers : ∀ entry ∈ t.visible, filters.passes entry.2 = true → (entry.1 : Int) ≤ hwm →
      entry.1 ∈ candidates)
    (split : candidates = front ++ piece ++ back)
    (head : piece.head? = some first) (final : piece.getLast? = some last) :
    t.boundedScan filters first (last + 1) =
      t.visible.filter fun entry => decide (entry.1 ∈ piece) && filters.passes entry.2 := by
  have apart := ascending
  rw [split] at apart
  have piece_ascending : Ascending piece := (List.pairwise_append.mp (List.pairwise_append.mp apart).1).2.1
  have last_low : (last : Int) ≤ hwm := by
    apply below
    rw [split]
    exact List.mem_append_left _ (List.mem_append_right _ (List.mem_of_getLast? final))
  rw [boundedScan_eq]
  apply List.filter_congr
  intro entry present
  unfold scanned
  cases passes : filters.passes entry.2 with
  | false => simp
  | true =>
    rw [Bool.and_true, Bool.and_true]
    apply decide_eq_decide.mpr
    constructor
    · intro span
      have listed := covers entry present passes (by omega)
      rw [split] at listed
      exact between_in_piece apart head final span.1 (by omega) listed
    · intro listed
      have low : first ≤ entry.1 := by
        cases piece with
        | nil => simp at listed
        | cons r rest =>
          cases Option.some.inj head
          exact ascending_head_le piece_ascending entry.1 listed
      have high : entry.1 ≤ last := by
        have nonempty : piece ≠ [] := List.ne_nil_of_mem listed
        have reached := ascending_le_getLast piece_ascending nonempty entry.1 listed
        rw [List.getLast?_eq_some_getLast nonempty] at final
        rwa [Option.some.inj final] at reached
      exact ⟨low, by omega⟩

def Reading.holds (filters : ScanFilters Row) (t : DataTable Row) : Reading Row → List Row
  | .rowids left => kept filters t left
  | .rows left => left

/-- A batch yields its matching candidates, fetched or scanned. -/
theorem startBatch_holds (probed : Probed filters core t) {batch : Batch}
    (order : batch.candidateOffset < batch.candidateEnd)
    (inside : batch.candidateEnd ≤ (core.plan.candidates batch.segmentOrdinal).length) :
    ((startBatch filters t (core.plan.candidates batch.segmentOrdinal) batch).holds filters t).Perm
      (kept filters t (batch.positions.map (candidateAt core))) := by
  obtain ⟨front, back, flatten⟩ := candidates_piece core order inside
  rw [Batch.positions, positions_candidates core (Nat.le_of_lt order) inside]
  unfold startBatch
  split
  · obtain ⟨head, final⟩ := piece_ends order inside
    have ascending := probed.ascending
    rw [flatten] at ascending
    have distinct := ascending_nodup (List.pairwise_append.mp (List.pairwise_append.mp ascending).1).2.1
    refine List.Perm.trans (List.Perm.of_eq ?_) (kept_perm filters t distinct).symm
    simp only [Reading.holds]
    rw [scan_piece probed.ascending probed.below probed.covers flatten head final]
  · rfl

end Batches

end NgramSearchCore
