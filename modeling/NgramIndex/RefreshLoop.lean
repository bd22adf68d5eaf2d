import NgramIndex.Generations
import NgramIndex.RefreshProgress

/- The caller's loop of bounded refreshes. Each increment covers the rows from
   the mark it found to the mark it leaves, so a loop that ends without a tail
   holds what one unbounded refresh holds, cut into generations at its marks. -/
namespace NgramRefreshLoop
open NgramPostings NgramMaintenance NgramProbe NgramSegmentRows NgramGenerations NgramRefreshProgress Fallible
open scoped List
variable {Text Key : Type}

/-- Every rowid that was allocated has its slot in a stored row group. -/
def NoHoles (t : TableState Text) : Prop :=
  ∀ r < t.nextRowId, ∃ g ∈ t.rowGroups, g.start ≤ r ∧ r < g.start + g.count

theorem groups_cover {groups : List RowGroup} {low high : Nat}
    (sorted : groups.Pairwise fun a b => a.start + a.count ≤ b.start)
    (covers : ∀ r, low ≤ r → r < high → ∃ g ∈ groups, g.start ≤ r ∧ r < g.start + g.count) :
    high ≤ low + (groups.map RowGroup.count).sum := by
  induction groups generalizing low with
  | nil =>
    by_contra short
    obtain ⟨_, absent, _⟩ := covers low (Nat.le_refl _) (by simpa using short)
    exact nomatch absent
  | cons g groups ih =>
    obtain ⟨after, rest_sorted⟩ := List.pairwise_cons.mp sorted
    by_cases empty : high ≤ low
    · exact empty.trans (Nat.le_add_right _ _)
    have first : g.start ≤ low := by
      obtain ⟨other, listed, start, _⟩ := covers low (Nat.le_refl _) (by omega)
      rcases List.mem_cons.mp listed with rfl | later
      · exact start
      · have beyond := after other later
        omega
    have rest := @ih (max low (g.start + g.count)) rest_sorted (by
      intro r past below
      obtain ⟨other, listed, bounds⟩ := covers r (by omega) below
      rcases List.mem_cons.mp listed with rfl | later
      · omega
      · exact ⟨other, later, bounds⟩)
    simp only [List.map_cons, List.sum_cons]
    omega

/-- Without holes the row count is the end of the rowid space. -/
theorem committed_below {t : TableState Text} (stored : Stored t) (dense : NoHoles t) :
    ∀ r ∈ t.committed, r < t.getTotalRows := by
  intro r listed
  obtain ⟨row, present, rfl, committed⟩ := mem_committed.mp listed
  obtain ⟨g, in_groups, _, inside⟩ := stored.stored row present committed
  have allocated := stored.allocated g in_groups
  have whole := @groups_cover t.rowGroups 0 t.nextRowId stored.groups fun r _ below => dense r below
  simp only [Nat.zero_add] at whole
  unfold TableState.getTotalRows
  omega

def EndsSegment (mark : Int) : Prop := (mark + 1) % segmentRows = 0

instance (mark : Int) : Decidable (EndsSegment mark) := inferInstanceAs (Decidable (_ = _))

/-- Where a bound may stop: at the end of a segment, or in the segment of the
    first rowid past the old mark. -/
def StopsAt (before after : Int) : Prop :=
  EndsSegment after ∨ after / segmentRows = (before + 1) / segmentRows

theorem boundedRefreshEnd_stops {hwm maxRows : Int} (some_row : 1 ≤ maxRows)
    (inside : boundedRefreshEnd hwm maxRows < maxRowId - 1) :
    StopsAt hwm (boundedRefreshEnd hwm maxRows) := by
  simp only [StopsAt, EndsSegment, boundedRefreshEnd, segmentRows_eq] at inside ⊢
  split at inside
  · omega
  · rename_i within
    rw [if_neg within]
    split
    · left
      omega
    · right
      omega

/-- A refresh bounded by maxRows, with the partitions its expansion chose. -/
structure Call where
  partitions : Nat
  maxRows : Int
  deriving DecidableEq, Repr

def remainingTail (t : TableState Text) (index : IndexState Key) : Nat :=
  (refreshSummary t.rows index.hwm index.hwm).remainingTail

section Loop
variable [DecidableEq Key]

/-- The loop of a caller that refreshes until the summary reports no tail: the
    indexes that the increments but the last leave, and the last one's. -/
def refreshLoop (gramKeys : Text → List Key) (t : TableState Text) :
    List Call → IndexState Key → Except String (List (IndexState Key) × IndexState Key)
  | [], index => .ok ([], index)
  | call :: calls, index => do
      let after ← refresh gramKeys call.partitions t (some call.maxRows) index
      if (refreshSummary t.rows index.hwm after.hwm).remainingTail = 0 then .ok ([], after)
      else do
        let (passed, last) ← refreshLoop gramKeys t calls after
        .ok (after :: passed, last)

/-- What refreshes add to an index: segment rows of the rows between two marks. -/
structure Extends (gramKeys : Text → List Key) (rows : List (BaseRow Text)) (index after : IndexState Key)
    (packed : List (SegmentRow Key)) : Prop where
  segments : after.segments = index.segments ++ packed
  numbered : Numbered after
  forward : index.hwm ≤ after.hwm
  posted : ∀ key r, Posted packed key r ↔ ∃ row ∈ rows, ∃ text, row.rowid = r ∧ row.value = some text ∧
    key ∈ gramKeys text ∧ index.hwm < r ∧ (r : Int) ≤ after.hwm

variable {gramKeys : Text → List Key} {rows : List (BaseRow Text)} {t : TableState Text}
  {index mid after whole : IndexState Key} {a b : List (SegmentRow Key)}

omit [DecidableEq Key] in
theorem extends_refl (numbered : Numbered index) : Extends gramKeys rows index index [] where
  segments := (List.append_nil _).symm
  numbered := numbered
  forward := Int.le_refl _
  posted key r := by
    constructor
    · rintro ⟨_, absent, _⟩
      exact nomatch absent
    · rintro ⟨row, _, _, _, _, _, past, below⟩
      omega

omit [DecidableEq Key] in
theorem extends_trans (first : Extends gramKeys rows index mid a) (second : Extends gramKeys rows mid after b) :
    Extends gramKeys rows index after (a ++ b) where
  segments := by rw [second.segments, first.segments, List.append_assoc]
  numbered := second.numbered
  forward := first.forward.trans second.forward
  posted key r := by
    rw [posted_append, first.posted, second.posted]
    have lower := first.forward
    have upper := second.forward
    constructor
    · rintro (⟨row, present, text, same, value, in_text, past, below⟩ |
        ⟨row, present, text, same, value, in_text, past, below⟩)
      · exact ⟨row, present, text, same, value, in_text, past, by omega⟩
      · exact ⟨row, present, text, same, value, in_text, by omega, below⟩
    · rintro ⟨row, present, text, same, value, in_text, past, below⟩
      by_cases here : (r : Int) ≤ mid.hwm
      · exact .inl ⟨row, present, text, same, value, in_text, past, here⟩
      · exact .inr ⟨row, present, text, same, value, in_text, by omega, below⟩

omit [DecidableEq Key] in
theorem extends_held (extended : Extends gramKeys rows index after a) : ∀ row ∈ a, Held after.hwm row := by
  intro row present
  apply extended.numbered.held row
  rw [extended.segments]
  exact List.mem_append_right _ present

omit [DecidableEq Key] in
/-- Increments that meet at the end of a segment share no key of a segment. -/
theorem extends_unique (first : Extends gramKeys rows index mid a) (second : Extends gramKeys rows mid after b)
    (boundary : EndsSegment mid.hwm) (unique_a : UniqueKeys a) (unique_b : UniqueKeys b) :
    UniqueKeys (a ++ b) := by
  rw [UniqueKeys, List.map_append]
  apply List.nodup_append.mpr
  refine ⟨unique_a, unique_b, ?_⟩
  intro key in_a key' in_b same
  obtain ⟨row, present, rfl⟩ := List.mem_map.mp in_a
  obtain ⟨other, there, rfl⟩ := List.mem_map.mp in_b
  have held := extends_held first row present
  have held' := extends_held second other there
  obtain ⟨r, posted⟩ := List.exists_mem_of_ne_nil _ held.nonempty
  obtain ⟨r', posted'⟩ := List.exists_mem_of_ne_nil _ held'.nonempty
  obtain ⟨at_segment, below⟩ := held.inside r posted
  have at_segment' := (held'.inside r' posted').1
  obtain ⟨_, _, _, _, _, _, past, _⟩ := (second.posted other.gramKey r').mp ⟨other, there, rfl, posted'⟩
  have segments : row.segmentNo = other.segmentNo := congrArg Prod.snd same
  rw [held_segment held, held_segment held', ← at_segment, ← at_segment'] at segments
  unfold EndsSegment at boundary
  simp only [Int.natCast_ediv, segmentRows_eq] at boundary segments
  omega

omit [DecidableEq Key] in
theorem no_tail {index : IndexState Key} :
    remainingTail t index = 0 ↔ ∀ r ∈ t.committed, (r : Int) ≤ index.hwm := no_tail_iff

/-- One refresh of a table without holes: the rows that it adds, and its mark. -/
theorem refresh_extends (gramKeys : Text → List Key) (partitions : Nat) {maxRows : Option Int}
    (stored : Stored t) (dense : NoHoles t) (numbered : Numbered index) (low : -1 ≤ index.hwm)
    (some_row : ∀ rows, maxRows = some rows → 1 ≤ rows) :
    ∃ after packed, refresh gramKeys partitions t maxRows index = .ok after ∧
      Extends gramKeys t.rows index after packed ∧ UniqueKeys packed ∧
      (after.hwm = index.hwm ∨ ∃ r ∈ t.committed, after.hwm ≤ r) ∧
      (remainingTail t after = 0 ∨ refreshEnd index.hwm maxRows < (t.getTotalRows : Int) - 1 ∧
        index.hwm < after.hwm ∧ after.hwm = refreshEnd index.hwm maxRows) := by
  have fits := total_rows_fit stored
  have rows_below := committed_below stored dense
  rcases refresh_cases gramKeys partitions t maxRows index with
    ⟨nothing, run⟩ | ⟨_, pass, expanded, short, bound, run⟩
  · refine ⟨index, [], run, extends_refl numbered, List.nodup_nil, .inl rfl, .inl ?_⟩
    rw [no_tail]
    intro r listed
    have below := rows_below r listed
    omega
  · have settled := @refreshedHighWaterMark_settled _ t.rows _ _ _ _ _ low some_row fits expanded
    obtain ⟨packed, posted⟩ := @pass_packed _ _ _ gramKeys t.rows _ _ _ _ _ low some_row fits expanded
    have forward := settled.forward
    refine ⟨_, stamp index.nextPosting (nextGeneration index.segments) (packRanges gramKeys t.rows pass.ranges),
      run, ⟨rfl, ?_, forward, ?_⟩, (stamp_packed packed _ _).unique, ?_, ?_⟩
    · apply append_numbered numbered packed forward
      · intro row present r in_row
        obtain ⟨_, _, _, _, _, _, past, _⟩ := (posted row.gramKey r).mp ⟨row, present, rfl, in_row⟩
        exact past
      · exact below_nextGeneration
    · intro key r
      rw [posted_stamp]
      exact posted key r
    · rcases settled.witnessed with same | ⟨row, present, committed, reached⟩
      · exact .inl same
      · exact .inr ⟨row.rowid, mem_committed.mpr ⟨row, present, rfl, committed⟩, reached⟩
    · by_cases ended : remainingTail t { index.appendPacked (nextGeneration index.segments)
          (packRanges gramKeys t.rows pass.ranges) with
        hwm := refreshedHighWaterMark t.rows index.hwm index.hwm pass.stopsShort pass.boundEnd } = 0
      · exact .inl ended
      · rw [no_tail] at ended
        push Not at ended
        obtain ⟨r, listed, past⟩ := ended
        obtain ⟨row, present, rfl, committed⟩ := mem_committed.mp listed
        simp only at past
        have unreached : ¬ (row.rowid : Int) ≤ pass.reach := by
          intro reached
          have covered := settled.covered row present (by omega) reached
          omega
        have stops : pass.stopsShort = true := by
          by_contra open_end
          simp only [RefreshPass.reach, open_end] at unreached
          simp at unreached
          omega
        have reach : pass.reach = pass.boundEnd := by simp [RefreshPass.reach, stops]
        have beyond : committedAbove t.rows pass.boundEnd ≠ [] :=
          List.ne_nil_of_mem (mem_committedAbove.mpr ⟨row, present, rfl, by omega, by omega⟩)
        have mark : refreshedHighWaterMark t.rows index.hwm index.hwm pass.stopsShort pass.boundEnd =
            pass.boundEnd := by
          simp [refreshedHighWaterMark, stops, beyond]
        have advances : index.hwm ≠ pass.boundEnd := by
          intro same
          have nothing := settled.progress (mark.trans same.symm)
          rw [same] at nothing
          exact beyond nothing
        rw [mark] at forward
        refine .inr ⟨short.mp stops, ?_, mark.trans bound⟩
        show index.hwm < refreshedHighWaterMark _ _ _ _ _
        omega

omit [DecidableEq Key] in
theorem refreshEnd_stops {maxRows : Int} (some_row : 1 ≤ maxRows) (fits : t.getTotalRows ≤ maxRowId)
    (short : refreshEnd index.hwm (some maxRows) < (t.getTotalRows : Int) - 1) :
    StopsAt index.hwm (refreshEnd index.hwm (some maxRows)) := by
  have before : boundedRefreshEnd index.hwm maxRows < (t.getTotalRows : Int) - 1 := short
  apply boundedRefreshEnd_stops some_row
  omega

/-- What a loop of calls makes of an index, whether or not it reaches the end of
    the tail. -/
structure LoopRun (gramKeys : Text → List Key) (t : TableState Text) (calls : List Call)
    (index : IndexState Key) (passed : List (IndexState Key)) (after : IndexState Key)
    (packed : List (SegmentRow Key)) : Prop where
  run : refreshLoop gramKeys t calls index = .ok (passed, after)
  extended : Extends gramKeys t.rows index after packed
  stops : List.IsChain (fun before state => StopsAt before.hwm state.hwm) (index :: passed)
  unique : (∀ state ∈ passed, EndsSegment state.hwm) → UniqueKeys packed
  witnessed : after.hwm = index.hwm ∨ ∃ r ∈ t.committed, after.hwm ≤ r
  ends : (t.getTotalRows : Int) ≤ index.hwm + 1 + calls.length → remainingTail t after = 0

theorem loop_runs (gramKeys : Text → List Key) (stored : Stored t) (dense : NoHoles t) {calls : List Call}
    (some_rows : ∀ call ∈ calls, 1 ≤ call.maxRows) (numbered : Numbered index) (low : -1 ≤ index.hwm) :
    ∃ passed after packed, LoopRun gramKeys t calls index passed after packed := by
  induction calls generalizing index with
  | nil =>
    refine ⟨[], index, [], rfl, extends_refl numbered, List.isChain_singleton _, fun _ => List.nodup_nil,
      .inl rfl, fun enough => ?_⟩
    rw [no_tail]
    intro r listed
    have below := committed_below stored dense r listed
    simp only [List.length_nil] at enough
    omega
  | cons call calls ih =>
    have some_row := some_rows call List.mem_cons_self
    obtain ⟨mid, first, run, extended, unique, witnessed, moved⟩ := @refresh_extends _ _ _ t index gramKeys
      call.partitions (some call.maxRows) stored dense numbered low fun rows same => by cases same; exact some_row
    by_cases ended : remainingTail t mid = 0
    · refine ⟨[], mid, first, ?_, extended, List.isChain_singleton _, fun _ => unique, witnessed, fun _ => ended⟩
      rw [refreshLoop, run, bind_of_ok rfl]
      exact if_pos ended
    · obtain ⟨short, advanced, mark⟩ := moved.resolve_left ended
      have forward := extended.forward
      obtain ⟨passed, after, rest, loop⟩ := @ih mid
        (fun other listed => some_rows other (List.mem_cons_of_mem call listed)) extended.numbered (by omega)
      refine ⟨mid :: passed, after, first ++ rest, ?_, extends_trans extended loop.extended, ?_, ?_, ?_, ?_⟩
      · rw [refreshLoop, run, bind_of_ok rfl]
        show (if remainingTail t mid = 0 then _ else _) = _
        rw [if_neg ended, loop.run, bind_of_ok rfl]
      · apply List.isChain_cons_cons.mpr
        refine ⟨?_, loop.stops⟩
        rw [mark]
        exact refreshEnd_stops some_row (total_rows_fit stored) short
      · intro boundaries
        exact extends_unique extended loop.extended (boundaries mid List.mem_cons_self) unique
          (loop.unique fun state listed => boundaries state (List.mem_cons_of_mem mid listed))
      · rcases loop.witnessed with same | later
        · rwa [same]
        · exact .inr later
      · intro enough
        apply loop.ends
        simp only [List.length_cons] at enough
        omega

omit [DecidableEq Key] in
/-- The mark of any route that ends without a tail. -/
theorem final_mark {first second : IndexState Key} (tail : remainingTail t first = 0)
    (tail' : remainingTail t second = 0) (forward : index.hwm ≤ first.hwm) (forward' : index.hwm ≤ second.hwm)
    (witnessed : first.hwm = index.hwm ∨ ∃ r ∈ t.committed, first.hwm ≤ r)
    (witnessed' : second.hwm = index.hwm ∨ ∃ r ∈ t.committed, second.hwm ≤ r) : first.hwm = second.hwm := by
  rw [no_tail] at tail tail'
  apply Int.le_antisymm
  · rcases witnessed with same | ⟨r, listed, reached⟩
    · omega
    · exact reached.trans (tail' r listed)
  · rcases witnessed' with same | ⟨r, listed, reached⟩
    · omega
    · exact reached.trans (tail r listed)

def keyRowids (segments : List (SegmentRow Key)) (key : Key) : List Nat :=
  (segments.filter fun row => decide (row.gramKey = key)).flatMap SegmentRow.rowids

theorem rowids_once (numbered : Numbered index) (key : Key) : (keyRowids index.segments key).Nodup := by
  apply List.nodup_flatMap.mpr
  constructor
  · intro row listed
    exact AscendingLists.ascending_nodup (numbered.held row (List.mem_filter.mp listed).1).ascending
  · apply (numbered.postings.of_map.filter _).pairwise_of_forall_ne
    intro x in_x y in_y differ r posted posted'
    obtain ⟨present, of_key⟩ := List.mem_filter.mp in_x
    obtain ⟨there, of_key'⟩ := List.mem_filter.mp in_y
    have key : x.gramKey = y.gramKey := (of_decide_eq_true of_key).trans (of_decide_eq_true of_key').symm
    exact differ (numbered.apart x present y there key r posted posted')

/-- A merge compaction as it would be expanded now. -/
theorem merge_packed (numbered : Numbered index) (space : index.hwm < maxRowId) {fragmented : Bool}
    (answers : Answers index.segments fragmented) (base : List (BaseRow Text)) (partitions : Nat) :
    ∃ merged, executeCompact ⟨index.hwm, false, fragmented, partitions⟩ base index = .ok merged ∧
      Packed index.hwm merged.segments ∧ ∀ key r, Posted merged.segments key r ↔ Posted index.segments key r := by
  obtain ⟨merged, run⟩ := @executeCompact_total _ _ _ base ⟨index.hwm, false, fragmented, partitions⟩ index
    numbered space rfl
  obtain ⟨_, _, outcome⟩ := executeCompact_keeps numbered space run
  refine ⟨merged, run, ?_, fun key r => ?_⟩
  · rcases outcome with ⟨rfl, _, whole⟩ | ⟨packed, _⟩
    · exact ⟨numbered.held, unique_of_generation numbered.numbers (one_generation_of_stats answers whole)⟩
    · exact packed
  · rw [executeCompact_exact numbered space run]
    simp

/-- What a loop that ended shares with the unbounded refresh. -/
structure Refines (t : TableState Text) (index : IndexState Key) (passed : List (IndexState Key))
    (after whole : IndexState Key) : Prop where
  mark : after.hwm = whole.hwm
  pairs : ∀ key r, Posted after.segments key r ↔ Posted whole.segments key r
  once : ∀ key, (keyRowids after.segments key).Nodup ∧ (keyRowids whole.segments key).Nodup
  stops : List.IsChain (fun before state => StopsAt before.hwm state.hwm) (index :: passed)
  aligned : (∀ state ∈ passed, EndsSegment state.hwm) →
    after.segments.map content ~ whole.segments.map content
  merged : ∀ fragmented fragmented' partitions partitions', Answers after.segments fragmented →
    Answers whole.segments fragmented' → ∃ merged merged',
      executeCompact ⟨after.hwm, false, fragmented, partitions⟩ t.rows after = .ok merged ∧
      executeCompact ⟨whole.hwm, false, fragmented', partitions'⟩ t.rows whole = .ok merged' ∧
      merged.segments.map content ~ merged'.segments.map content

end Loop

/-- Enough bounded refreshes of any sizes reach the end of the tail, and hold then
    what one unbounded refresh holds. -/
theorem bounded_loop_refines [DecidableEq Key] (gramKeys : Text → List Key) (partitions : Nat)
    {t : TableState Text} (stored : Stored t) (dense : NoHoles t) {index : IndexState Key}
    (numbered : Numbered index) (low : -1 ≤ index.hwm) (space : index.hwm < maxRowId) {calls : List Call}
    (some_rows : ∀ call ∈ calls, 1 ≤ call.maxRows) :
    ∃ passed after whole, refreshLoop gramKeys t calls index = .ok (passed, after) ∧
      refresh gramKeys partitions t none index = .ok whole ∧
      (t.getTotalRows ≤ calls.length → remainingTail t after = 0) ∧
      (remainingTail t after = 0 → Refines t index passed after whole) := by
  obtain ⟨passed, after, packed, loop⟩ := @loop_runs _ _ _ t index gramKeys stored dense calls some_rows
    numbered low
  obtain ⟨whole, packed', run, extended', unique', witnessed', moved'⟩ :=
    @refresh_extends _ _ _ t index gramKeys partitions none stored dense numbered low nofun
  refine ⟨passed, after, whole, loop.run, run, fun enough => loop.ends (by omega), fun ended => ?_⟩
  have tail' : remainingTail t whole = 0 := by
    rcases moved' with ended' | ⟨short, _⟩
    · exact ended'
    · have fits := total_rows_fit stored
      have before : (maxRowId : Int) - 1 < (t.getTotalRows : Int) - 1 := short
      omega
  have extended := loop.extended
  have mark : after.hwm = whole.hwm :=
    final_mark ended tail' extended.forward extended'.forward loop.witnessed witnessed'
  have packed_alike : ∀ key r, Posted packed key r ↔ Posted packed' key r := by
    intro key r
    rw [extended.posted, extended'.posted, mark]
  have pairs : ∀ key r, Posted after.segments key r ↔ Posted whole.segments key r := by
    intro key r
    rw [extended.segments, extended'.segments, posted_append, posted_append, packed_alike]
  have inside : after.hwm < maxRowId := by
    rcases loop.witnessed with same | ⟨r, listed, reached⟩
    · omega
    · obtain ⟨_, _, _, committed⟩ := mem_committed.mp listed
      omega
  refine ⟨mark, pairs, ?_, loop.stops, ?_, ?_⟩
  · intro key
    exact ⟨rowids_once extended.numbered key, rowids_once extended'.numbered key⟩
  · intro boundaries
    rw [extended.segments, extended'.segments, List.map_append, List.map_append]
    apply List.Perm.append_left
    exact contents_perm ⟨extends_held extended, loop.unique boundaries⟩ ⟨extends_held extended', unique'⟩
      packed_alike
  · intro fragmented fragmented' partitions partitions' answers answers'
    obtain ⟨merged, ran, left, posted⟩ := merge_packed extended.numbered inside answers t.rows partitions
    obtain ⟨merged', ran', right, posted'⟩ :=
      merge_packed extended'.numbered (by omega) answers' t.rows partitions'
    refine ⟨merged, merged', ran, ran', ?_⟩
    apply contents_perm left right
    intro key r
    rw [posted, posted', pairs]

/-- Five bounds over rows 0, 3 and 4, the deleted rows between them included. -/
theorem dense_table_looped : ∃ passed after whole,
    refreshLoop wholeText denseTable [⟨1, 1⟩, ⟨2, 2⟩, ⟨1, 1⟩, ⟨4, 1⟩, ⟨1, 7⟩] ⟨-1, [], 0⟩ = .ok (passed, after) ∧
    refresh wholeText 1 denseTable none ⟨-1, [], 0⟩ = .ok whole ∧ passed.map IndexState.hwm = [0, 2, 3] ∧
    after.hwm = whole.hwm ∧ ∀ key r, Posted after.segments key r ↔ Posted whole.segments key r := by
  obtain ⟨passed, after, whole, looped, run, enough, refines⟩ := bounded_loop_refines wholeText 1
    denseTable_stored (by unfold NoHoles; decide) (empty_numbered (-1) 0) (by decide) (by decide)
    (show ∀ call ∈ ([⟨1, 1⟩, ⟨2, 2⟩, ⟨1, 1⟩, ⟨4, 1⟩, ⟨1, 7⟩] : List Call), 1 ≤ call.maxRows by decide)
  have outcome := refines (enough (by decide))
  refine ⟨passed, after, whole, looped, run, ?_, outcome.mark, outcome.pairs⟩
  have marks : (refreshLoop wholeText denseTable [⟨1, 1⟩, ⟨2, 2⟩, ⟨1, 1⟩, ⟨4, 1⟩, ⟨1, 7⟩]
      ⟨-1, [], 0⟩).map (fun states => states.1.map IndexState.hwm) = .ok [0, 2, 3] := by decide +kernel
  rw [looped] at marks
  exact ok_inj marks

end NgramRefreshLoop
