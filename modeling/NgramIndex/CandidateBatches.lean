import Mathlib.Data.List.GetD
import Mathlib.Data.List.TakeWhile
import NgramIndex.CandidateQueue
import NgramIndex.ProbeIntersection

/- The batches that the queue cuts from the candidate lists of a plan. Whatever
   the schedule, the batches handed out are the first of these, in order. -/
namespace NgramCandidateQueue
open LabelledRun AscendingLists
open NgramStorage (standardVectorSize)
open NgramProbe (segmentRows rangeRowsPerFetch fetchBatchRows)

def batchesFrom (front : PublishedCandidates) : List Batch :=
  if _ : front.nextOffset < front.rowids.length then
    cutBatch front :: batchesFrom { front with nextOffset := (cutBatch front).candidateEnd }
  else []
termination_by front.rowids.length - front.nextOffset
decreasing_by
  have bounds := cutBatch_bounds ‹front.nextOffset < front.rowids.length›
  omega

def Plan.segmentBatches (plan : Plan) (ordinal : Nat) : List Batch :=
  batchesFrom ⟨ordinal, plan.candidates ordinal, 0⟩

def Plan.batches (plan : Plan) (ordinals : List Nat) : List Batch := ordinals.flatMap plan.segmentBatches

theorem batchesFrom_done {front : PublishedCandidates} (read : front.rowids.length ≤ front.nextOffset) :
    batchesFrom front = [] := by
  rw [batchesFrom, dif_neg (Nat.not_lt.mpr read)]

theorem batchesFrom_next {front : PublishedCandidates} (unread : front.nextOffset < front.rowids.length) :
    batchesFrom front =
      cutBatch front :: batchesFrom { front with nextOffset := (cutBatch front).candidateEnd } := by
  rw [batchesFrom, dif_pos unread]

section Schedules
variable {plan : Plan}

theorem batches_append (a b : List Nat) : plan.batches (a ++ b) = plan.batches a ++ plan.batches b := by
  simp [Plan.batches]

/-- What PublishInOrder makes ready has all its batches ahead. -/
theorem publishInOrder_batches (pending : List (Nat × List Nat)) (ready : List PublishedCandidates)
    (readied : List Nat) (nextPublish : Nat)
    (decoded : ∀ entry ∈ pending, entry.2 = plan.candidates entry.1) :
    ∃ count, (publishInOrder ready readied nextPublish pending).2.2.1 = nextPublish + count ∧
      (publishInOrder ready readied nextPublish pending).1.flatMap batchesFrom =
        ready.flatMap batchesFrom ++ plan.batches (List.range' nextPublish count) := by
  induction pending generalizing ready readied nextPublish with
  | nil => exact ⟨0, rfl, by simp [publishInOrder, Plan.batches]⟩
  | cons entry rest ih =>
    obtain ⟨ordinal, rowids⟩ := entry
    have rowids_eq : rowids = plan.candidates ordinal := decoded (ordinal, rowids) List.mem_cons_self
    have rest_decoded : ∀ entry ∈ rest, entry.2 = plan.candidates entry.1 :=
      fun entry present => decoded entry (List.mem_cons_of_mem _ present)
    rw [publishInOrder]
    by_cases next : ordinal = nextPublish
    · subst next
      rw [if_pos rfl]
      by_cases empty : rowids = []
      · rw [if_pos empty]
        obtain ⟨count, advanced, batches⟩ := ih ready readied (ordinal + 1) rest_decoded
        have nothing : plan.segmentBatches ordinal = [] := by
          apply batchesFrom_done
          rw [← rowids_eq, empty]
          exact Nat.le_refl 0
        refine ⟨count + 1, by omega, ?_⟩
        rw [batches, List.range'_succ]
        simp [Plan.batches, nothing]
      · rw [if_neg empty]
        obtain ⟨count, advanced, batches⟩ := ih (ready ++ [⟨ordinal, rowids, 0⟩]) (readied ++ [ordinal])
          (ordinal + 1) rest_decoded
        refine ⟨count + 1, by omega, ?_⟩
        rw [batches, List.range'_succ]
        simp [Plan.batches, Plan.segmentBatches, rowids_eq]
    · rw [if_neg next]
      exact ⟨0, rfl, by simp [Plan.batches]⟩

/-- The batches handed out and those ahead of the ready segments are together
    those of the published segments. -/
structure Cut (plan : Plan) (s : FetchState) : Prop where
  ordered : Ordered plan s
  batches : s.handed.map Prod.snd ++ s.queue.ready.flatMap batchesFrom =
    plan.batches (List.range s.queue.nextPublish)

theorem take_cut {s : FetchState} {w : Nat} {front : PublishedCandidates} {others : List PublishedCandidates}
    (cut : Cut plan s) (ready : s.queue.ready = front :: others) :
    (takeBatch s w front others).handed.map Prod.snd ++
        (takeBatch s w front others).queue.ready.flatMap batchesFrom =
      plan.batches (List.range s.queue.nextPublish) := by
  have unread := (cut.ordered.ready_decoded front (by rw [ready]; exact List.mem_cons_self)).2
  have batches := cut.batches
  rw [ready, List.flatMap_cons, batchesFrom_next unread] at batches
  rw [← batches]
  simp only [takeBatch, List.map_append, List.map_cons, List.map_nil, List.append_assoc,
    List.cons_append, List.nil_append]
  split
  · rename_i used_up
    have done : batchesFrom { front with nextOffset := (cutBatch front).candidateEnd } = [] :=
      batchesFrom_done used_up
    rw [done, List.nil_append]
  · rw [List.flatMap_cons]

theorem finish_cut {s : FetchState} {w ordinal : Nat} (cut : Cut plan s) :
    let t := finishDecode s w ordinal (plan.candidates ordinal)
    t.handed.map Prod.snd ++ t.queue.ready.flatMap batchesFrom =
      plan.batches (List.range t.queue.nextPublish) := by
  have decoded : ∀ entry ∈ insertPending ordinal (plan.candidates ordinal) s.queue.pending,
      entry.2 = plan.candidates entry.1 := by
    intro entry present
    rcases List.mem_cons.mp ((insertPending_perm _ _ _).mem_iff.mp present) with rfl | old
    · rfl
    · exact cut.ordered.pending_decoded entry old
  obtain ⟨count, advanced, batches⟩ := publishInOrder_batches _ s.queue.ready s.readied
    s.queue.nextPublish decoded
  simp only [finishDecode]
  rw [batches, advanced, ← List.append_assoc, cut.batches, ← range_append_range', batches_append]

theorem step_cut (s : FetchState) (w : Nat) (t : FetchState) (cut : Cut plan s)
    (step : fetchStep plan s w = some t) : Cut plan t := by
  refine ⟨step_ordered plan s w t cut.ordered step, ?_⟩
  rcases fetchStep_cases step with ⟨front, others, _, ready, rfl⟩ | ⟨_, _, _, _, rfl⟩ |
    ⟨ordinal, _, rfl⟩ | ⟨_, _, rfl⟩ | ⟨_, _, _, _, rfl⟩ | ⟨_, rfl⟩
  · exact take_cut cut ready
  · exact cut.batches
  · exact finish_cut cut
  · exact cut.batches
  · exact cut.batches
  · exact cut.batches

theorem start_cut (plan : Plan) (workers : Nat) : Cut plan (start workers) :=
  ⟨start_ordered plan workers, rfl⟩

theorem cut_initial {s : FetchState} (cut : Cut plan s) :
    s.handed.map Prod.snd <+: plan.batches (List.range plan.segments.length) := by
  have published := cut.ordered.published
  have claimed := cut.ordered.claimed
  have reach : plan.segments.length =
      s.queue.nextPublish + (plan.segments.length - s.queue.nextPublish) := by omega
  rw [reach, ← range_append_range', batches_append, ← cut.batches, List.append_assoc]
  exact List.prefix_append _ _

theorem cut_drained {s : FetchState} (cut : Cut plan s) (drained : s.drained plan) :
    s.handed.map Prod.snd = plan.batches (List.range plan.segments.length) := by
  have batches := cut.batches
  rwa [drained.1, drained.2, List.flatMap_nil, List.append_nil] at batches

end Schedules

section Slices

def Batch.rowids (batch : Batch) (candidates : List Nat) : List Nat :=
  (candidates.take batch.candidateEnd).drop batch.candidateOffset

def Consecutive (ordinal size : Nat) : Nat → List Batch → Prop
  | first, [] => first = size
  | first, batch :: rest =>
      batch.segmentOrdinal = ordinal ∧ batch.candidateOffset = first ∧ first < batch.candidateEnd ∧
        Consecutive ordinal size batch.candidateEnd rest

theorem batchesFrom_consecutive (front : PublishedCandidates) (inside : front.nextOffset ≤ front.rowids.length) :
    Consecutive front.segmentOrdinal front.rowids.length front.nextOffset (batchesFrom front) := by
  induction front using batchesFrom.induct with
  | case1 front unread ih =>
    have bounds := cutBatch_bounds unread
    rw [batchesFrom_next unread]
    exact ⟨rfl, rfl, bounds.1, ih bounds.2⟩
  | case2 front read =>
    rw [batchesFrom_done (Nat.not_lt.mp read)]
    exact Nat.le_antisymm inside (Nat.not_lt.mp read)

theorem consecutive_within {ordinal size first : Nat} {batches : List Batch}
    (consecutive : Consecutive ordinal size first batches) : first ≤ size := by
  induction batches generalizing first with
  | nil => exact Nat.le_of_eq consecutive
  | cons batch rest ih =>
    obtain ⟨_, _, forward, later⟩ := consecutive
    have reach := ih later
    omega

theorem consecutive_bounds {ordinal size first : Nat} {batches : List Batch}
    (consecutive : Consecutive ordinal size first batches) :
    ∀ batch ∈ batches, batch.segmentOrdinal = ordinal ∧ first ≤ batch.candidateOffset ∧
      batch.candidateOffset < batch.candidateEnd ∧ batch.candidateEnd ≤ size := by
  induction batches generalizing first with
  | nil => nofun
  | cons head rest ih =>
    obtain ⟨same, begins, forward, later⟩ := consecutive
    have reach := consecutive_within later
    intro batch present
    rcases List.mem_cons.mp present with rfl | behind
    · exact ⟨same, by omega, by omega, reach⟩
    · obtain ⟨at_ordinal, past, order, inside⟩ := ih later batch behind
      exact ⟨at_ordinal, by omega, order, inside⟩

/-- The slices partition what is left of the list. -/
theorem consecutive_rowids {ordinal first : Nat} {candidates : List Nat} {batches : List Batch}
    (consecutive : Consecutive ordinal candidates.length first batches) :
    batches.flatMap (Batch.rowids · candidates) = candidates.drop first := by
  induction batches generalizing first with
  | nil =>
    have all_read : first = candidates.length := consecutive
    rw [all_read, List.drop_length]
    rfl
  | cons batch rest ih =>
    obtain ⟨_, begins, forward, later⟩ := consecutive
    have split : candidates.drop first = (candidates.take batch.candidateEnd).drop first ++
        candidates.drop batch.candidateEnd := by
      conv_lhs => rw [← List.take_append_drop batch.candidateEnd candidates]
      rw [List.drop_append_of_le_length]
      rw [List.length_take]
      have reach := consecutive_within later
      omega
    rw [List.flatMap_cons, ih later, split, Batch.rowids, begins]

theorem cutBatch_advances {front : PublishedCandidates}
    (left : (cutBatch front).candidateEnd < front.rowids.length) :
    front.nextOffset + fetchBatchRows ≤ (cutBatch front).candidateEnd := by
  unfold cutBatch at left ⊢
  simp only at left ⊢
  split at left
  · rename_i dense
    simp only [rangeScanPays, Bool.and_eq_true, decide_eq_true_eq] at dense
    have bounds := @blockEnd_bounds front.rowids
      (min (front.nextOffset + rangeBatchRows) front.rowids.length) (by omega)
    rw [if_pos (by simpa [rangeScanPays] using dense)]
    simp only [rangeScanMinRows, fetchBatchRows] at dense ⊢
    omega
  · rename_i sparse
    have bounds := @blockEnd_bounds front.rowids
      (min (front.nextOffset + fetchBatchRows) front.rowids.length) (by omega)
    rw [if_neg sparse]
    omega

/-- Later batches of a segment start at least a fetch batch on. -/
theorem batchesFrom_spread (front : PublishedCandidates) :
    (batchesFrom front).Pairwise fun a b => a.candidateOffset + fetchBatchRows ≤ b.candidateOffset := by
  induction front using batchesFrom.induct with
  | case1 front unread ih =>
    rw [batchesFrom_next unread]
    apply List.Pairwise.cons _ ih
    intro batch behind
    have bounds := cutBatch_bounds unread
    have place := consecutive_bounds (batchesFrom_consecutive
      { front with nextOffset := (cutBatch front).candidateEnd } bounds.2) batch behind
    simp only at place
    have advance := @cutBatch_advances front (by omega)
    have begins : (cutBatch front).candidateOffset = front.nextOffset := rfl
    omega
  | case2 front read =>
    rw [batchesFrom_done (Nat.not_lt.mp read)]
    exact List.Pairwise.nil

theorem blockEnd_apart {rowids : List Nat} {last : Nat} (ascending : Ascending rowids) (some_taken : 0 < last)
    (inside : last ≤ rowids.length) :
    ∀ x ∈ rowids.take (blockEnd rowids last), ∀ y ∈ rowids.drop (blockEnd rowids last),
      x / standardVectorSize < y / standardVectorSize := by
  generalize block : rowids.getD (last - 1) 0 = final
  have split : rowids = rowids.take last ++ rowids.drop last := (List.take_append_drop last rowids).symm
  have apart := ascending
  rw [split] at apart
  obtain ⟨front_ascending, back_ascending, across⟩ := List.pairwise_append.mp apart
  have final_in : final ∈ rowids.take last := by
    have place : last - 1 < rowids.length := by omega
    rw [← block, List.getD_eq_getElem _ _ place]
    exact List.mem_take_iff_getElem.mpr ⟨last - 1, by omega, rfl⟩
  have front_low : ∀ x ∈ rowids.take last, x ≤ final := by
    have nonempty : rowids.take last ≠ [] := List.ne_nil_of_mem final_in
    have ends : (rowids.take last).getLast nonempty = final := by
      rw [List.getLast_eq_getElem, List.getElem_take, ← block, List.getD_eq_getElem _ _ (by omega)]
      congr 1
      rw [List.length_take]
      omega
    intro x present
    rw [← ends]
    exact ascending_le_getLast front_ascending nonempty x present
  let shares : Nat → Bool := fun r => decide (r / standardVectorSize = final / standardVectorSize)
  have whole : (rowids.drop last).takeWhile shares ++ (rowids.drop last).dropWhile shares = rowids.drop last :=
    List.takeWhile_append_dropWhile
  have taken : rowids.take (blockEnd rowids last) =
      rowids.take last ++ (rowids.drop last).takeWhile shares := by
    have run := @List.take_left _ ((rowids.drop last).takeWhile shares) ((rowids.drop last).dropWhile shares)
    rw [whole] at run
    rw [blockEnd, block, List.take_add, run]
  have dropped : rowids.drop (blockEnd rowids last) = (rowids.drop last).dropWhile shares := by
    have run := @List.drop_left _ ((rowids.drop last).takeWhile shares) ((rowids.drop last).dropWhile shares)
    rw [whole] at run
    rw [blockEnd, block, ← List.drop_drop, run]
  have low : ∀ x ∈ rowids.take (blockEnd rowids last), x / standardVectorSize ≤ final / standardVectorSize := by
    intro x present
    rw [taken] at present
    rcases List.mem_append.mp present with before | same
    · exact Nat.div_le_div_right (front_low x before)
    · have shared : shares x = true := List.mem_takeWhile_imp same
      exact Nat.le_of_eq (of_decide_eq_true shared)
  intro x taken_x y left_y
  refine Nat.lt_of_le_of_lt (low x taken_x) ?_
  rw [dropped] at left_y
  cases rest : (rowids.drop last).dropWhile shares with
  | nil => simp [rest] at left_y
  | cons head tail =>
    rw [rest] at left_y
    have suffix : head :: tail <:+ rowids.drop last := rest ▸ List.dropWhile_suffix shares
    have head_past := across final final_in head (suffix.subset List.mem_cons_self)
    have head_apart : ¬ shares head = true := by
      have stops := List.head?_dropWhile_not shares (rowids.drop last)
      rw [rest] at stops
      simpa using stops
    have y_past := ascending_head_le (back_ascending.sublist suffix.sublist) y left_y
    have head_le : final / standardVectorSize ≤ head / standardVectorSize := Nat.div_le_div_right (by omega)
    have y_le : head / standardVectorSize ≤ y / standardVectorSize := Nat.div_le_div_right y_past
    have differs : head / standardVectorSize ≠ final / standardVectorSize := by simpa [shares] using head_apart
    omega

theorem cutBatch_apart {front : PublishedCandidates} (ascending : Ascending front.rowids)
    (unread : front.nextOffset < front.rowids.length) :
    ∀ x ∈ front.rowids.take (cutBatch front).candidateEnd,
      ∀ y ∈ front.rowids.drop (cutBatch front).candidateEnd,
        x / standardVectorSize < y / standardVectorSize := by
  unfold cutBatch
  simp only
  split
  · apply blockEnd_apart ascending
    · simp only [rangeBatchRows, standardVectorSize]
      omega
    · omega
  · apply blockEnd_apart ascending
    · simp only [fetchBatchRows]
      omega
    · omega

/-- The blocks of a batch lie below those of any later batch of the segment. -/
theorem batchesFrom_blocks (front : PublishedCandidates) (ascending : Ascending front.rowids) :
    (batchesFrom front).Pairwise fun a b => ∀ x ∈ a.rowids front.rowids, ∀ y ∈ b.rowids front.rowids,
      x / standardVectorSize < y / standardVectorSize := by
  induction front using batchesFrom.induct with
  | case1 front unread ih =>
    rw [batchesFrom_next unread]
    apply List.Pairwise.cons _ (ih ascending)
    intro batch behind x in_head y in_batch
    have place := consecutive_bounds (batchesFrom_consecutive
      { front with nextOffset := (cutBatch front).candidateEnd } (cutBatch_bounds unread).2) batch behind
    apply cutBatch_apart ascending unread x (List.mem_of_mem_drop in_head) y
    have later : front.rowids.drop batch.candidateOffset <:+ front.rowids.drop (cutBatch front).candidateEnd :=
      List.drop_suffix_drop_left _ place.2.1
    apply later.subset
    rw [Batch.rowids, List.drop_take] at in_batch
    exact List.mem_of_mem_take in_batch
  | case2 front read =>
    rw [batchesFrom_done (Nat.not_lt.mp read)]
    exact List.Pairwise.nil

end Slices

section Segments
variable {plan : Plan}

/-- Candidate lists as the segments of an admitted plan decode to them: each
    ascends within the rowids of its own segment, and the segments ascend. -/
structure Segmented (plan : Plan) : Prop where
  ascending : ∀ candidates ∈ plan.segments, Ascending candidates
  inside : ∀ candidates ∈ plan.segments, ∀ x ∈ candidates, ∀ y ∈ candidates,
    x / segmentRows = y / segmentRows
  apart : plan.segments.Pairwise fun a b => ∀ x ∈ a, ∀ y ∈ b, x / segmentRows < y / segmentRows

theorem candidates_mem {ordinal : Nat} (known : ordinal < plan.segments.length) :
    plan.candidates ordinal ∈ plan.segments := by
  rw [Plan.candidates, List.getD_eq_getElem _ _ known]
  exact List.getElem_mem known

theorem candidates_ascending (segmented : Segmented plan) (ordinal : Nat) :
    Ascending (plan.candidates ordinal) := by
  by_cases known : ordinal < plan.segments.length
  · exact segmented.ascending _ (candidates_mem known)
  · rw [Plan.candidates, List.getD_eq_default _ _ (Nat.le_of_not_lt known)]
    exact List.Pairwise.nil

theorem segmented_ascending (segmented : Segmented plan) : Ascending plan.segments.flatten := by
  apply List.pairwise_flatten.mpr
  refine ⟨segmented.ascending, segmented.apart.imp ?_⟩
  intro a b apart x in_a y in_b
  have below := apart x in_a y in_b
  exact Nat.lt_of_div_lt_div below

theorem candidates_apart (segmented : Segmented plan) {a b x y : Nat} (before : a < b)
    (in_a : x ∈ plan.candidates a) (in_b : y ∈ plan.candidates b) : x / segmentRows < y / segmentRows := by
  have known : b < plan.segments.length := by
    by_contra past
    rw [Plan.candidates, List.getD_eq_default _ _ (Nat.le_of_not_lt past)] at in_b
    cases in_b
  have earlier : a < plan.segments.length := Nat.lt_trans before known
  rw [Plan.candidates, List.getD_eq_getElem _ _ earlier] at in_a
  rw [Plan.candidates, List.getD_eq_getElem _ _ known] at in_b
  exact List.pairwise_iff_getElem.mp segmented.apart a b earlier known before x in_a y in_b

theorem candidates_length (segmented : Segmented plan) (ordinal : Nat) :
    (plan.candidates ordinal).length ≤ segmentRows := by
  by_cases known : ordinal < plan.segments.length
  · have listed := candidates_mem known
    have ascending := segmented.ascending _ listed
    have inside := segmented.inside _ listed
    cases head : plan.candidates ordinal with
    | nil => exact Nat.zero_le _
    | cons first rest =>
      rw [head] at ascending inside
      apply @window_length _ (first / segmentRows * segmentRows) segmentRows (ascending_nodup ascending)
      intro x present
      have same := inside x present first List.mem_cons_self
      have positive : 0 < segmentRows := by decide
      rw [Nat.div_eq_iff positive] at same
      omega
  · rw [Plan.candidates, List.getD_eq_default _ _ (Nat.le_of_not_lt known)]
    exact Nat.zero_le _

theorem segment_consecutive (plan : Plan) (ordinal : Nat) :
    Consecutive ordinal (plan.candidates ordinal).length 0 (plan.segmentBatches ordinal) :=
  batchesFrom_consecutive ⟨ordinal, plan.candidates ordinal, 0⟩ (Nat.zero_le _)

theorem segment_ordinal {ordinal : Nat} {batch : Batch} (present : batch ∈ plan.segmentBatches ordinal) :
    batch.segmentOrdinal = ordinal := (consecutive_bounds (segment_consecutive plan ordinal) batch present).1

theorem mem_batches {ordinals : List Nat} {batch : Batch} (cut : batch ∈ plan.batches ordinals) :
    batch.segmentOrdinal ∈ ordinals ∧ batch ∈ plan.segmentBatches batch.segmentOrdinal ∧
      batch.candidateOffset < batch.candidateEnd ∧
      batch.candidateEnd ≤ (plan.candidates batch.segmentOrdinal).length := by
  obtain ⟨ordinal, listed, present⟩ := List.mem_flatMap.mp cut
  obtain ⟨same, _, order, inside⟩ := consecutive_bounds (segment_consecutive plan ordinal) batch present
  subst same
  exact ⟨listed, present, order, inside⟩

def Batch.slice (plan : Plan) (batch : Batch) : List Nat := batch.rowids (plan.candidates batch.segmentOrdinal)

theorem slice_subset (batch : Batch) {x : Nat} (present : x ∈ batch.slice plan) :
    x ∈ plan.candidates batch.segmentOrdinal := List.mem_of_mem_take (List.mem_of_mem_drop present)

theorem slice_nonempty {ordinals : List Nat} {batch : Batch} (cut : batch ∈ plan.batches ordinals) :
    batch.slice plan ≠ [] := by
  obtain ⟨_, _, order, inside⟩ := mem_batches cut
  apply List.ne_nil_of_length_pos
  rw [Batch.slice, Batch.rowids, List.length_drop, List.length_take]
  omega

theorem segment_slices (plan : Plan) (ordinal : Nat) :
    (plan.segmentBatches ordinal).flatMap (Batch.slice plan) = plan.candidates ordinal := by
  have slices := consecutive_rowids (segment_consecutive plan ordinal)
  rw [List.drop_zero] at slices
  conv_rhs => rw [← slices]
  apply List.flatMap_congr
  intro batch present
  rw [Batch.slice, segment_ordinal present]

theorem plan_slices (plan : Plan) :
    (plan.batches (List.range plan.segments.length)).flatMap (Batch.slice plan) = plan.segments.flatten := by
  rw [Plan.batches, List.flatMap_assoc]
  simp only [segment_slices]
  rw [List.flatMap_def]
  congr 1
  apply List.ext_getElem
  · simp
  · intro i left right
    simp [Plan.candidates, List.getElem?_eq_getElem right]

theorem batches_pairwise {rel : Batch → Batch → Prop} (count : Nat)
    (within : ∀ ordinal, (plan.segmentBatches ordinal).Pairwise rel)
    (across : ∀ a b, a < b → ∀ x ∈ plan.segmentBatches a, ∀ y ∈ plan.segmentBatches b, rel x y) :
    (plan.batches (List.range count)).Pairwise rel :=
  List.pairwise_flatMap.mpr ⟨fun ordinal _ => within ordinal,
    List.pairwise_lt_range.imp fun {a b} before => across a b before⟩

theorem batches_blocks (segmented : Segmented plan) (count : Nat) :
    (plan.batches (List.range count)).Pairwise fun a b => ∀ x ∈ a.slice plan, ∀ y ∈ b.slice plan,
      x / standardVectorSize < y / standardVectorSize := by
  apply batches_pairwise
  · intro ordinal
    refine (batchesFrom_blocks ⟨ordinal, plan.candidates ordinal, 0⟩
      (candidates_ascending segmented ordinal)).imp_of_mem ?_
    intro a b in_a in_b apart
    rw [Batch.slice, Batch.slice, segment_ordinal in_a, segment_ordinal in_b]
    exact apart
  · intro a b before first in_a second in_b x in_first y in_second
    have from_a := slice_subset first in_first
    have from_b := slice_subset second in_second
    rw [segment_ordinal in_a] at from_a
    rw [segment_ordinal in_b] at from_b
    have segments := candidates_apart segmented before from_a from_b
    -- a segment is a whole number of blocks
    have nested : ∀ r : Nat, r / segmentRows = r / standardVectorSize / 512 := by
      intro r
      rw [Nat.div_div_eq_div_mul]
      rfl
    rw [nested, nested] at segments
    exact Nat.lt_of_div_lt_div segments

end Segments

section Decoding
open NgramProbe NgramPostings Fallible
variable {Key : Type} [DecidableEq Key] {plan : ProbePlan Key} {fetch : Nat → Option (SegmentRow Key)}
  {segment : ProbeSegment}

/-- A posting list that decodes ascends within its segment and below the mark. -/
structure Located (plan : ProbePlan Key) (segment : ProbeSegment) (rowids : List Nat) : Prop where
  ascending : Ascending rowids
  inside : ∀ r ∈ rowids, r / segmentRows = segment.segmentNo
  below : ∀ r ∈ rowids, (r : Int) ≤ plan.hwm

theorem appendPostings_one {segmentNo gramIndex expected : Nat} {postings : List Nat}
    {entry : ProbeDescriptor × SegmentRow Key}
    (run : appendPostings plan segmentNo gramIndex expected [] entry = .ok postings) : Ascending postings := by
  obtain ⟨count, _, run⟩ := bind_ok run
  obtain ⟨_, run⟩ := check_ok run
  obtain ⟨decoded, read, run⟩ := bind_ok run
  obtain ⟨_, run⟩ := check_ok run
  rw [← ok_inj run, List.nil_append]
  exact decodePostings_ascending read

theorem decodeDescriptorRange_located {gramIndex : Nat} {rowids : List Nat}
    (run : decodeDescriptorRange plan fetch segment gramIndex = .ok rowids) : Located plan segment rowids := by
  unfold decodeDescriptorRange at run
  generalize ((segment.descriptors.dropWhile fun d => decide (d.gramIndex ≠ gramIndex)).takeWhile
    fun d => decide (d.gramIndex = gramIndex)) = range at run
  obtain ⟨expected, _, run⟩ := bind_ok run
  obtain ⟨nonempty, run⟩ := check_ok run
  obtain ⟨postings, read, run⟩ := bind_ok run
  obtain ⟨_, run⟩ := check_ok run
  obtain ⟨distinct, run⟩ := check_ok run
  obtain ⟨within, run⟩ := check_ok run
  have same := ok_inj run
  rw [same] at within distinct
  have places : ∀ r ∈ rowids, ¬ (r < segment.segmentNo * segmentRows ∨
      segment.segmentNo * segmentRows + segmentRows ≤ r ∨ plan.hwm < (r : Int)) :=
    fun r listed outside => within ⟨r, listed, outside⟩
  constructor
  case ascending =>
    by_cases several : 1 < range.length
    · have steps : rowids.IsChain (· ≠ ·) := by
        by_contra repeated
        exact distinct ⟨several, repeated⟩
      have sorted : rowids.Pairwise (· ≤ ·) := by
        rw [← same, if_pos several]
        exact List.pairwise_insertionSort _ _
      exact List.isChain_iff_pairwise.mp (strict_of_steps sorted.isChain steps)
    · -- one descriptor's blob is not sorted again
      rw [if_neg several] at same
      obtain ⟨d, rfl⟩ : ∃ d, range = [d] := by
        apply List.length_eq_one_iff.mp
        have positive := List.length_pos_of_ne_nil nonempty
        omega
      have whole : vectorBatches [d] = [[d]] := by simp [vectorBatches]
      rw [whole] at read
      obtain ⟨filled, step, read⟩ := foldlM_cons_ok read
      obtain rfl := ok_inj read
      obtain ⟨rows, fetched, step⟩ := bind_ok step
      obtain ⟨entry, rfl⟩ : ∃ entry, rows = [entry] := by
        have lengths := (mapM_ok fetched).length_eq
        exact List.length_eq_one_iff.mp (by simpa using lengths.symm)
      obtain ⟨appended, one, step⟩ := foldlM_cons_ok step
      obtain rfl := ok_inj step
      rw [← same]
      exact appendPostings_one one
  case inside =>
    intro r listed
    have place := places r listed
    have positive : 0 < segmentRows := by decide
    rw [Nat.div_eq_iff positive]
    omega
  case below =>
    intro r listed
    have place := places r listed
    omega

theorem intersectGrams_sublist {order : List Nat} {b : DecodeBuffers} {trace : List DecodeBuffers}
    (run : intersectGrams plan fetch segment order b = .ok trace) :
    ∃ final, trace.getLast? = some final ∧ final.candidates.rows.Sublist b.candidates.rows := by
  induction order generalizing b trace with
  | nil =>
    obtain rfl := ok_inj run
    exact ⟨b, rfl, List.Sublist.refl _⟩
  | cons gramIndex rest ih =>
    unfold intersectGrams at run
    obtain ⟨_, run⟩ | ⟨_, run⟩ := branch_ok run
    · obtain rfl := ok_inj run
      exact ⟨b, rfl, List.Sublist.refl _⟩
    · obtain ⟨postings, _, run⟩ := bind_ok run
      obtain ⟨later, stepped, run⟩ := bind_ok run
      obtain ⟨final, ends, sub⟩ := ih stepped
      rw [← ok_inj run]
      refine ⟨final, ?_, sub.trans (intersect_sublist _ _)⟩
      rw [List.getLast?_cons, List.getLast?_cons, List.getLast?_cons, ends]
      rfl

theorem decodeCandidateSegment_located {rowids : List Nat}
    (run : decodeCandidateSegment plan fetch segment = .ok rowids) : Located plan segment rowids := by
  obtain ⟨trace, traced, run⟩ := bind_ok run
  unfold decodeTrace at traced
  split at traced
  · cases traced
  · obtain ⟨postings, read, traced⟩ := bind_ok traced
    obtain ⟨final, ends, sub⟩ := intersectGrams_sublist traced
    have located := decodeDescriptorRange_located read
    rw [← ok_inj run, ends]
    exact ⟨located.ascending.sublist sub, fun r listed => located.inside r (sub.subset listed),
      fun r listed => located.below r (sub.subset listed)⟩

theorem planned_segmented {settings : ProbeSettings} {chunks : Key → List (List (SegmentRow Key))}
    {keys : List Key} {maxGrams : Nat} {hwm : Int} {lists : List (List Nat)}
    (planned : planIndexProbe settings chunks keys maxGrams hwm = .ok plan) (admitted : plan.admitted = true)
    (decoded : plan.segments.mapM (decodeCandidateSegment plan fetch) = .ok lists) :
    Segmented ⟨lists, plan.maxThreads⟩ ∧ ∀ r ∈ lists.flatten, (r : Int) ≤ hwm := by
  obtain ⟨same_hwm, _, _, _, segments⟩ := planIndexProbe_spec planned admitted
  have each : ∀ candidates ∈ lists, ∃ segment, Located plan segment candidates := by
    intro candidates listed
    obtain ⟨segment, _, run⟩ := mapM_ok_right decoded candidates listed
    exact ⟨segment, decodeCandidateSegment_located run⟩
  refine ⟨⟨?_, ?_, ?_⟩, ?_⟩
  · intro candidates listed
    obtain ⟨segment, located⟩ := each candidates listed
    exact located.ascending
  · intro candidates listed x in_x y in_y
    obtain ⟨segment, located⟩ := each candidates listed
    rw [located.inside x in_x, located.inside y in_y]
  · have numbers := segments_ascending chunks plan.keys
    rw [← segments] at numbers
    refine mapM_pairwise ?_ decoded numbers
    intro a first b second before run_a run_b x in_first y in_second
    rw [(decodeCandidateSegment_located run_a).inside x in_first,
      (decodeCandidateSegment_located run_b).inside y in_second]
    exact before
  · intro r listed
    obtain ⟨candidates, present, inside⟩ := List.mem_flatten.mp listed
    obtain ⟨segment, located⟩ := each candidates present
    rw [← same_hwm]
    exact located.below r inside

end Decoding

end NgramCandidateQueue
