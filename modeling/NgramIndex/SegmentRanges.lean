import Mathlib.Tactic.Linarith
import NgramIndex.SegmentRows
import NgramIndex.WordPlanner

/- The segment-aligned ranges of a rowid interval tile it. The loop over 64-bit words
   ends within one pass per segment and meets no overflow, so it returns the list that
   the packing passes read. -/
namespace NgramSegmentRanges
open NgramPostings NgramProbe NgramProbeArithmetic NgramMaintenance NgramSegmentRows MachineWord

def rangeStart64 (lo firstSegment segment : Int) : Word Int :=
  if segment = firstSegment then .ok lo else signed64 (segment * segmentRows)

def rangeEnd64 (openEnd lastSegment endSegment : Int) : Word Int :=
  if endSegment ≥ lastSegment then .ok openEnd
  else do
    let next ← signed64 (endSegment + 1)
    let bound ← signed64 (next * segmentRows)
    signed64 (bound - 1)

/-- The loop over words. It returns none when it is cut off before its end. -/
def rangesFrom64 (lo openEnd firstSegment lastSegment perPartition : Int) :
    Nat → Int → Word (Option (List (Int × Int)))
  | 0, _ => .ok none
  | fuel + 1, segment =>
      if segment > lastSegment then .ok (some [])
      else do
        let start ← rangeStart64 lo firstSegment segment
        let after ← signed64 (segment + perPartition)
        let endSegment ← signed64 (after - 1)
        let last ← rangeEnd64 openEnd lastSegment endSegment
        let next ← signed64 (segment + perPartition)
        let rest ← rangesFrom64 lo openEnd firstSegment lastSegment perPartition fuel next
        return rest.map fun rest => (start, last) :: rest

def quotient64 (left right : Int) : Word Int :=
  if right = 0 then .error .wrapped else signed64 (left.tdiv right)

def openEnd64 (hi : Int) (openEnded : Bool) : Word Int :=
  if openEnded then signed64 ((maxRowId : Int) - 1) else .ok hi

def segmentAlignedRanges64 (fuel : Nat) (lo hi : Int) (partitions : Nat) (openEnded : Bool) :
    Word (Option (List (Int × Int))) := do
  let openEnd ← openEnd64 hi openEnded
  if hi < lo ∨ partitions ≤ 1 then .ok (some [(lo, openEnd)])
  else do
    let firstSegment := lo / segmentRows
    let lastSegment := hi / segmentRows
    let span ← signed64 (lastSegment - firstSegment)
    let segments ← signed64 (span + 1)
    let divisor ← signed64 partitions
    let share ← quotient64 segments divisor
    rangesFrom64 lo openEnd firstSegment lastSegment (max share 1) fuel firstSegment

section Words

theorem signed64_ok {value : Int} (low : -2 ^ 63 ≤ value) (high : value < 2 ^ 63) : signed64 value = .ok value := by
  have top : ((int64Max : Nat) : Int) = 2 ^ 63 - 1 := by decide
  rw [signed64, signedWord, if_pos ⟨by omega, by omega⟩]

/-- The loop meets no fault and does what the one over the integers does. -/
theorem rangesFrom64_ok {lo openEnd firstSegment lastSegment perPartition : Int} (few : lastSegment < 2 ^ 40)
    (step : 1 ≤ perPartition ∧ perPartition < 2 ^ 40) (fuel plain : Nat) (segment : Int) (low : 0 ≤ segment)
    (high : segment < 2 ^ 41) (some_fuel : 0 < fuel) (enough : lastSegment + 1 < segment + fuel)
    (reach : lastSegment < segment + plain) :
    rangesFrom64 lo openEnd firstSegment lastSegment perPartition fuel segment =
      .ok (some (rangesFrom lo openEnd firstSegment lastSegment perPartition plain segment)) := by
  induction fuel generalizing plain segment with
  | zero => omega
  | succ fuel ih =>
    rw [rangesFrom64]
    by_cases beyond : segment > lastSegment
    · rw [if_pos beyond]
      cases plain with
      | zero => rfl
      | succ plain => rw [rangesFrom, if_pos beyond]
    cases plain with
    | zero => omega
    | succ plain =>
      have rest := ih plain (segment + perPartition) (by omega) (by omega) (by omega) (by omega) (by omega)
      have start : rangeStart64 lo firstSegment segment =
          .ok (if segment = firstSegment then lo else segment * segmentRows) := by
        rw [rangeStart64, signed64_ok (by rw [segmentRows_eq]; omega) (by rw [segmentRows_eq]; omega)]
        split <;> rfl
      have last : rangeEnd64 openEnd lastSegment (segment + perPartition - 1) =
          .ok (if lastSegment ≤ segment + perPartition - 1 then openEnd
            else (segment + perPartition - 1 + 1) * segmentRows - 1) := by
        unfold rangeEnd64
        split
        · rfl
        · rw [signed64_ok (by omega) (by omega), Fallible.bind_of_ok rfl, segmentRows_eq,
            signed64_ok (by omega) (by omega), Fallible.bind_of_ok rfl, signed64_ok (by omega) (by omega)]
      rw [if_neg beyond, start, Fallible.bind_of_ok rfl, signed64_ok (by omega) (by omega), Fallible.bind_of_ok rfl,
        signed64_ok (by omega) (by omega), Fallible.bind_of_ok rfl, last, Fallible.bind_of_ok rfl,
        Fallible.bind_of_ok rfl, rest, rangesFrom, if_neg beyond]
      rfl

theorem segmentAlignedRanges64_ok {lo hi : Int} {partitions : Nat} (low : 0 ≤ lo) (order : lo ≤ hi)
    (space : hi < maxRowId) (fits : partitions ≤ int64Max) (openEnded : Bool) {fuel : Nat}
    (enough : hi / segmentRows - lo / segmentRows + 1 < fuel) :
    segmentAlignedRanges64 fuel lo hi partitions openEnded =
      .ok (some (segmentAlignedRanges lo hi partitions openEnded)) := by
  have openEnd : openEnd64 hi openEnded = .ok (if openEnded then (maxRowId : Int) - 1 else hi) := by
    cases openEnded with
    | false => rfl
    | true => rfl
  unfold segmentAlignedRanges64 segmentAlignedRanges
  rw [openEnd, Fallible.bind_of_ok rfl]
  simp only [segmentRows_eq, maxRowId, int64Max] at *
  by_cases one : hi < lo ∨ partitions ≤ 1
  · rw [if_pos one, if_pos one]
  rw [if_neg one, if_neg one, signed64_ok (by omega) (by omega), Fallible.bind_of_ok rfl,
    signed64_ok (by omega) (by omega), Fallible.bind_of_ok rfl, signed64_ok (by omega) (by omega),
    Fallible.bind_of_ok rfl]
  have share : quotient64 (hi / 1048576 - lo / 1048576 + 1) partitions =
      .ok ((hi / 1048576 - lo / 1048576 + 1) / (partitions : Int)) := by
    rw [quotient64, if_neg (by omega), Int.tdiv_eq_ediv_of_nonneg (by omega)]
    have smaller := Int.ediv_le_self (a := hi / 1048576 - lo / 1048576 + 1) partitions (by omega)
    have positive := Int.ediv_nonneg (a := hi / 1048576 - lo / 1048576 + 1) (b := partitions) (by omega) (by omega)
    exact signed64_ok (by omega) (by omega)
  have smaller := Int.ediv_le_self (a := hi / 1048576 - lo / 1048576 + 1) partitions (by omega)
  rw [share, Fallible.bind_of_ok rfl]
  exact rangesFrom64_ok (by omega) (by omega) _ _ _ (by omega) (by omega) (by omega) (by omega) (by omega)

end Words

section Tilings

/-- The second range starts one past the end of the first, at the start of a segment. -/
def Consecutive (a b : Int × Int) : Prop := b.1 = a.2 + 1 ∧ (segmentRows : Int) ∣ b.1

structure Tiles (low high : Int) (ranges : List (Int × Int)) : Prop where
  starts : ranges.head?.map Prod.fst = some low
  ends : ranges.getLast?.map Prod.snd = some high
  filled : ∀ range ∈ ranges, range.1 ≤ range.2
  consecutive : ranges.IsChain Consecutive

theorem tiles_single {low high : Int} (order : low ≤ high) : Tiles low high [(low, high)] where
  starts := rfl
  ends := rfl
  filled := List.forall_mem_singleton.mpr order
  consecutive := List.IsChain.singleton _

theorem tiles_cons {low high next : Int} {ranges : List (Int × Int)} (order : low < next)
    (aligned : (segmentRows : Int) ∣ next) (rest : Tiles next high ranges) :
    Tiles low high ((low, next - 1) :: ranges) := by
  cases ranges with
  | nil => cases rest.starts
  | cons range ranges =>
    have begins : range.1 = next := Option.some.inj rest.starts
    constructor
    · rfl
    · rw [List.getLast?_cons_cons]
      exact rest.ends
    · exact List.forall_mem_cons.mpr ⟨Int.le_sub_one_of_lt order, rest.filled⟩
    · refine List.isChain_cons_cons.mpr ⟨⟨?_, begins.symm ▸ aligned⟩, rest.consecutive⟩
      simp only [begins]
      omega

variable {lo openEnd firstSegment lastSegment perPartition : Int}

theorem rangesFrom_over (fuel : Nat) {segment : Int} (beyond : lastSegment < segment) :
    rangesFrom lo openEnd firstSegment lastSegment perPartition fuel segment = [] := by
  cases fuel with
  | zero => rfl
  | succ fuel => rw [rangesFrom, if_pos beyond]

theorem rangesFrom_tiles (step : 1 ≤ perPartition) (low : firstSegment = lo / segmentRows) (order : lo ≤ openEnd)
    (reach : lastSegment * segmentRows ≤ openEnd) (fuel : Nat) (segment : Int) (later : firstSegment ≤ segment)
    (inside : segment ≤ lastSegment) (enough : lastSegment < segment + fuel) :
    Tiles (if segment = firstSegment then lo else segment * segmentRows) openEnd
      (rangesFrom lo openEnd firstSegment lastSegment perPartition fuel segment) := by
  induction fuel generalizing segment with
  | zero => omega
  | succ fuel ih =>
    rw [rangesFrom, if_neg (show ¬ lastSegment < segment by omega)]
    by_cases final : lastSegment ≤ segment + perPartition - 1
    · simp only [if_pos final, rangesFrom_over fuel (show lastSegment < segment + perPartition by omega)]
      apply tiles_single
      rw [segmentRows_eq] at reach ⊢
      split <;> omega
    · have rest := ih (segment + perPartition) (by omega) (by omega) (by omega)
      rw [if_neg (by omega)] at rest
      simp only [if_neg final, show segment + perPartition - 1 + 1 = segment + perPartition by omega]
      apply tiles_cons _ (Int.dvd_mul_left _ _) rest
      rw [segmentRows_eq] at low ⊢
      split <;> omega

/-- As many ranges as it takes to pass over the segments in steps of the loop. -/
theorem rangesFrom_count (step : 1 ≤ perPartition) (fuel : Nat) (segment : Int) (inside : segment ≤ lastSegment)
    (enough : lastSegment < segment + fuel) :
    lastSegment - segment + 1 ≤
        (rangesFrom lo openEnd firstSegment lastSegment perPartition fuel segment).length * perPartition ∧
      (rangesFrom lo openEnd firstSegment lastSegment perPartition fuel segment).length * perPartition <
        lastSegment - segment + 1 + perPartition := by
  induction fuel generalizing segment with
  | zero => omega
  | succ fuel ih =>
    rw [rangesFrom, if_neg (by omega), List.length_cons]
    by_cases final : lastSegment < segment + perPartition
    · rw [rangesFrom_over fuel final]
      simp only [List.length_nil]
      omega
    · have rest := ih (segment + perPartition) (by omega) (by omega)
      rw [Int.natCast_succ, Int.add_mul, Int.one_mul]
      omega

/-- A share rounded down gives at most twice the parts asked for, and no fewer than asked
    for or than there are segments. -/
theorem share_count {segments parts count : Int} (some_segment : 1 ≤ segments) (some_part : 1 ≤ parts)
    (above : segments ≤ count * max (segments / parts) 1)
    (below : count * max (segments / parts) 1 < segments + max (segments / parts) 1) :
    min parts segments ≤ count ∧ count ≤ 2 * parts - 1 := by
  rcases lt_or_ge segments parts with few | many
  · rw [Int.ediv_eq_zero_of_lt (by omega) few, max_eq_right (by decide : (0 : Int) ≤ 1)] at above below
    rw [min_eq_right few.le]
    omega
  · -- segments = parts * share + remainder, and the remainder is below parts
    have share : 1 ≤ segments / parts := (Int.le_ediv_iff_mul_le (by omega)).mpr (by omega)
    have split := Int.mul_ediv_add_emod segments parts
    have remainder := Int.emod_lt_of_pos segments (show 0 < parts by omega)
    have positive := Int.emod_nonneg segments (show parts ≠ 0 by omega)
    rw [max_eq_left share] at above below
    constructor
    · have enough : parts * (segments / parts) ≤ count * (segments / parts) := by omega
      exact (min_le_left _ _).trans (Int.le_of_mul_le_mul_right enough (by omega))
    · by_contra more
      have twice : 2 * parts * (segments / parts) ≤ count * (segments / parts) :=
        Int.mul_le_mul_of_nonneg_right (by omega) (by omega)
      have product : 0 ≤ (parts - 1) * (segments / parts - 1) := Int.mul_nonneg (by omega) (by omega)
      nlinarith only [twice, product, split, remainder, below]

theorem segmentAlignedRanges_tiles {lo hi : Int} {partitions : Nat} {openEnded : Bool} (order : lo ≤ hi)
    (space : hi < maxRowId) :
    Tiles lo (if openEnded then (maxRowId : Int) - 1 else hi) (segmentAlignedRanges lo hi partitions openEnded) := by
  have reach : hi ≤ if openEnded then (maxRowId : Int) - 1 else hi := by split <;> omega
  simp only [segmentAlignedRanges]
  generalize (if openEnded then (maxRowId : Int) - 1 else hi) = openEnd at reach ⊢
  split
  · exact tiles_single (by omega)
  · have ordered : lo / (segmentRows : Int) ≤ hi / segmentRows := by
      rw [segmentRows_eq]
      omega
    have tiles := @rangesFrom_tiles lo openEnd (lo / segmentRows) (hi / segmentRows)
      (max ((hi / segmentRows - lo / segmentRows + 1) / partitions) 1) (by omega) rfl (by omega)
      (by rw [segmentRows_eq] at *; omega) (hi / segmentRows - lo / segmentRows + 1).toNat (lo / segmentRows)
      (Int.le_refl _) ordered (by omega)
    rwa [if_pos rfl] at tiles

theorem segmentAlignedRanges_count {lo hi : Int} {partitions : Nat} {openEnded : Bool} (order : lo ≤ hi)
    (some_part : 1 ≤ partitions) :
    min (partitions : Int) (hi / segmentRows - lo / segmentRows + 1) ≤
        (segmentAlignedRanges lo hi partitions openEnded).length ∧
      (segmentAlignedRanges lo hi partitions openEnded).length ≤ 2 * partitions - 1 := by
  have ordered : lo / (segmentRows : Int) ≤ hi / segmentRows := by
    rw [segmentRows_eq]
    omega
  simp only [segmentAlignedRanges]
  split
  · simp only [List.length_singleton]
    omega
  · have count := @rangesFrom_count lo (if openEnded then (maxRowId : Int) - 1 else hi) (lo / segmentRows)
      (hi / segmentRows) (max ((hi / segmentRows - lo / segmentRows + 1) / partitions) 1) (by omega)
      (hi / segmentRows - lo / segmentRows + 1).toNat (lo / segmentRows) ordered (by omega)
    obtain ⟨low, high⟩ := share_count (by omega) (by omega) count.1 count.2
    exact ⟨low, by omega⟩

end Tilings

/-- The ranges of an interval tile it end to end along segment boundaries, about as many of
    them as asked for, and the loop over words returns them. -/
theorem segment_aligned_ranges (lo hi : Int) (partitions : Nat) (openEnded : Bool) (low : 0 ≤ lo) (order : lo ≤ hi)
    (space : hi < maxRowId) (some_part : 1 ≤ partitions) (fits : partitions ≤ int64Max) :
    (∀ fuel : Nat, hi / segmentRows - lo / segmentRows + 1 < fuel →
      segmentAlignedRanges64 fuel lo hi partitions openEnded =
        .ok (some (segmentAlignedRanges lo hi partitions openEnded))) ∧
    Tiles lo (if openEnded then (maxRowId : Int) - 1 else hi) (segmentAlignedRanges lo hi partitions openEnded) ∧
    (segmentAlignedRanges lo hi partitions openEnded).Pairwise (fun a b => a.1 < b.1 ∧ Apart a b) ∧
    min (partitions : Int) (hi / segmentRows - lo / segmentRows + 1) ≤
      (segmentAlignedRanges lo hi partitions openEnded).length ∧
    (segmentAlignedRanges lo hi partitions openEnded).length ≤ 2 * partitions - 1 := by
  have tiles := @segmentAlignedRanges_tiles lo hi partitions openEnded order space
  obtain ⟨enough, few⟩ := @segmentAlignedRanges_count lo hi partitions openEnded order some_part
  refine ⟨fun fuel allowed => segmentAlignedRanges64_ok low order space fits openEnded allowed, tiles, ?_, enough, few⟩
  refine (segmentAlignedRanges_apart lo hi partitions openEnded).imp_of_mem fun {a b} listed _ apart => ⟨?_, apart⟩
  have filled := tiles.filled a listed
  unfold Apart at apart
  rw [segmentRows_eq] at apart
  omega

/-- Five segments in three parts, from inside the first one: the last range takes up the rest. -/
theorem five_segments_tiled :
    Tiles 7 5242879 (segmentAlignedRanges 7 5242879 3 false) ∧ segmentAlignedRanges64 6 7 5242879 3 false =
      .ok (some [(7, 1048575), (1048576, 2097151), (2097152, 3145727), (3145728, 4194303), (4194304, 5242879)]) := by
  obtain ⟨returns, tiles, _⟩ := segment_aligned_ranges 7 5242879 3 false (by decide) (by decide) (by decide)
    (by decide) (by decide)
  exact ⟨tiles, (returns 6 (by decide)).trans (by decide +kernel)⟩

end NgramSegmentRanges
