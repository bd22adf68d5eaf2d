import Mathlib.Data.List.GetD
import Mathlib.Data.List.Sort
import Mathlib.Data.Prod.Lex
import NgramIndex.SegmentRows
import NgramIndex.SortedBuckets

/- The statements that sort a build's packed rows into the segments table. With several
   key ranges the table is scanned once per range, under predicates made from sampled
   bounds that were filtered by how many rows they part. -/
namespace NgramSortRanges
open NgramProbe NgramSegmentRows SortedBuckets
variable {Key : Type} [LinearOrder Key]

def minSortRangeRowGroups : UInt64 := 3

/-- What quantile_disc can return for the bounds of this many ranges, unless its sample is empty. -/
structure Quantiles (Key : Type) [LinearOrder Key] (keyRanges : Nat) where
  keys : List Key
  count : keys.length = keyRanges - 1
  ordered : keys.Pairwise (· ≤ ·)

structure InsertedRow (Key : Type) where
  content : SegmentContent Key
  generation : Int
  deriving DecidableEq, Repr

section Values
variable {α : Type}

/-- The element of a list at an index from one on, or NULL. -/
def listExtract : Option (List (Option α)) → Nat → Option α
  | none, _ => none
  | some _, 0 => none
  | some values, i + 1 => (values[i]?).join

def isNotTrue (truth : Option Bool) : Option Bool := some (decide (truth ≠ some true))

/-- AND over truth values with NULL. -/
def both : Option Bool → Option Bool → Option Bool
  | some false, _ => some false
  | _, some false => some false
  | some true, some true => some true
  | _, _ => none

/-- A binary operator on values that may be NULL. -/
def strictly {γ δ : Type} (f : α → γ → δ) (left : Option α) (right : Option γ) : Option δ := do
  let left ← left
  let right ← right
  return f left right

end Values

def selectColumns (row : SegmentContent Key) : InsertedRow Key := ⟨row, 0⟩

/-- The list c: the rows below each sampled key, between zero and the count of the table. -/
def rowsBelow (keyRanges : Nat) (packed : List (SegmentContent Key)) (q : Option (List (Option Key))) :
    List (Option Int) :=
  some 0 :: (List.range' 1 (keyRanges - 1)).map (fun bound =>
    some ((packed.countP fun row =>
      strictly (fun key bound => decide (key < bound)) (some row.gramKey) (listExtract q bound) = some true : Nat) : Int)) ++
    [some (packed.length : Int)]

def anyValue {α : Type} (values : List (Option α)) : Option α := values.findSome? id

/-- Whether the rows on both sides of a bound are enough for a range of their own. -/
def boundSurvives (minRows : Int) (c : Option (List (Option Int))) (i : Nat) : Option Bool :=
  both (strictly (fun rows least => decide (rows ≥ least))
      (strictly (· - ·) (listExtract c (i + 1)) (listExtract c i)) (some minRows))
    (strictly (fun rows least => decide (rows ≥ least))
      (strictly (· - ·) (listExtract c (i + 2)) (listExtract c (i + 1))) (some minRows))

def boundsTable (keyRanges : Nat) (minRows : Int) (packed : List (SegmentContent Key))
    (sampled : Option (List (Option Key))) : Option (List (Option Key)) :=
  let q := anyValue (packed.map fun _ => sampled)
  let c := some (rowsBelow keyRanges packed sampled)
  some (((List.range' 1 (keyRanges - 1)).filter fun i => boundSurvives minRows c i = some true).map (listExtract q))

/-- The WHERE clause of one input of the UNION ALL. -/
def rangeFilter (keyRanges range : Nat) (bounds : Option (List (Option Key))) (row : SegmentContent Key) :
    Option Bool :=
  let atLeast := fun bound => strictly (fun key bound => decide (key ≥ bound)) (some row.gramKey)
    (listExtract bounds bound)
  let lower := atLeast range
  let upper := isNotTrue (atLeast (range + 1))
  if range = 0 then upper else if range + 1 = keyRanges then lower else both lower upper

def minRows (rowGroupSize : UInt64) : Nat := (minSortRangeRowGroups * rowGroupSize).toNat

def sampledList {keyRanges : Nat} (sample : Option (Quantiles Key keyRanges)) : Option (List (Option Key)) :=
  sample.map fun quantiles => quantiles.keys.map some

/-- The rows that each input of the statement selects, before its ORDER BY. -/
def selectedRows {keyRanges : Nat} (rowGroupSize : UInt64) (packed : List (SegmentContent Key))
    (sample : Option (Quantiles Key keyRanges)) : List (List (SegmentContent Key)) :=
  if keyRanges ≤ 1 then [packed]
  else (List.range keyRanges).map fun range => packed.filter fun row =>
    rangeFilter keyRanges range (boundsTable keyRanges (minRows rowGroupSize) packed (sampledList sample)) row = some true

/-- The order of gram_key, segment_no. -/
def keyOrder (a b : InsertedRow Key) : Prop :=
  toLex (a.content.gramKey, a.content.segmentNo) ≤ toLex (b.content.gramKey, b.content.segmentNo)

instance (a b : InsertedRow Key) : Decidable (keyOrder a b) := inferInstanceAs (Decidable (toLex _ ≤ toLex _))

def Ordered (rows : List (SegmentContent Key)) (out : List (InsertedRow Key)) : Prop :=
  out.Perm (rows.map selectColumns) ∧ out.Pairwise keyOrder

/-- What the inputs of the statement can return. The insert writes them one after another. -/
def SortedSegments {keyRanges : Nat} (rowGroupSize : UInt64) (packed : List (SegmentContent Key))
    (sample : Option (Quantiles Key keyRanges)) (inputs : List (List (InsertedRow Key))) : Prop :=
  List.Forall₂ Ordered (selectedRows rowGroupSize packed sample) inputs

section Extraction
variable {α : Type}

@[simp] theorem listExtract_none (i : Nat) : listExtract (none : Option (List (Option α))) i = none := rfl

@[simp] theorem listExtract_zero (values : Option (List (Option α))) : listExtract values 0 = none := by
  cases values <;> rfl

@[simp] theorem listExtract_succ (values : List (Option α)) (i : Nat) :
    listExtract (some values) (i + 1) = (values[i]?).join := rfl

theorem listExtract_map_some (values : List α) (i : Nat) :
    listExtract (some (values.map some)) (i + 1) = values[i]? := by
  rw [listExtract_succ, List.getElem?_map]
  cases values[i]? <;> rfl

theorem anyValue_constant {γ : Type} {value : Option α} {rows : List γ} (nonempty : rows ≠ []) :
    anyValue (rows.map fun _ => value) = value := by
  obtain ⟨row, rest, rfl⟩ := List.exists_cons_of_ne_nil nonempty
  cases value with
  | some v => rfl
  | none =>
    apply List.findSome?_eq_none_iff.mpr
    intro v listed
    obtain ⟨_, _, rfl⟩ := List.mem_map.mp listed
    rfl

end Extraction

section Counting
variable {keyRanges : Nat} (quantiles : Quantiles Key keyRanges) (fallback : Key)

/-- The sampled key of a bound, numbered from one. -/
def boundKey (i : Nat) : Key := quantiles.keys.getD (i - 1) fallback

theorem boundKey_mono {i j : Nat} (some_bound : 0 < i) (le : i ≤ j) (inside : j < keyRanges) :
    boundKey quantiles fallback i ≤ boundKey quantiles fallback j := by
  have count := quantiles.count
  rw [boundKey, boundKey, List.getD_eq_getElem _ _ (by omega), List.getD_eq_getElem _ _ (by omega)]
  rcases Nat.eq_or_lt_of_le le with rfl | lt
  · exact le_refl _
  · exact List.pairwise_iff_getElem.mp quantiles.ordered (i - 1) (j - 1) (by omega) (by omega) (by omega)

theorem listExtract_quantiles {i : Nat} (some_bound : 0 < i) (inside : i < keyRanges) :
    listExtract (sampledList (some quantiles)) i = some (boundKey quantiles fallback i) := by
  have count := quantiles.count
  obtain ⟨i, rfl⟩ := Nat.exists_eq_add_one_of_ne_zero (Nat.pos_iff_ne_zero.mp some_bound)
  rw [sampledList, Option.map_some, listExtract_map_some, boundKey, Nat.add_sub_cancel,
    List.getD_eq_getElem _ _ (by omega), List.getElem?_eq_getElem (by omega)]

/-- Whether a row is counted below a bound, with no row below bound zero and each below the last. -/
def Below (i : Nat) (row : SegmentContent Key) : Prop :=
  i = keyRanges ∨ 0 < i ∧ row.gramKey < boundKey quantiles fallback i

instance (i : Nat) (row : SegmentContent Key) : Decidable (Below quantiles fallback i row) :=
  inferInstanceAs (Decidable (_ ∨ _))

theorem below_next {i : Nat} {row : SegmentContent Key} (inside : i < keyRanges)
    (below : Below quantiles fallback i row) : Below quantiles fallback (i + 1) row := by
  rcases below with rfl | ⟨some_bound, below⟩
  · exact absurd inside (Nat.lt_irrefl _)
  · rcases Nat.eq_or_lt_of_le (Nat.succ_le_of_lt inside) with last | more
    · exact .inl last
    · exact .inr ⟨Nat.succ_pos i, below.trans_le (boundKey_mono quantiles fallback some_bound (Nat.le_succ i) more)⟩

variable {packed : List (SegmentContent Key)}

theorem listExtract_rowsBelow (several : 1 < keyRanges) {i : Nat} (inside : i ≤ keyRanges) :
    listExtract (some (rowsBelow keyRanges packed (sampledList (some quantiles)))) (i + 1) =
      some ((packed.countP fun row => decide (Below quantiles fallback i row) : Nat) : Int) := by
  have none_below : packed.countP (fun row => decide (Below quantiles fallback 0 row)) = 0 := by
    apply List.countP_eq_zero.mpr
    intro row _ below
    rcases of_decide_eq_true below with zero | ⟨impossible, _⟩
    · omega
    · exact Nat.lt_irrefl 0 impossible
  have all_below : packed.countP (fun row => decide (Below quantiles fallback keyRanges row)) = packed.length :=
    List.countP_eq_length.mpr fun row _ => decide_eq_true (.inl rfl)
  rw [listExtract_succ, rowsBelow]
  cases i with
  | zero => rw [none_below]; rfl
  | succ i =>
    rw [List.cons_append, List.getElem?_cons_succ]
    rcases Nat.eq_or_lt_of_le inside with last | before
    · rw [last, all_below]
      have length : i = ((List.range' 1 (keyRanges - 1)).map fun bound => (some ((packed.countP fun row =>
          strictly (fun key bound => decide (key < bound)) (some row.gramKey)
            (listExtract (sampledList (some quantiles)) bound) = some true : Nat) : Int))).length := by
        rw [List.length_map, List.length_range']
        omega
      rw [length, List.getElem?_concat_length]
      rfl
    · rw [List.getElem?_append_left (by rw [List.length_map, List.length_range']; omega), List.getElem?_map,
        List.getElem?_range' (by omega)]
      have bound : 1 + 1 * i = i + 1 := by omega
      simp only [bound, Option.map_some, Option.join_some, Option.some.injEq, Nat.cast_inj]
      apply List.countP_congr
      intro row _
      rw [listExtract_quantiles quantiles fallback (Nat.succ_pos i) before]
      have other : i + 1 ≠ keyRanges := by omega
      simp [strictly, Below, other]

def between (packed : List (SegmentContent Key)) (i : Nat) : Nat :=
  packed.countP fun row => decide (Below quantiles fallback (i + 1) row) && !decide (Below quantiles fallback i row)

theorem below_split {i : Nat} (inside : i < keyRanges) :
    packed.countP (fun row => decide (Below quantiles fallback (i + 1) row)) =
      packed.countP (fun row => decide (Below quantiles fallback i row)) + between quantiles fallback packed i :=
  countP_split (fun _ below => decide_eq_true (below_next quantiles fallback inside (of_decide_eq_true below))) packed

theorem boundSurvives_iff (several : 1 < keyRanges) {least i : Nat} (some_bound : 0 < i) (inside : i < keyRanges) :
    boundSurvives least (some (rowsBelow keyRanges packed (sampledList (some quantiles)))) i = some true ↔
      least ≤ between quantiles fallback packed (i - 1) ∧ least ≤ between quantiles fallback packed i := by
  obtain ⟨i, rfl⟩ := Nat.exists_eq_add_one_of_ne_zero (Nat.pos_iff_ne_zero.mp some_bound)
  have before := @below_split _ _ _ quantiles fallback packed i (by omega)
  have after := @below_split _ _ _ quantiles fallback packed (i + 1) inside
  rw [boundSurvives, listExtract_rowsBelow quantiles fallback several (by omega),
    listExtract_rowsBelow quantiles fallback several (by omega),
    listExtract_rowsBelow quantiles fallback several (by omega), after, before, Nat.add_sub_cancel]
  have enough : ∀ a b : Prop, [Decidable a] → [Decidable b] →
      (both (some (decide a)) (some (decide b)) = some true ↔ a ∧ b) := by
    intro a b _ _
    by_cases left : a <;> by_cases right : b <;> simp [both, left, right]
  refine (enough _ _).trans ?_
  beta_reduce
  omega

def survivors (least : Nat) (packed : List (SegmentContent Key)) : List Nat :=
  (List.range' 1 (keyRanges - 1)).filter fun i =>
    boundSurvives least (some (rowsBelow keyRanges packed (sampledList (some quantiles)))) i = some true

def cuts (least : Nat) (packed : List (SegmentContent Key)) : List Key :=
  (survivors quantiles least packed).map (boundKey quantiles fallback)

variable {least : Nat}

theorem mem_survivors (several : 1 < keyRanges) {i : Nat} : i ∈ survivors quantiles least packed ↔
    (0 < i ∧ i < keyRanges) ∧ least ≤ between quantiles fallback packed (i - 1) ∧
      least ≤ between quantiles fallback packed i := by
  rw [survivors, List.mem_filter, List.mem_range'_1, decide_eq_true_eq]
  have bounds : 1 ≤ i ∧ i < 1 + (keyRanges - 1) ↔ 0 < i ∧ i < keyRanges := by omega
  rw [bounds]
  exact and_congr_right fun inside => boundSurvives_iff quantiles fallback several inside.1 inside.2

theorem survivors_ascending : (survivors quantiles least packed).Pairwise (· < ·) :=
  List.Pairwise.filter _ List.pairwise_lt_range'

theorem survivors_length : (survivors quantiles least packed).length ≤ keyRanges - 1 :=
  (List.length_filter_le _ _).trans (Nat.le_of_eq List.length_range')

theorem cuts_ordered (several : 1 < keyRanges) : (cuts quantiles fallback least packed).Pairwise (· ≤ ·) := by
  apply List.pairwise_map.mpr
  refine (survivors_ascending quantiles).imp_of_mem fun {i j} first second lt => ?_
  have low := ((mem_survivors quantiles fallback several).mp first).1.1
  have high := ((mem_survivors quantiles fallback several).mp second).1.2
  exact boundKey_mono quantiles fallback low lt.le high

theorem boundsTable_cuts (several : 1 < keyRanges) (nonempty : packed ≠ []) :
    boundsTable keyRanges least packed (sampledList (some quantiles)) =
      some ((cuts quantiles fallback least packed).map some) := by
  rw [boundsTable, anyValue_constant nonempty, cuts, List.map_map]
  refine congrArg some (List.map_congr_left fun i listed => ?_)
  obtain ⟨low, high⟩ := ((mem_survivors quantiles fallback several).mp listed).1
  exact listExtract_quantiles quantiles fallback low high

theorem rank_first (several : 1 < keyRanges) {i : Nat} (first : (survivors quantiles least packed)[0]? = some i)
    {row : SegmentContent Key} (below : Below quantiles fallback i row) :
    rank (cuts quantiles fallback least packed) row.gramKey = 0 := by
  have inside := ((mem_survivors quantiles fallback several).mp (List.mem_of_getElem? first)).1
  by_contra positive
  obtain ⟨cut, found, reach⟩ :=
    (lt_rank_iff (cuts_ordered quantiles fallback several) row.gramKey 0).mp (Nat.pos_of_ne_zero positive)
  rw [cuts, List.getElem?_map, first] at found
  cases found
  rcases below with last | ⟨_, below⟩
  · omega
  · exact absurd reach (not_le.mpr below)

/-- A row between a surviving bound and the sampled bound after it is in the bucket that the survivor begins. -/
theorem rank_after (several : 1 < keyRanges) {i r : Nat} (found : (survivors quantiles least packed)[r]? = some i)
    {row : SegmentContent Key} (above : ¬ Below quantiles fallback i row)
    (below : Below quantiles fallback (i + 1) row) :
    rank (cuts quantiles fallback least packed) row.gramKey = r + 1 := by
  have ordered := @cuts_ordered _ _ _ quantiles fallback packed least several
  have inside := ((mem_survivors quantiles fallback several).mp (List.mem_of_getElem? found)).1
  have reached : r < rank (cuts quantiles fallback least packed) row.gramKey := by
    apply (lt_rank_iff ordered row.gramKey r).mpr
    refine ⟨boundKey quantiles fallback i, by rw [cuts, List.getElem?_map, found]; rfl, ?_⟩
    exact not_lt.mp fun lower => above (.inr ⟨inside.1, lower⟩)
  have stopped : ¬ r + 1 < rank (cuts quantiles fallback least packed) row.gramKey := by
    intro further
    obtain ⟨cut, next, reach⟩ := (lt_rank_iff ordered row.gramKey (r + 1)).mp further
    rw [cuts, List.getElem?_map] at next
    obtain ⟨j, later, rfl⟩ := Option.map_eq_some_iff.mp next
    have beyond := ((mem_survivors quantiles fallback several).mp (List.mem_of_getElem? later)).1
    obtain ⟨r_inside, rfl⟩ := List.getElem?_eq_some_iff.mp found
    obtain ⟨next_inside, rfl⟩ := List.getElem?_eq_some_iff.mp later
    have apart := List.pairwise_iff_getElem.mp (@survivors_ascending _ _ _ quantiles packed least)
      r (r + 1) r_inside next_inside (Nat.lt_succ_self r)
    rcases below with last | ⟨_, below⟩
    · omega
    · have order := boundKey_mono quantiles fallback (Nat.succ_pos _) (Nat.succ_le_of_lt apart) beyond.2
      exact absurd (order.trans reach) (not_le.mpr below)
  omega

theorem buckets_filled (several : 1 < keyRanges) {r : Nat} (some_bound : survivors quantiles least packed ≠ [])
    (inside : r ≤ (survivors quantiles least packed).length) :
    least ≤ packed.countP fun row => decide (rank (cuts quantiles fallback least packed) row.gramKey = r) := by
  cases r with
  | zero =>
    obtain ⟨i, rest, split⟩ := List.exists_cons_of_ne_nil some_bound
    have first : (survivors quantiles least packed)[0]? = some i := by rw [split]; rfl
    obtain ⟨⟨low, _⟩, enough, _⟩ := (mem_survivors quantiles fallback several).mp (List.mem_of_getElem? first)
    refine enough.trans (List.countP_mono_left fun row _ between => ?_)
    rw [Nat.sub_add_cancel low] at between
    have below := of_decide_eq_true (Bool.and_eq_true_iff.mp between).1
    exact decide_eq_true (rank_first quantiles fallback several first below)
  | succ r =>
    obtain ⟨i, found⟩ : ∃ i, (survivors quantiles least packed)[r]? = some i :=
      ⟨_, List.getElem?_eq_getElem (Nat.lt_of_succ_le inside)⟩
    obtain ⟨_, _, enough⟩ := (mem_survivors quantiles fallback several).mp (List.mem_of_getElem? found)
    refine enough.trans (List.countP_mono_left fun row _ between => ?_)
    obtain ⟨below, above⟩ := Bool.and_eq_true_iff.mp between
    rw [Bool.not_eq_true', decide_eq_false_iff_not] at above
    exact decide_eq_true (rank_after quantiles fallback several found above (of_decide_eq_true below))

end Counting

section Ranges
variable {keyRanges : Nat}

/-- The predicates part the rows by the buckets of the surviving bounds, read past their end as NULL. -/
theorem rangeFilter_rank {bounds : Option (List (Option Key))} {cuts : List Key} (ordered : cuts.Pairwise (· ≤ ·))
    (few : cuts.length < keyRanges) (read : ∀ i, listExtract bounds (i + 1) = cuts[i]?) {range : Nat} (inside : range < keyRanges) (row : SegmentContent Key) :
    rangeFilter keyRanges range bounds row = some true ↔ rank cuts row.gramKey = range := by
  have most := rank_le_length cuts row.gramKey
  have lower : ∀ i, strictly (fun key bound => decide (key ≥ bound)) (some row.gramKey) (listExtract bounds (i + 1)) =
      some true ↔ i < rank cuts row.gramKey := by
    intro i
    rw [lt_rank_iff ordered, read]
    cases cuts[i]? with
    | none => simp [strictly]
    | some cut => simp [strictly]
  have upper : isNotTrue (strictly (fun key bound => decide (key ≥ bound)) (some row.gramKey)
      (listExtract bounds (range + 1))) = some true ↔ ¬ range < rank cuts row.gramKey := by
    rw [← lower range, isNotTrue]
    simp
  unfold rangeFilter
  simp only
  cases range with
  | zero =>
    rw [if_pos rfl, upper]
    omega
  | succ range =>
    rw [if_neg (Nat.succ_ne_zero range)]
    split
    · rw [lower]
      omega
    · have conjunction : ∀ a b : Option Bool, both a b = some true ↔ a = some true ∧ b = some true := by
        intro a b
        rcases a with - | ⟨⟨⟩⟩ <;> rcases b with - | ⟨⟨⟩⟩ <;> simp [both]
      rw [conjunction, lower, upper]
      omega

variable (rowGroupSize : UInt64) (packed : List (SegmentContent Key)) (sample : Option (Quantiles Key keyRanges))

theorem selectedRows_buckets (several : 1 < keyRanges) : ∃ cuts : List Key, cuts.length < keyRanges ∧
    selectedRows rowGroupSize packed sample =
      (List.range keyRanges).map (fun range => packed.filter fun row => decide (rank cuts row.gramKey = range)) ∧
    ∀ range ≤ cuts.length, cuts ≠ [] →
      minRows rowGroupSize ≤ packed.countP fun row => decide (rank cuts row.gramKey = range) := by
  have buckets : ∀ cuts : List Key, cuts.Pairwise (· ≤ ·) → cuts.length < keyRanges →
      (∀ i, listExtract (boundsTable keyRanges (minRows rowGroupSize) packed (sampledList sample)) (i + 1) = cuts[i]?) →
      selectedRows rowGroupSize packed sample =
        (List.range keyRanges).map fun range => packed.filter fun row => decide (rank cuts row.gramKey = range) := by
    intro cuts ordered few read
    rw [selectedRows, if_neg (by omega)]
    refine List.map_congr_left fun range listed => List.filter_congr fun row _ => ?_
    rw [decide_eq_decide]
    exact rangeFilter_rank ordered few read (List.mem_range.mp listed) row
  by_cases sampled : packed ≠ [] ∧ ∃ quantiles, sample = some quantiles
  · obtain ⟨nonempty, quantiles, rfl⟩ := sampled
    obtain ⟨row, _, _⟩ := List.exists_cons_of_ne_nil nonempty
    have short := @survivors_length _ _ _ quantiles packed (minRows rowGroupSize)
    have length : (cuts quantiles row.gramKey (minRows rowGroupSize) packed).length =
        (survivors quantiles (minRows rowGroupSize) packed).length := List.length_map _
    refine ⟨cuts quantiles row.gramKey (minRows rowGroupSize) packed, by omega, ?_, ?_⟩
    · apply buckets _ (cuts_ordered quantiles row.gramKey several) (by omega)
      intro i
      rw [boundsTable_cuts quantiles row.gramKey several nonempty, listExtract_map_some]
    · intro range inside some_cut
      refine buckets_filled quantiles row.gramKey several ?_ (by omega)
      exact fun none => some_cut (List.map_eq_nil_iff.mpr none)
  · -- without a sample, or without rows to cross it with, every bound is NULL
    have no_keys : anyValue (packed.map fun _ => sampledList sample) = none := by
      cases packed with
      | nil => rfl
      | cons row rest =>
        cases sample with
        | none => exact anyValue_constant (List.cons_ne_nil row rest)
        | some quantiles => exact absurd ⟨List.cons_ne_nil row rest, quantiles, rfl⟩ sampled
    refine ⟨[], by simpa using Nat.lt_of_succ_lt several, buckets [] List.Pairwise.nil ?_ ?_,
      fun _ _ impossible => absurd rfl impossible⟩
    · simpa using Nat.lt_of_succ_lt several
    · intro i
      rw [boundsTable, no_keys, listExtract_succ, List.getElem?_map, List.getElem?_nil]
      cases (List.filter _ _)[i]? <;> rfl

end Ranges

section Results
variable {keyRanges : Nat} {rowGroupSize : UInt64} {packed : List (SegmentContent Key)}
  {sample : Option (Quantiles Key keyRanges)} {inputs : List (List (InsertedRow Key))}

theorem ordered_exists (rows : List (SegmentContent Key)) : ∃ out, Ordered rows out := by
  refine ⟨(rows.map selectColumns).mergeSort fun a b => decide (keyOrder a b), List.mergeSort_perm _ _, ?_⟩
  refine (List.pairwise_mergeSort ?_ ?_ _).imp fun le => of_decide_eq_true le
  · intro a b c first second
    exact decide_eq_true (le_trans (of_decide_eq_true first) (of_decide_eq_true second))
  · intro a b
    rw [Bool.or_eq_true, decide_eq_true_eq, decide_eq_true_eq]
    exact le_total (toLex (a.content.gramKey, a.content.segmentNo)) _

theorem inputs_exist (groups : List (List (SegmentContent Key))) : ∃ inputs, List.Forall₂ Ordered groups inputs := by
  induction groups with
  | nil => exact ⟨[], .nil⟩
  | cons rows groups ih =>
    obtain ⟨inputs, others⟩ := ih
    obtain ⟨out, first⟩ := ordered_exists rows
    exact ⟨out :: inputs, .cons first others⟩

theorem inputs_perm {groups : List (List (SegmentContent Key))}
    (each : List.Forall₂ Ordered groups inputs) : inputs.flatten.Perm (groups.flatten.map selectColumns) := by
  induction each with
  | nil => exact List.Perm.refl []
  | cons first _ ih =>
    rw [List.flatten_cons, List.flatten_cons, List.map_append]
    exact first.1.append ih

theorem inputs_sorted {groups : List (List (SegmentContent Key))} (each : List.Forall₂ Ordered groups inputs)
    (apart : groups.Pairwise fun low high => ∀ a ∈ low, ∀ b ∈ high, a.gramKey < b.gramKey) :
    inputs.flatten.Pairwise keyOrder := by
  induction each with
  | nil => exact List.Pairwise.nil
  | @cons rows out groups inputs first others ih =>
    obtain ⟨below, rest⟩ := List.pairwise_cons.mp apart
    rw [List.flatten_cons]
    refine List.pairwise_append.mpr ⟨first.2, ih rest, fun a here b later => ?_⟩
    obtain ⟨low, in_rows, rfl⟩ := List.mem_map.mp (first.1.mem_iff.mp here)
    obtain ⟨high, in_groups, rfl⟩ := List.mem_map.mp ((inputs_perm others).mem_iff.mp later)
    obtain ⟨group, listed, in_group⟩ := List.mem_flatten.mp in_groups
    exact Prod.Lex.toLex_le_toLex.mpr (.inl (below group listed low in_rows high in_group))

theorem ordered_length {rows : List (SegmentContent Key)} {out : List (InsertedRow Key)} (ordered : Ordered rows out) :
    out.length = rows.length := by
  rw [ordered.1.length_eq, List.length_map]

/-- With more than one range, all of them together are the rows, one below the other. -/
theorem several_ranges (several : 1 < keyRanges) (sorted : SortedSegments rowGroupSize packed sample inputs) :
    inputs.flatten.Perm (packed.map selectColumns) ∧ inputs.flatten.Pairwise keyOrder ∧
      ∀ i j : Nat, i < j → (∃ a, inputs[i]? = some a ∧ a ≠ []) → (∃ b, inputs[j]? = some b ∧ b ≠ []) →
        ∀ input ∈ inputs, input ≠ [] → minRows rowGroupSize ≤ input.length := by
  obtain ⟨cuts, few, groups, enough⟩ := selectedRows_buckets rowGroupSize packed sample several
  unfold SortedSegments at sorted
  rw [groups] at sorted
  refine ⟨?_, ?_, ?_⟩
  · have parted := buckets_perm (fun row : SegmentContent Key => rank cuts row.gramKey) keyRanges packed
      fun row _ => (rank_le_length cuts row.gramKey).trans_lt few
    rw [List.flatMap_def] at parted
    exact (inputs_perm sorted).trans (parted.map selectColumns)
  · apply inputs_sorted sorted
    refine List.pairwise_map.mpr (List.pairwise_lt_range.imp fun {r s} lt a low b high => ?_)
    have of_r := of_decide_eq_true (List.mem_filter.mp low).2
    have of_s := of_decide_eq_true (List.mem_filter.mp high).2
    by_contra above
    have mono := rank_mono cuts (not_lt.mp above)
    omega
  · -- a range after another holds a row, so there is a cut
    intro i j lt _ ⟨b, at_j, nonempty⟩ input listed some_row
    have bucket : ∀ (r : Nat) (out : List (InsertedRow Key)), inputs[r]? = some out →
        out.length = packed.countP fun row => decide (rank cuts row.gramKey = r) := by
      intro r out found
      obtain ⟨inside, rfl⟩ := List.getElem?_eq_some_iff.mp found
      have length := sorted.length_eq
      rw [List.length_map, List.length_range] at length
      have pair := List.Forall₂.get sorted (by rw [List.length_map, List.length_range]; omega) inside
      have counted := ordered_length pair
      rw [List.get_eq_getElem, List.get_eq_getElem, List.getElem_map, List.getElem_range] at counted
      rw [counted, List.countP_eq_length_filter]
    obtain ⟨row, in_bucket⟩ : ∃ row, rank cuts row = j := by
      have length := bucket j b at_j
      have positive : 0 < b.length := List.length_pos_of_ne_nil nonempty
      rw [length] at positive
      obtain ⟨row, _, here⟩ := List.countP_pos_iff.mp positive
      exact ⟨row.gramKey, of_decide_eq_true here⟩
    have some_cut : cuts ≠ [] := by
      rintro rfl
      have none : rank [] row = 0 := rfl
      omega
    obtain ⟨r, inside, rfl⟩ := List.getElem_of_mem listed
    have length := bucket r _ (List.getElem?_eq_getElem inside)
    have positive : 0 < (inputs[r]).length := List.length_pos_of_ne_nil some_row
    rw [length] at positive ⊢
    obtain ⟨other, _, here⟩ := List.countP_pos_iff.mp positive
    have most := rank_le_length cuts other.gramKey
    have of_r := of_decide_eq_true here
    exact enough r (by omega) some_cut

end Results

/-- Whatever the sample was, the statement has a result, and each of its results writes every
    packed row once and in key order, from ranges that are large enough where there are several. -/
theorem sorted_segments_statement {keyRanges : Nat} (rowGroupSize : UInt64) (packed : List (SegmentContent Key))
    (sample : Option (Quantiles Key keyRanges)) :
    (∃ inputs, SortedSegments rowGroupSize packed sample inputs) ∧
    (∀ inputs, SortedSegments rowGroupSize packed sample inputs →
      inputs.flatten.Perm (packed.map selectColumns) ∧ inputs.flatten.Pairwise keyOrder ∧
        ∀ i j : Nat, i < j → (∃ a, inputs[i]? = some a ∧ a ≠ []) → (∃ b, inputs[j]? = some b ∧ b ≠ []) →
          ∀ input ∈ inputs, input ≠ [] → minRows rowGroupSize ≤ input.length) ∧
    (3 * rowGroupSize.toNat < 2 ^ 64 → minRows rowGroupSize = 3 * rowGroupSize.toNat) := by
  refine ⟨inputs_exist _, fun inputs sorted => ?_, fun fits => ?_⟩
  · rcases Nat.lt_or_ge 1 keyRanges with several | one
    · exact several_ranges several sorted
    · unfold SortedSegments selectedRows at sorted
      rw [if_pos one] at sorted
      obtain _ | ⟨ordered, rest⟩ := sorted
      cases rest
      refine ⟨?_, ?_, ?_⟩
      · rw [List.flatten_singleton]
        exact ordered.1
      · rw [List.flatten_singleton]
        exact ordered.2
      · rintro i j lt _ ⟨b, beyond, _⟩
        cases j with
        | zero => exact absurd lt (Nat.not_lt_zero i)
        | succ j => cases beyond
  · rw [minRows, UInt64.toNat_mul]
    exact Nat.mod_eq_of_lt fits

def thirds : Quantiles Nat 3 := ⟨[1, 2], rfl, by decide⟩

def packedRow (key : Nat) (segmentNo : Int) : SegmentContent Nat := ⟨key, segmentNo, [], 1, 0, 0⟩

def nineRows : List (SegmentContent Nat) :=
  [packedRow 2 0, packedRow 0 1, packedRow 1 0, packedRow 0 0, packedRow 1 2, packedRow 2 1, packedRow 1 1,
    packedRow 0 2, packedRow 2 2]

def sortedThirds : List (List (InsertedRow Nat)) :=
  [0, 1, 2].map fun key => [0, 1, 2].map fun segmentNo => ⟨packedRow key segmentNo, 0⟩

/-- Nine rows in three ranges of three. -/
theorem nine_rows_sorted : sortedThirds.flatten.Perm (nineRows.map selectColumns) ∧
    sortedThirds.flatten.Pairwise keyOrder ∧ ∀ input ∈ sortedThirds, input ≠ [] → minRows 1 ≤ input.length := by
  have selected : selectedRows 1 nineRows (some thirds) =
      [[packedRow 0 1, packedRow 0 0, packedRow 0 2], [packedRow 1 0, packedRow 1 2, packedRow 1 1],
        [packedRow 2 0, packedRow 2 1, packedRow 2 2]] := by decide +kernel
  have sorted : SortedSegments 1 nineRows (some thirds) sortedThirds := by
    unfold SortedSegments
    rw [selected]
    exact .cons ⟨by decide, by decide⟩ (.cons ⟨by decide, by decide⟩ (.cons ⟨by decide, by decide⟩ .nil))
  obtain ⟨perm, order, filled⟩ := (sorted_segments_statement 1 nineRows (some thirds)).2.1 sortedThirds sorted
  exact ⟨perm, order, filled 0 1 (by decide) ⟨_, rfl, by decide⟩ ⟨_, rfl, by decide⟩⟩

end NgramSortRanges
