import NgramIndex.Ascending
import NgramIndex.LowerBound

/- The predicate on row ids that the lake's query plan carries. It answers a row id from
   where the search for the one before it ended, and prunes a row group by its least and
   greatest row id. -/
namespace NgramLakeRowids
open AscendingLists LowerBound

/-- Where the next search starts: at the cursor, unless the row id went back. -/
def restart (rowids : List Int) (cursor : Nat) (rowid : Int) : Nat :=
  match cursor with
  | 0 => 0
  | passed + 1 =>
      match rowids[passed]? with
      | some last => if last ≥ rowid then 0 else passed + 1
      | none => 0

/-- The rest of a chunk, from the cursor that the entries before it left. -/
def lakeRowidsFrom (rowids : List Int) (cursor : Nat) : List (Option Int) → List (Option Bool)
  | [] => []
  | none :: rest => none :: lakeRowidsFrom rowids cursor rest
  | some rowid :: rest =>
      let cursor := lowerBound rowids rowid (restart rowids cursor rowid)
      some (decide (rowids[cursor]? = some rowid)) :: lakeRowidsFrom rowids cursor rest

def lakeRowidsFunction (rowids : List Int) (input : List (Option Int)) : List (Option Bool) :=
  lakeRowidsFrom rowids 0 input

inductive FilterPropagateResult where
  | noPruningPossible
  | filterAlwaysFalse
  deriving DecidableEq, Repr

/-- The statistics are the least and greatest row id of a row group, where they are known. -/
def lakeRowidsPrune (bindData : Option (List Int)) (stats : Option (Int × Int)) : FilterPropagateResult :=
  match bindData, stats with
  | some rowids, some (low, high) =>
      match rowids[lowerBound rowids low 0]? with
      | none => .filterAlwaysFalse
      | some first => if first > high then .filterAlwaysFalse else .noPruningPossible
  | _, _ => .noPruningPossible

section Cursor
variable {rowids : List Int}

theorem ascending_weak (ascending : Ascending rowids) : rowids.Pairwise (· ≤ ·) := ascending.imp fun lt => lt.le

/-- Whatever the entries before it were, the search for a row id starts behind smaller ones only. -/
theorem restart_before (ascending : Ascending rowids) {cursor : Nat} (inside : cursor ≤ rowids.length) (rowid : Int) :
    restart rowids cursor rowid ≤ rowids.length ∧
      ∀ i x, rowids[i]? = some x → i < restart rowids cursor rowid → x < rowid := by
  unfold restart
  cases cursor with
  | zero => exact ⟨Nat.zero_le _, fun i x _ impossible => absurd impossible (Nat.not_lt_zero i)⟩
  | succ passed =>
    obtain ⟨previous, last⟩ : ∃ x, rowids[passed]? = some x := ⟨_, List.getElem?_eq_getElem inside⟩
    simp only [last]
    split
    · exact ⟨Nat.zero_le _, fun i x _ impossible => absurd impossible (Nat.not_lt_zero i)⟩
    · rename_i forward
      refine ⟨inside, fun i x found early => ?_⟩
      have order := sorted_le (ascending_weak ascending) (Nat.le_of_lt_succ early) found last
      omega

theorem lakeRowidsFrom_exact (ascending : Ascending rowids) (input : List (Option Int)) {cursor : Nat}
    (inside : cursor ≤ rowids.length) :
    lakeRowidsFrom rowids cursor input = input.map fun entry => entry.map fun rowid => decide (rowid ∈ rowids) := by
  induction input generalizing cursor with
  | nil => rfl
  | cons entry rest ih =>
    cases entry with
    | none =>
      rw [lakeRowidsFrom, ih inside]
      rfl
    | some rowid =>
      obtain ⟨start, before⟩ := restart_before ascending inside rowid
      have parts := lowerBound_parts (ascending_weak ascending) start before
      simp only [lakeRowidsFrom, ih parts.inside, List.map_cons, Option.map_some,
        mem_iff_found (ascending_weak ascending) parts]

theorem lakeRowidsPrune_exact (ascending : Ascending rowids) (low high : Int) :
    lakeRowidsPrune (some rowids) (some (low, high)) = .filterAlwaysFalse ↔
      ¬ ∃ rowid ∈ rowids, low ≤ rowid ∧ rowid ≤ high := by
  have parts : Parts rowids low (lowerBound rowids low 0) := lowerBound_parts (ascending_weak ascending)
    (Nat.zero_le _) fun i x _ impossible => absurd impossible (Nat.not_lt_zero i)
  rw [exists_between_iff (ascending_weak ascending) parts, lakeRowidsPrune]
  cases found : rowids[lowerBound rowids low 0]? with
  | none => simp
  | some first => simp

end Cursor

/-- The predicate holds of the candidates alone, and a row group is pruned exactly when its
    statistics leave no room for one; without statistics none is. -/
theorem lake_rowids_exact (rowids : List Int) (ascending : Ascending rowids) :
    (∀ input, lakeRowidsFunction rowids input =
      input.map fun entry => entry.map fun rowid => decide (rowid ∈ rowids)) ∧
    (∀ low high, lakeRowidsPrune (some rowids) (some (low, high)) = .filterAlwaysFalse ↔
      ¬ ∃ rowid ∈ rowids, low ≤ rowid ∧ rowid ≤ high) ∧
    lakeRowidsPrune (some rowids) none = .noPruningPossible ∧
    ∀ (group : List Int) (stats : Option (Int × Int)),
      (∀ low high, stats = some (low, high) → ∀ rowid ∈ group, low ≤ rowid ∧ rowid ≤ high) →
      (∃ rowid ∈ group, rowid ∈ rowids) → lakeRowidsPrune (some rowids) stats = .noPruningPossible := by
  refine ⟨fun input => lakeRowidsFrom_exact ascending input (Nat.zero_le _), lakeRowidsPrune_exact ascending, rfl, ?_⟩
  rintro group (_ | ⟨low, high⟩) described ⟨rowid, in_group, candidate⟩
  · rfl
  · have kept := (lakeRowidsPrune_exact ascending low high).not.mpr
      (not_not.mpr ⟨rowid, candidate, described low high rfl rowid in_group⟩)
    cases answer : lakeRowidsPrune (some rowids) (some (low, high)) with
    | noPruningPossible => rfl
    | filterAlwaysFalse => exact absurd answer kept

/-- Row ids that go back, repeat, are NULL and pass the end. -/
theorem wandering_rowids : lakeRowidsFunction [3, 5, 9] [some 5, some 5, none, some 3, some 12, some 9] =
      [some true, some true, none, some true, some false, some true] ∧
    lakeRowidsPrune (some [3, 5, 9]) (some (6, 9)) = .noPruningPossible := by
  obtain ⟨answers, _, _, kept⟩ := lake_rowids_exact [3, 5, 9] (by decide)
  refine ⟨(answers _).trans (by decide), kept [6, 9] (some (6, 9)) ?_ ⟨9, by decide, by decide⟩⟩
  rintro low high ⟨⟩
  decide

end NgramLakeRowids
