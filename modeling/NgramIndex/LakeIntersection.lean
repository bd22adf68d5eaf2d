import Mathlib.Data.List.GetD
import NgramIndex.LakePostings

/- IntersectPostings: the postings read for the chosen keys, one segment at a time.
   Each key's generations are united and the keys intersected, the smallest first. -/
namespace NgramLake
open AscendingLists Fallible NgramGram NgramPostings NgramProbe

/-- A postings row of a wanted key has both halves among those of the chosen keys. -/
def keyFilter (chosen : List Uhugeint) (row : PostingRow) : Bool :=
  decide (row.gramKey.upper ∈ chosen.map Uhugeint.upper) && decide (row.gramKey.lower ∈ chosen.map Uhugeint.lower)

def segmentKeys (rows : List PostingRow) (chosen : List Uhugeint) (segmentNo : Int) : List (List PostingRow) :=
  chosen.map fun key => rows.filter fun row => decide (row.segmentNo = segmentNo ∧ row.gramKey = key)

/-- The row count of a key in an unsigned 64-bit word. -/
def countOf (rows : List PostingRow) : Nat := ((rows.map SegmentRow.rowidCount).sum % 2 ^ 64).toNat

def smallestFirst (byKey : List (List PostingRow)) : List (List PostingRow) :=
  ((byKey.mapIdx fun key rows => (countOf rows, key)).mergeSort fun a b =>
    decide (a.1 < b.1) || (decide (a.1 = b.1) && decide (a.2 ≤ b.2))).map fun entry => byKey.getD entry.2 []

def decodeKey (rows : List PostingRow) : Except String (List Nat) := do
  let lists ← rows.mapM fun row => decodePostings row.postings
  return sortUnique lists.flatten

/-- No further key is decoded once nothing is left. -/
def intersectKeys (current : List Nat) : List (List PostingRow) → Except String (List Nat)
  | [] => .ok current
  | rows :: rest => do
      let decoded ← decodeKey rows
      let next := intersect current decoded
      if next = [] then .ok [] else intersectKeys next rest

def intersectSegment (byKey : List (List PostingRow)) : Except String (List Nat) :=
  if byKey.any fun rows => decide (rows = []) then .ok []
  else
    match smallestFirst byKey with
    | [] => .ok []
    | first :: rest => do
        let current ← decodeKey first
        intersectKeys current rest

def chosenSegments (rows : List PostingRow) (chosen : List Uhugeint) : List Int :=
  sortUnique ((rows.filter fun row => decide (row.gramKey ∈ chosen)).map SegmentRow.segmentNo)

def intersectPostings (rows : List PostingRow) (chosen : List Uhugeint) : Except String (List Nat) := do
  let lists ← (chosenSegments rows chosen).mapM fun segmentNo => intersectSegment (segmentKeys rows chosen segmentNo)
  return lists.flatten

def PostedIn (rows : List PostingRow) (segmentNo : Int) (key : Uhugeint) (r : Nat) : Prop :=
  ∃ row ∈ rows, row.gramKey = key ∧ row.segmentNo = segmentNo ∧ r ∈ row.rowids

theorem keyFilter_keeps {chosen : List Uhugeint} {row : PostingRow} (wanted : row.gramKey ∈ chosen) :
    keyFilter chosen row = true := by
  unfold keyFilter
  rw [Bool.and_eq_true, decide_eq_true_eq, decide_eq_true_eq]
  exact ⟨List.mem_map_of_mem wanted, List.mem_map_of_mem wanted⟩

theorem mem_smallestFirst {byKey : List (List PostingRow)} {rows : List PostingRow} :
    rows ∈ smallestFirst byKey ↔ rows ∈ byKey := by
  unfold smallestFirst
  simp only [List.mem_map, List.mem_mergeSort, List.mem_mapIdx]
  constructor
  · intro sorted
    obtain ⟨_, ⟨key, inside, rfl⟩, rfl⟩ := sorted
    rw [List.getD_eq_getElem _ _ inside]
    exact List.getElem_mem inside
  · intro present
    obtain ⟨key, inside, rfl⟩ := List.mem_iff_getElem.mp present
    exact ⟨_, ⟨key, inside, rfl⟩, List.getD_eq_getElem _ _ inside⟩

theorem row_rowids {row : PostingRow} {rowids : List Nat} (decoded : decodePostings row.postings = .ok rowids) :
    row.rowids = rowids := by
  unfold SegmentRow.rowids
  rw [decoded]

theorem decodeKey_union {rows : List PostingRow} {decoded : List Nat} (run : decodeKey rows = .ok decoded) :
    Ascending decoded ∧ ∀ r, r ∈ decoded ↔ ∃ row ∈ rows, r ∈ row.rowids := by
  obtain ⟨lists, unpacked, run⟩ := bind_ok run
  obtain rfl := ok_inj run
  refine ⟨sortUnique_ascending _, ?_⟩
  intro r
  rw [mem_sortUnique, List.mem_flatten]
  constructor
  · intro present
    obtain ⟨list, listed, here⟩ := present
    obtain ⟨row, in_rows, one⟩ := mapM_ok_right unpacked list listed
    exact ⟨row, in_rows, row_rowids one ▸ here⟩
  · intro present
    obtain ⟨row, in_rows, here⟩ := present
    obtain ⟨list, listed, one⟩ := mapM_ok_left unpacked row in_rows
    exact ⟨list, listed, row_rowids one ▸ here⟩

theorem intersectKeys_exact {current : List Nat} (ascending : Ascending current) {keys : List (List PostingRow)}
    {result : List Nat} (run : intersectKeys current keys = .ok result) :
    Ascending result ∧ ∀ r, r ∈ result ↔ r ∈ current ∧ ∀ rows ∈ keys, ∃ row ∈ rows, r ∈ row.rowids := by
  induction keys generalizing current with
  | nil =>
    obtain rfl := ok_inj run
    exact ⟨ascending, fun r => by simp⟩
  | cons rows rest ih =>
    obtain ⟨decoded, united, run⟩ := bind_ok run
    obtain ⟨decoded_ascending, members⟩ := decodeKey_union united
    have meet := fun r => mem_intersect ascending decoded_ascending r
    rcases branch_ok run with ⟨nothing, run⟩ | ⟨_, run⟩
    · -- the intersection stays empty whatever the later keys hold
      obtain rfl := ok_inj run
      refine ⟨List.Pairwise.nil, ?_⟩
      intro r
      constructor
      · intro none
        cases none
      · intro both
        obtain ⟨here, every⟩ := both
        have listed := (meet r).mpr ⟨here, (members r).mpr (every rows List.mem_cons_self)⟩
        rw [nothing] at listed
        cases listed
    · obtain ⟨result_ascending, exact_result⟩ := ih (intersect_ascending decoded ascending) run
      refine ⟨result_ascending, ?_⟩
      intro r
      rw [exact_result, meet, members, List.forall_mem_cons, and_assoc]

theorem intersectSegment_exact {byKey : List (List PostingRow)} (some_key : byKey ≠ []) {result : List Nat}
    (run : intersectSegment byKey = .ok result) :
    Ascending result ∧ ∀ r, r ∈ result ↔ ∀ rows ∈ byKey, ∃ row ∈ rows, r ∈ row.rowids := by
  unfold intersectSegment at run
  rcases branch_ok run with ⟨absent, run⟩ | ⟨_, run⟩
  · obtain rfl := ok_inj run
    obtain ⟨rows, listed, empty⟩ := List.any_eq_true.mp absent
    refine ⟨List.Pairwise.nil, ?_⟩
    intro r
    constructor
    · intro none
      cases none
    · intro every
      obtain ⟨row, present, _⟩ := every rows listed
      rw [of_decide_eq_true empty] at present
      cases present
  · have same := fun rows => @mem_smallestFirst byKey rows
    split at run
    · rename_i nothing
      obtain ⟨rows, listed⟩ := List.exists_mem_of_ne_nil byKey some_key
      have sorted := (same rows).mpr listed
      rw [nothing] at sorted
      cases sorted
    · rename_i first rest order
      obtain ⟨current, united, run⟩ := bind_ok run
      obtain ⟨current_ascending, members⟩ := decodeKey_union united
      obtain ⟨ascending, exact_result⟩ := intersectKeys_exact current_ascending run
      refine ⟨ascending, ?_⟩
      intro r
      have every : (∀ rows ∈ first :: rest, ∃ row ∈ rows, r ∈ row.rowids) ↔
          (∃ row ∈ first, r ∈ row.rowids) ∧ ∀ rows ∈ rest, ∃ row ∈ rows, r ∈ row.rowids :=
        List.forall_mem_cons
      rw [exact_result, members, ← every, ← order]
      simp only [same]

theorem segmentKeys_posted {rows : List PostingRow} {chosen : List Uhugeint} {segmentNo : Int} {r : Nat} :
    (∀ keyed ∈ segmentKeys rows chosen segmentNo, ∃ row ∈ keyed, r ∈ row.rowids) ↔
      ∀ key ∈ chosen, PostedIn rows segmentNo key r := by
  unfold segmentKeys PostedIn
  simp only [List.forall_mem_map, List.mem_filter, decide_eq_true_eq]
  refine forall₂_congr fun key listed => ?_
  constructor
  · intro found
    obtain ⟨row, ⟨present, in_segment, of_key⟩, here⟩ := found
    exact ⟨row, present, of_key, in_segment, here⟩
  · intro found
    obtain ⟨row, present, of_key, in_segment, here⟩ := found
    exact ⟨row, ⟨present, in_segment, of_key⟩, here⟩

theorem intersectPostings_exact {rows : List PostingRow} {chosen : List Uhugeint} (some_key : chosen ≠ [])
    {result : List Nat} (run : intersectPostings rows chosen = .ok result) (r : Nat) :
    r ∈ result ↔ ∃ segmentNo, ∀ key ∈ chosen, PostedIn rows segmentNo key r := by
  obtain ⟨lists, intersected, run⟩ := bind_ok run
  obtain rfl := ok_inj run
  have keyed (segmentNo : Int) : segmentKeys rows chosen segmentNo ≠ [] := by
    unfold segmentKeys
    rw [Ne, List.map_eq_nil_iff]
    exact some_key
  rw [List.mem_flatten]
  constructor
  · intro listed
    obtain ⟨list, in_lists, here⟩ := listed
    obtain ⟨segmentNo, _, one⟩ := mapM_ok_right intersected list in_lists
    exact ⟨segmentNo, segmentKeys_posted.mp (((intersectSegment_exact (keyed segmentNo) one).2 r).mp here)⟩
  · intro posted
    obtain ⟨segmentNo, every⟩ := posted
    obtain ⟨key, wanted⟩ := List.exists_mem_of_ne_nil chosen some_key
    obtain ⟨row, present, of_key, in_segment, _⟩ := every key wanted
    have segment_listed : segmentNo ∈ chosenSegments rows chosen := by
      unfold chosenSegments
      rw [mem_sortUnique, List.mem_map]
      refine ⟨row, List.mem_filter.mpr ⟨present, ?_⟩, in_segment⟩
      rw [of_key]
      exact decide_eq_true wanted
    obtain ⟨list, in_lists, one⟩ := mapM_ok_left intersected segmentNo segment_listed
    exact ⟨list, in_lists, ((intersectSegment_exact (keyed segmentNo) one).2 r).mpr (segmentKeys_posted.mpr every)⟩

end NgramLake
