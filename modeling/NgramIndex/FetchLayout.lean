import Mathlib.Data.List.Basic
import NgramIndex.Fallible
import NgramIndex.SearchCore

/- The column layouts of a search. A fetched candidate is read in two parts, the
   columns its recheck needs and, once it is kept, the others; both parts together
   give the tuple that the whole layout gives. -/
namespace NgramFetchLayout
open NgramStorage
open Fallible NgramSearchCore
variable {Row Column Value : Type}

inductive StorageIndex (Column : Type) where
  | rowId
  | stored (column : Column)
  deriving DecidableEq, Repr

def StorageIndex.isRowIdColumn : StorageIndex Column → Bool
  | .rowId => true
  | .stored _ => false

/-- A value of a chunk. The BOOLEAN true stands in for a column that only counts. -/
inductive Cell (Value : Type) where
  | rowid (r : Nat)
  | value (v : Value)
  | yes
  deriving DecidableEq, Repr

structure DataChunk (Value : Type) where
  columns : List (List (Cell Value))
  size : Nat
  deriving DecidableEq, Repr

def DataChunk.data (chunk : DataChunk Value) (column : Nat) : List (Cell Value) := chunk.columns.getD column []

/-- What init hands over: columns to fetch, the positions of those that the recheck
    reads, and for each output column its position, or none to count. -/
structure FetchLayout (Column : Type) where
  fetchColumnIds : List (StorageIndex Column)
  recheckPositions : List Nat
  outputIds : List (Option Nat)
  distinct : recheckPositions.Nodup
  rechecked : ∀ position ∈ recheckPositions, position < fetchColumnIds.length
  projected : ∀ position, some position ∈ outputIds → position < fetchColumnIds.length

/-- SearchCoreGlobal's layouts once they are final. -/
structure SearchLayout (Column : Type) where
  fetchColumnIds : List (StorageIndex Column)
  fetchRowidPosition : Nat
  probePositions : List Nat
  extraPositions : List Nat
  probeRowidPosition : Nat
  probeColumnIds : List (StorageIndex Column)
  extraColumnIds : List (StorageIndex Column)
  outputIds : List (Option Nat)
  outputSources : List (Bool × Option Nat)

def columnsAt (ids : List (StorageIndex Column)) (positions : List Nat) : List (StorageIndex Column) :=
  positions.map fun position => ids.getD position .rowId

def outputSource (probePositions extraPositions : List Nat) : Option Nat → Bool × Option Nat
  | none => (true, none)
  | some source =>
      if source ∈ probePositions then (true, some (probePositions.idxOf source))
      else (false, some (extraPositions.idxOf source))

/-- FinalizeSearchCore, as far as it lays out columns. -/
def finalizeLayout (layout : FetchLayout Column) : SearchLayout Column :=
  let rowidPosition := layout.fetchColumnIds.findIdx StorageIndex.isRowIdColumn
  let fetchColumnIds :=
    if rowidPosition < layout.fetchColumnIds.length then layout.fetchColumnIds
    else layout.fetchColumnIds ++ [.rowId]
  let probePositions :=
    if rowidPosition ∈ layout.recheckPositions then layout.recheckPositions
    else layout.recheckPositions ++ [rowidPosition]
  let extraPositions := (List.range fetchColumnIds.length).filter fun i => decide (i ∉ probePositions)
  { fetchColumnIds := fetchColumnIds
    fetchRowidPosition := rowidPosition
    probePositions := probePositions
    extraPositions := extraPositions
    probeRowidPosition := probePositions.zipIdx.foldl
      (fun last entry => if entry.1 = rowidPosition then entry.2 else last) 0
    probeColumnIds := columnsAt fetchColumnIds probePositions
    extraColumnIds := columnsAt fetchColumnIds extraPositions
    outputIds := layout.outputIds
    outputSources := layout.outputIds.map (outputSource probePositions extraPositions) }

def cell (read : Row → Column → Value) (id : StorageIndex Column) (entry : Nat × Row) : Cell Value :=
  match id with
  | .rowId => .rowid entry.1
  | .stored column => .value (read entry.2 column)

/-- DataTable::Fetch into a chunk of a layout, which a scan of the same rows fills alike. -/
def fetchChunk (read : Row → Column → Value) (t : DataTable Row) (ids : List (StorageIndex Column))
    (rowids : List Nat) : DataChunk Value :=
  ⟨ids.map fun id => (t.fetch rowids).map (cell read id), (t.fetch rowids).length⟩

def slice (column : List (Cell Value)) (sel : List Nat) : List (Cell Value) := sel.map fun i => column.getD i .yes

/-- SearchCoreEmit. -/
def searchCoreEmit (layout : SearchLayout Column) (source : DataChunk Value) (sel : List Nat) : DataChunk Value :=
  ⟨layout.outputIds.map fun
    | none => List.replicate sel.length .yes
    | some id => slice (source.data id) sel, sel.length⟩

/-- SearchCoreEmitFetched. -/
def searchCoreEmitFetched (layout : SearchLayout Column) (probe extra : DataChunk Value) (sel : List Nat) :
    DataChunk Value :=
  ⟨layout.outputSources.map fun
    | (_, none) => List.replicate sel.length .yes
    | (true, some position) => slice (probe.data position) sel
    | (false, some position) => extra.data position, sel.length⟩

def Cell.rowidOf : Cell Value → Nat
  | .rowid r => r
  | _ => 0

/-- The per-row fetch of one chunk of candidates: nothing is emitted where no row is
    kept. The recheck selects rows of the probe chunk. -/
def fetchCandidates (read : Row → Column → Value) (t : DataTable Row) (layout : SearchLayout Column)
    (recheck : DataChunk Value → List Nat) (rowids : List Nat) : Except String (Option (DataChunk Value)) :=
  let probe := fetchChunk read t layout.probeColumnIds rowids
  let sel := if probe.size = 0 then [] else recheck probe
  if sel = [] then .ok none
  else if layout.extraColumnIds = [] then .ok (some (searchCoreEmitFetched layout probe ⟨[], 0⟩ sel))
  else
    let hitRowids := (slice (probe.data layout.probeRowidPosition) sel).map Cell.rowidOf
    let extra := fetchChunk read t layout.extraColumnIds hitRowids
    if extra.size ≠ sel.length then .error rowVanished
    else .ok (some (searchCoreEmitFetched layout probe extra sel))

section Positions
variable {ids : List (StorageIndex Column)} {positions : List Nat}

theorem columnsAt_at {k position : Nat} (found : positions[k]? = some position) :
    k < (columnsAt ids positions).length ∧
      (columnsAt ids positions).getD k .rowId = ids.getD position .rowId := by
  obtain ⟨inside, at_k⟩ := List.getElem?_eq_some_iff.mp found
  have inside' : k < (columnsAt ids positions).length := inside.trans_eq (List.length_map _).symm
  refine ⟨inside', ?_⟩
  unfold columnsAt at inside' ⊢
  rw [List.getD_eq_getElem _ _ inside', List.getElem_map, at_k]

theorem getElem?_idxOf {position : Nat} (listed : position ∈ positions) :
    positions[positions.idxOf position]? = some position := by
  have inside := List.idxOf_lt_length_of_mem listed
  rw [List.getElem?_eq_getElem inside, List.getElem_idxOf inside]

/-- The place that the last of the equal entries leaves. -/
theorem last_place (x : Nat) (positions : List Nat) (first last : Nat) :
    let place := (positions.zipIdx first).foldl (fun last entry => if entry.1 = x then entry.2 else last) last
    (x ∉ positions ∧ place = last) ∨ (first ≤ place ∧ positions[place - first]? = some x) := by
  induction positions generalizing first last with
  | nil => exact Or.inl ⟨List.not_mem_nil, rfl⟩
  | cons position positions ih =>
    simp only [List.zipIdx_cons, List.foldl_cons]
    rcases ih (first + 1) (if position = x then first else last) with ⟨absent, same⟩ | ⟨later, found⟩
    · rw [same]
      split
      · rename_i here
        exact Or.inr ⟨Nat.le_refl _, by simp [here]⟩
      · rename_i other
        exact Or.inl ⟨by simp [absent, Ne.symm other], rfl⟩
    · refine Or.inr ⟨by omega, ?_⟩
      generalize List.foldl _ _ _ = place at later found ⊢
      obtain ⟨k, rfl⟩ : ∃ k, place = first + 1 + k := ⟨place - (first + 1), by omega⟩
      have shift : first + 1 + k - first = k + 1 := by omega
      rw [Nat.add_sub_cancel_left] at found
      rw [shift, List.getElem?_cons_succ, found]

theorem rowid_column (ids : List (StorageIndex Column)) :
    let position := ids.findIdx StorageIndex.isRowIdColumn
    let final := if position < ids.length then ids else ids ++ [.rowId]
    position < final.length ∧ final.getD position .rowId = .rowId := by
  simp only
  split
  · rename_i inside
    refine ⟨inside, ?_⟩
    rw [List.getD_eq_getElem _ _ inside]
    have found := @List.findIdx_getElem _ StorageIndex.isRowIdColumn ids inside
    cases at_position : ids[ids.findIdx StorageIndex.isRowIdColumn] with
    | rowId => rfl
    | stored column =>
      rw [at_position] at found
      cases found
  · rename_i outside
    have same : ids.findIdx StorageIndex.isRowIdColumn = ids.length :=
      le_antisymm List.findIdx_le_length (Nat.le_of_not_lt outside)
    simp [same]

end Positions

section Layouts
variable (layout : FetchLayout Column)

theorem ids_extended {position : Nat} (inside : position < layout.fetchColumnIds.length) :
    position < (finalizeLayout layout).fetchColumnIds.length := by
  simp only [finalizeLayout]
  split
  · exact inside
  · rw [List.length_append]
    omega

theorem rowid_probed : (finalizeLayout layout).fetchRowidPosition ∈ (finalizeLayout layout).probePositions := by
  simp only [finalizeLayout]
  split
  · assumption
  · exact List.mem_append_right _ (List.mem_singleton_self _)

theorem probe_rowid : (finalizeLayout layout).probeRowidPosition < (finalizeLayout layout).probeColumnIds.length ∧
    (finalizeLayout layout).probeColumnIds.getD (finalizeLayout layout).probeRowidPosition .rowId = .rowId := by
  have probed := rowid_probed layout
  have column := rowid_column layout.fetchColumnIds
  have place := last_place (finalizeLayout layout).fetchRowidPosition (finalizeLayout layout).probePositions 0 0
  rcases place with ⟨absent, _⟩ | ⟨_, found⟩
  · exact absurd probed absent
  · obtain ⟨inside, same⟩ := @columnsAt_at _ (finalizeLayout layout).fetchColumnIds _ _ _ found
    exact ⟨inside, same.trans column.2⟩

theorem extra_columns : (finalizeLayout layout).extraColumnIds =
    columnsAt (finalizeLayout layout).fetchColumnIds (finalizeLayout layout).extraPositions := rfl

theorem extra_of_unprobed {position : Nat} (inside : position < (finalizeLayout layout).fetchColumnIds.length)
    (unprobed : position ∉ (finalizeLayout layout).probePositions) :
    position ∈ (finalizeLayout layout).extraPositions :=
  List.mem_filter.mpr ⟨List.mem_range.mpr inside, decide_eq_true unprobed⟩

theorem recheck_place {k position : Nat} (listed : layout.recheckPositions[k]? = some position) :
    (finalizeLayout layout).probePositions[k]? = some position := by
  simp only [finalizeLayout]
  split
  · exact listed
  · rw [List.getElem?_append_left (List.getElem?_eq_some_iff.mp listed).1]
    exact listed

end Layouts

section Emission
variable {read : Row → Column → Value} {t : DataTable Row}

theorem fetchChunk_data {ids : List (StorageIndex Column)} {rowids : List Nat} {position : Nat}
    (inside : position < ids.length) :
    (fetchChunk read t ids rowids).data position = (t.fetch rowids).map (cell read (ids.getD position .rowId)) := by
  unfold DataChunk.data fetchChunk
  rw [List.getD_eq_getElem _ _ (by rwa [List.length_map]), List.getElem_map, List.getD_eq_getElem _ _ inside]

def picked {α : Type} (rows : List α) (sel : List Nat) : List α := sel.filterMap fun i => rows[i]?

theorem slice_map {rows : List (Nat × Row)} {sel : List Nat} (selects : ∀ i ∈ sel, i < rows.length)
    (f : Nat × Row → Cell Value) : slice (rows.map f) sel = (picked rows sel).map f := by
  induction sel with
  | nil => rfl
  | cons i sel ih =>
    obtain ⟨inside, selects⟩ := List.forall_mem_cons.mp selects
    have rest := ih selects
    unfold slice picked at rest ⊢
    rw [List.map_cons, rest, List.filterMap_cons_some (List.getElem?_eq_getElem inside), List.map_cons,
      List.getD_eq_getElem _ _ (by rwa [List.length_map]), List.getElem_map]

theorem picked_length {α : Type} {rows : List α} {sel : List Nat} (selects : ∀ i ∈ sel, i < rows.length) :
    (picked rows sel).length = sel.length := by
  induction sel with
  | nil => rfl
  | cons i sel ih =>
    obtain ⟨inside, selects⟩ := List.forall_mem_cons.mp selects
    unfold picked at ih ⊢
    rw [List.filterMap_cons_some (List.getElem?_eq_getElem inside), List.length_cons, ih selects,
      List.length_cons]

theorem picked_fetched {rowids sel : List Nat} :
    t.fetch ((picked (t.fetch rowids) sel).map Prod.fst) = picked (t.fetch rowids) sel := by
  apply fetch_visible
  intro entry kept
  obtain ⟨i, _, found⟩ := List.mem_filterMap.mp kept
  exact ((mem_fetch t).mp (List.mem_of_getElem? found)).2

section Split
variable {layout : FetchLayout Column} {rowids sel : List Nat}
  (selects : ∀ i ∈ sel, i < (t.fetch rowids).length)

theorem probed_data {k position : Nat} (found : (finalizeLayout layout).probePositions[k]? = some position) :
    (fetchChunk read t (finalizeLayout layout).probeColumnIds rowids).data k =
      (t.fetch rowids).map (cell read ((finalizeLayout layout).fetchColumnIds.getD position .rowId)) := by
  obtain ⟨inside, same⟩ := @columnsAt_at _ (finalizeLayout layout).fetchColumnIds _ _ _ found
  exact (fetchChunk_data inside).trans (congrArg (fun id => (t.fetch rowids).map (cell read id)) same)

include selects in
theorem hit_rowids : (slice ((fetchChunk read t (finalizeLayout layout).probeColumnIds rowids).data
    (finalizeLayout layout).probeRowidPosition) sel).map Cell.rowidOf =
      (picked (t.fetch rowids) sel).map Prod.fst := by
  obtain ⟨inside, column⟩ := probe_rowid layout
  rw [fetchChunk_data inside, column, slice_map selects, List.map_map]
  rfl

include selects in
theorem emitFetched_eq {extra : DataChunk Value}
    (completes : ∀ position, position < (finalizeLayout layout).fetchColumnIds.length →
      position ∉ (finalizeLayout layout).probePositions →
        extra.data ((finalizeLayout layout).extraPositions.idxOf position) = (picked (t.fetch rowids) sel).map
          (cell read ((finalizeLayout layout).fetchColumnIds.getD position .rowId))) :
    searchCoreEmitFetched (finalizeLayout layout)
        (fetchChunk read t (finalizeLayout layout).probeColumnIds rowids) extra sel =
      searchCoreEmit (finalizeLayout layout)
        (fetchChunk read t (finalizeLayout layout).fetchColumnIds rowids) sel := by
  have sources : (finalizeLayout layout).outputSources = layout.outputIds.map
      (outputSource (finalizeLayout layout).probePositions (finalizeLayout layout).extraPositions) := rfl
  have outputs : (finalizeLayout layout).outputIds = layout.outputIds := rfl
  unfold searchCoreEmitFetched searchCoreEmit
  rw [sources, outputs, List.map_map]
  refine congrArg (DataChunk.mk · _) (List.map_congr_left fun source listed => ?_)
  cases source with
  | none => rfl
  | some position =>
    have inside := ids_extended layout (layout.projected position listed)
    simp only [Function.comp_apply, outputSource]
    rw [fetchChunk_data inside]
    by_cases probed : position ∈ (finalizeLayout layout).probePositions
    · rw [if_pos probed]
      simp only
      rw [probed_data (getElem?_idxOf probed)]
    · rw [if_neg probed]
      simp only
      rw [completes position inside probed, slice_map selects]

end Split

/-- The two parts of a fetched candidate give the tuples of the whole layout, whatever
    columns it has, for every table, chunk of candidates and recheck; and the recheck
    reads the same values in both layouts. -/
theorem split_layout_same_tuples (read : Row → Column → Value) (t : DataTable Row) (layout : FetchLayout Column)
    (rowids : List Nat) (recheck : DataChunk Value → List Nat)
    (selects : ∀ chunk, ∀ i ∈ recheck chunk, i < chunk.size) :
    let final := finalizeLayout layout
    let probe := fetchChunk read t final.probeColumnIds rowids
    let whole := fetchChunk read t final.fetchColumnIds rowids
    (∀ k position, layout.recheckPositions[k]? = some position → probe.data k = whole.data position) ∧
      fetchCandidates read t final recheck rowids = .ok (if probe.size = 0 ∨ recheck probe = [] then none
        else some (searchCoreEmit final whole (recheck probe))) := by
  refine ⟨fun k position listed => ?_, ?_⟩
  · have place := recheck_place layout listed
    have inside := ids_extended layout (layout.rechecked position (List.mem_of_getElem? listed))
    rw [probed_data place, fetchChunk_data inside]
  · have within := selects (fetchChunk read t (finalizeLayout layout).probeColumnIds rowids)
    simp only [fetchCandidates]
    generalize recheck (fetchChunk read t (finalizeLayout layout).probeColumnIds rowids) = sel at within ⊢
    by_cases empty : (fetchChunk read t (finalizeLayout layout).probeColumnIds rowids).size = 0
    · simp [empty]
    by_cases nothing : sel = []
    · simp [nothing]
    simp only [empty, nothing, or_self, if_false]
    by_cases complete : (finalizeLayout layout).extraColumnIds = []
    · rw [if_pos complete, emitFetched_eq within]
      intro position inside unprobed
      have extra := extra_of_unprobed layout inside unprobed
      rw [extra_columns] at complete
      rw [List.map_eq_nil_iff.mp complete] at extra
      cases extra
    · rw [if_neg complete, hit_rowids within]
      have again : (fetchChunk read t (finalizeLayout layout).extraColumnIds
          ((picked (t.fetch rowids) sel).map Prod.fst)).size = sel.length := by
        simp only [fetchChunk, picked_fetched]
        exact picked_length within
      rw [if_neg (not_not.mpr again), emitFetched_eq within]
      intro position inside unprobed
      have extra := extra_of_unprobed layout inside unprobed
      obtain ⟨place, same⟩ := @columnsAt_at _ (finalizeLayout layout).fetchColumnIds _ _ _ (getElem?_idxOf extra)
      rw [extra_columns, fetchChunk_data place, picked_fetched]
      exact congrArg (fun id => (picked (t.fetch rowids) sel).map (cell read id)) same

/-- A projection with a repeated column, a counting one and the rowid last, over a
    table whose middle row is gone; the recheck keeps the second of the two rows left. -/
def repeatedLayout : FetchLayout Nat where
  fetchColumnIds := [.stored 3, .stored 0, .stored 3, .rowId]
  recheckPositions := [1]
  outputIds := [some 2, none, some 3, some 1, some 0]
  distinct := by decide
  rechecked := by decide
  projected position listed := by
    simp at listed ⊢
    omega

def threeSlots : DataTable Nat where
  rowGroups := [⟨10, [some 100, none, some 300]⟩]
  nextRowId := 13
  rowGroupSize := 4
  ascending := by decide
  allocated := by decide

theorem repeated_layout_emits :
    fetchCandidates (fun row column => row + column) threeSlots (finalizeLayout repeatedLayout)
        (fun chunk => if chunk.size = 2 then [1] else []) [10, 11, 12] =
      .ok (some ⟨[[.value 303], [.yes], [.rowid 12], [.value 300], [.value 303]], 1⟩) := by
  refine (split_layout_same_tuples (fun row column => row + column) threeSlots repeatedLayout [10, 11, 12]
    (fun chunk => if chunk.size = 2 then [1] else []) (fun chunk i listed => ?_)).2.trans (by decide)
  split at listed
  · rename_i two
    have := List.mem_singleton.mp listed
    omega
  · cases listed

end Emission
end NgramFetchLayout
