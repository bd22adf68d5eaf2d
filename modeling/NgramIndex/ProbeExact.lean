import NgramIndex.Fallible
import NgramIndex.Probe

/- The intersection that a probe decodes. Over a truthful segments table the
   manifest of a key is the key's visible rows, a segment is left out only when
   no rowid can lie in all selected lists, and each admitted segment decodes to
   its part of their intersection whatever the order of its grams. -/
namespace NgramProbe
open AscendingLists NgramPostings NgramPackSegment Fallible
variable {Key : Type} [DecidableEq Key]

def SegmentRow.rowids (row : SegmentRow Key) : List Nat :=
  match decodePostings row.postings with
  | .ok rowids => rowids
  | .error _ => []

/-- A row whose descriptor says what its blob holds. -/
structure Truthful (hwm : Int) (row : SegmentRow Key) (rowids : List Nat) : Prop where
  postings : row.postings = blobOf rowids
  ascending : Ascending rowids
  nonempty : rowids ≠ []
  rowidCount : row.rowidCount = rowids.length
  minRowid : rowids.head? = some row.minRowid.toNat
  maxRowid : rowids.getLast? = some row.maxRowid.toNat
  segmentNo : 0 ≤ row.segmentNo
  inside : ∀ r ∈ rowids, r / segmentRows = row.segmentNo.toNat ∧ (r : Int) ≤ hwm

/-- A row as a refresh or a merge writes it. -/
def writtenRow (postingRowid : Nat) (key : Key) (segmentNo generation : Nat) (rowids : List Nat) :
    SegmentRow Key where
  postingRowid := postingRowid
  gramKey := key
  segmentNo := segmentNo
  generation := generation
  postings := blobOf rowids
  rowidCount := rowids.length
  minRowid := rowids.headD 0
  maxRowid := rowids.getLastD 0

/-- A visible segments table of one index. Any number of generations may hold
    rows of a key and segment, but no rowid lies in two rows of one key. -/
structure WellFormed (visible : List (SegmentRow Key)) (hwm : Int) : Prop where
  mark : hwm < 2 ^ 63
  rowids : (visible.map SegmentRow.postingRowid).Nodup
  truthful : ∀ row ∈ visible, Truthful hwm row row.rowids
  generations : ∀ a ∈ visible, ∀ b ∈ visible, a.postingRowid ≠ b.postingRowid →
    a.gramKey = b.gramKey → ∀ r ∈ a.rowids, r ∉ b.rowids

def Posted (visible : List (SegmentRow Key)) (key : Key) (r : Nat) : Prop :=
  ∃ row ∈ visible, row.gramKey = key ∧ r ∈ row.rowids

def fetchFrom (visible : List (SegmentRow Key)) (rowid : Nat) : Option (SegmentRow Key) :=
  visible.find? fun row => decide (row.postingRowid = rowid)

def describe (gramIndex : Nat) (row : SegmentRow Key) : ProbeDescriptor where
  segmentNo := row.segmentNo.toNat
  gramIndex := gramIndex
  postingRowid := row.postingRowid
  postingCount := row.rowidCount.toNat
  minRowid := row.minRowid.toNat
  maxRowid := row.maxRowid.toNat

theorem appendRow_descriptors {keyIndex : Nat} {key : Key} {hwm : Int} {rows grown : GramRows}
    {row : SegmentRow Key} (run : appendRow keyIndex key hwm rows row = .ok grown) :
    grown.descriptors = rows.descriptors ++ [describe keyIndex row] := by
  obtain ⟨_, run⟩ := check_ok run
  obtain ⟨_, run⟩ := check_ok run
  obtain ⟨_, run⟩ := check_ok run
  obtain ⟨_, run⟩ := check_ok run
  obtain ⟨count, _, run⟩ := bind_ok run
  rw [← ok_inj run]
  rfl

theorem appendRows_descriptors {keyIndex : Nat} {key : Key} {hwm : Int} {rows grown : GramRows}
    {chunk : List (SegmentRow Key)} (run : chunk.foldlM (appendRow keyIndex key hwm) rows = .ok grown) :
    grown.descriptors = rows.descriptors ++ chunk.map (describe keyIndex) := by
  induction chunk generalizing rows with
  | nil =>
    obtain rfl : rows = grown := ok_inj run
    simp
  | cons row chunk ih =>
    obtain ⟨mid, first, rest⟩ := foldlM_cons_ok run
    rw [ih rest, appendRow_descriptors first]
    simp

theorem consumeChunks_descriptors {keyIndex : Nat} {key : Key} {hwm : Int} {maxRows : Nat}
    {chunks : List (List (SegmentRow Key))} {total : Nat} {rows : GramRows}
    {result : Nat × GramRows} (run : consumeChunks keyIndex key hwm maxRows chunks total rows =
      .ok (some result)) :
    result.2.descriptors = rows.descriptors ++ chunks.flatten.map (describe keyIndex) := by
  induction chunks generalizing total rows with
  | nil =>
    obtain rfl : (total, rows) = result := Option.some.inj (ok_inj run)
    simp
  | cons chunk rest ih =>
    rw [consumeChunks] at run
    split at run
    · cases ok_inj run
    · obtain ⟨mid, first, run⟩ := bind_ok run
      rw [ih run, appendRows_descriptors first]
      simp

/-- The rest is counted on from a key that was consumed, and not at all after a decline. -/
theorem consumeChunks_counted {keyIndex : Nat} {key : Key} {hwm : Int} {maxRows : Nat}
    {chunks : List (List (SegmentRow Key))} {total : Nat} {rows : GramRows} {found : Option (Nat × GramRows)}
    (rest : List Nat) : consumeChunks keyIndex key hwm maxRows chunks total rows = .ok found →
    match found with
    | none => maxRows < rowsCounted maxRows (chunks.map List.length ++ rest) total
    | some result => rowsCounted maxRows (chunks.map List.length ++ rest) total = rowsCounted maxRows rest result.1 := by
  intro run
  induction chunks generalizing total rows with
  | nil =>
    obtain rfl := ok_inj run
    rfl
  | cons chunk others ih =>
    rw [consumeChunks] at run
    rw [List.map_cons, List.cons_append, rowsCounted]
    by_cases past : total + chunk.length > maxRows
    · rw [if_pos past] at run ⊢
      obtain rfl := ok_inj run
      exact past
    · rw [if_neg past] at run ⊢
      obtain ⟨_, _, run⟩ := bind_ok run
      exact ih run

/-- A manifest is declined once more rows are counted than it may hold, and else all are counted. -/
theorem collectGramRows_counted {chunks : Key → List (List (SegmentRow Key))} {hwm : Int}
    {maxRows start total : Nat} {keys : List Key} {found : Option (Nat × List GramRows)} :
    collectGramRows chunks hwm maxRows start keys total = .ok found →
    match found with
    | none => maxRows < rowsCounted maxRows ((keys.flatMap chunks).map List.length) total
    | some result => rowsCounted maxRows ((keys.flatMap chunks).map List.length) total = result.1 := by
  intro run
  induction keys generalizing start total found with
  | nil =>
    obtain rfl := ok_inj run
    rfl
  | cons key keys ih =>
    rw [List.flatMap_cons, List.map_append]
    obtain ⟨first, consumed, run⟩ := bind_ok run
    have counted := consumeChunks_counted ((keys.flatMap chunks).map List.length) consumed
    cases first with
    | none =>
      obtain rfl := ok_inj run
      exact counted
    | some first =>
      obtain ⟨others, collected, run⟩ := bind_ok run
      have later := ih collected
      cases others with
      | none =>
        obtain rfl := ok_inj run
        exact counted ▸ later
      | some others =>
        obtain rfl := ok_inj run
        exact counted.trans later

theorem collectGramRows_descriptors {chunks : Key → List (List (SegmentRow Key))} {hwm : Int}
    {maxRows start total : Nat} {keys : List Key} {result : Nat × List GramRows}
    (run : collectGramRows chunks hwm maxRows start keys total = .ok (some result)) :
    result.2.map GramRows.descriptors =
      (keys.zipIdx start).map fun entry => (chunks entry.1).flatten.map (describe entry.2) := by
  induction keys generalizing start total result with
  | nil =>
    obtain rfl : (total, []) = result := Option.some.inj (ok_inj run)
    rfl
  | cons key keys ih =>
    obtain ⟨first, consumed, run⟩ := bind_ok run
    cases first with
    | none => cases ok_inj run
    | some first =>
      obtain ⟨others, collected, run⟩ := bind_ok run
      cases others with
      | none => cases ok_inj run
      | some others =>
        obtain rfl := Option.some.inj (ok_inj run)
        have head := consumeChunks_descriptors consumed
        simp only [List.map_cons, List.zipIdx_cons, ih collected, head, List.nil_append]

/-- The manifest of some keys, the gram index of each being its place. -/
def manifestOf (chunks : Key → List (List (SegmentRow Key))) (start : Nat) (keys : List Key) :
    List ProbeDescriptor :=
  (keys.zipIdx start).flatMap fun entry => (chunks entry.1).flatten.map (describe entry.2)

theorem rarestFirst_perm (counts : List Nat) : (rarestFirst counts).Perm (List.range counts.length) :=
  List.perm_insertionSort _ _

omit [DecidableEq Key] in
theorem picked_keys {keys : List Key} (order : List Nat) (inside : ∀ i ∈ order, i < keys.length) :
    List.Forall₂ (fun i key => keys[i]? = some key) order (order.filterMap fun i => keys[i]?) := by
  induction order with
  | nil => exact List.Forall₂.nil
  | cons i order ih =>
    have bound := inside i (by simp)
    have found : keys[i]? = some keys[i] := List.getElem?_eq_getElem bound
    rw [List.filterMap_cons_some found]
    exact List.Forall₂.cons found (ih fun j hj => inside j (by simp [hj]))

omit [DecidableEq Key] in
theorem picked_manifest {chunks : Key → List (List (SegmentRow Key))} {keys : List Key}
    {perKey : List GramRows} (collected : perKey.map GramRows.descriptors =
      keys.zipIdx.map fun entry => (chunks entry.1).flatten.map (describe entry.2))
    {order : List Nat} {selected : List Key} (start : Nat)
    (picked : List.Forall₂ (fun i key => keys[i]? = some key) order selected) :
    (order.zipIdx start).flatMap (fun entry =>
      (perKey.getD entry.1 ⟨[], 0⟩).descriptors.map fun d => { d with gramIndex := entry.2 }) =
    manifestOf chunks start selected := by
  induction picked generalizing start with
  | nil => rfl
  | @cons i key order selected found rest ih =>
    have at_i : (perKey.map GramRows.descriptors)[i]? = some ((chunks key).flatten.map (describe i)) := by
      rw [collected, List.getElem?_map, List.getElem?_zipIdx, found]
      simp
    obtain ⟨rows, perKey_i, rows_eq⟩ := by
      rw [List.getElem?_map, Option.map_eq_some_iff] at at_i
      exact at_i
    have here : (perKey.getD i ⟨[], 0⟩).descriptors = (chunks key).flatten.map (describe i) := by
      rw [List.getD_eq_getElem?_getD, perKey_i]
      exact rows_eq
    simp only [List.zipIdx_cons, List.flatMap_cons, manifestOf, here, List.map_map]
    rw [ih (start + 1)]
    rfl

omit [DecidableEq Key] in
theorem selectRarestGrams_spec {chunks : Key → List (List (SegmentRow Key))} {keys : List Key}
    {perKey : List GramRows} (maxGrams : Nat) (collected : perKey.map GramRows.descriptors =
      keys.zipIdx.map fun entry => (chunks entry.1).flatten.map (describe entry.2)) :
    (selectRarestGrams keys perKey maxGrams).1.length = min maxGrams keys.length ∧
    (∀ key ∈ (selectRarestGrams keys perKey maxGrams).1, key ∈ keys) ∧
    (keys.Nodup → (selectRarestGrams keys perKey maxGrams).1.Nodup) ∧
    (selectRarestGrams keys perKey maxGrams).2 =
      sortManifest (manifestOf chunks 0 (selectRarestGrams keys perKey maxGrams).1) := by
  have lengths : perKey.length = keys.length := by
    have same := congrArg List.length collected
    simpa using same
  generalize order_eq : (rarestFirst (perKey.map GramRows.rowCount)).take maxGrams = order
  have perm := rarestFirst_perm (perKey.map GramRows.rowCount)
  rw [List.length_map, lengths] at perm
  have inside : ∀ i ∈ order, i < keys.length := by
    intro i present
    rw [← order_eq] at present
    exact List.mem_range.mp (perm.mem_iff.mp (List.mem_of_mem_take present))
  have order_nodup : order.Nodup := by
    rw [← order_eq]
    exact (perm.nodup_iff.mpr List.nodup_range).sublist (List.take_sublist _ _)
  have picked := picked_keys order inside
  simp only [selectRarestGrams, order_eq]
  refine ⟨?_, ?_, ?_, ?_⟩
  · rw [← picked.length_eq, ← order_eq, List.length_take, perm.length_eq, List.length_range]
  · intro key present
    obtain ⟨i, _, found⟩ := List.mem_filterMap.mp present
    exact List.mem_of_getElem? found
  · intro distinct
    refine order_nodup.filterMap fun i j key at_i at_j => ?_
    exact (List.getElem?_inj (List.getElem?_eq_some_iff.mp at_i).1 distinct).mp
      ((Option.mem_def.mp at_i).trans (Option.mem_def.mp at_j).symm)
  · rw [picked_manifest collected 0 picked]

omit [DecidableEq Key] in
theorem manifest_gram (chunks : Key → List (List (SegmentRow Key))) (start g : Nat) (keys : List Key) :
    (manifestOf chunks start keys).filter (fun d => decide (d.gramIndex = start + g)) =
      ((keys[g]?.map fun key => (chunks key).flatten.map (describe (start + g))).getD []) := by
  induction keys generalizing start g with
  | nil => rfl
  | cons key keys ih =>
    have others : ∀ k ≤ start, (manifestOf chunks (start + 1) keys).filter
        (fun d => decide (d.gramIndex = k)) = [] := by
      intro k low
      simp only [manifestOf, List.filter_eq_nil_iff, List.mem_flatMap, List.mem_map]
      rintro d ⟨entry, present, row, _, rfl⟩
      have place := List.le_snd_of_mem_zipIdx present
      intro same
      have here : entry.2 = k := of_decide_eq_true same
      omega
    have unfolded : manifestOf chunks start (key :: keys) =
        (chunks key).flatten.map (describe start) ++ manifestOf chunks (start + 1) keys := by
      simp [manifestOf]
    rw [unfolded, List.filter_append]
    cases g with
    | zero =>
      rw [Nat.add_zero, others start (Nat.le_refl _), List.append_nil, List.filter_eq_self.mpr]
      · rfl
      · intro d present
        obtain ⟨row, _, rfl⟩ := List.mem_map.mp present
        simp [describe]
    | succ g =>
      have rest := ih (start + 1) g
      have place : start + 1 + g = start + (g + 1) := by omega
      rw [place] at rest
      rw [rest, List.filter_eq_nil_iff.mpr]
      · rfl
      · intro d present
        obtain ⟨row, _, rfl⟩ := List.mem_map.mp present
        simp [describe]

theorem checkedAdd_ok {target value sum : Nat} (run : checkedAdd target value = .ok sum) :
    sum = target + value := (ok_inj (check_ok run).2).symm

theorem checkedAdd_of_le {target value : Nat} (fits : target + value ≤ idxMax) :
    checkedAdd target value = .ok (target + value) := by
  rw [checkedAdd, if_neg (by omega)]

theorem sumCounts_ok {run : List ProbeDescriptor} {first count : Nat}
    (ok : run.foldlM (fun count d => checkedAdd count d.postingCount) first = .ok count) :
    count = first + (run.map ProbeDescriptor.postingCount).sum := by
  induction run generalizing first with
  | nil =>
    obtain rfl : first = count := ok_inj ok
    simp
  | cons d run ih =>
    obtain ⟨mid, head, rest⟩ := foldlM_cons_ok ok
    rw [ih rest, checkedAdd_ok head]
    simp only [List.map_cons, List.sum_cons]
    omega

def spanOf (run : List ProbeDescriptor) : GramSpan where
  count := (run.map ProbeDescriptor.postingCount).sum
  low := (run.map ProbeDescriptor.minRowid).foldl min ((run.map ProbeDescriptor.minRowid).headD 0)
  high := (run.map ProbeDescriptor.maxRowid).foldl max 0

theorem gramSpan_ok {run : List ProbeDescriptor} {span : GramSpan} (ok : gramSpan run = .ok span) :
    span = spanOf run := by
  obtain ⟨count, summed, ok⟩ := bind_ok ok
  rw [← ok_inj ok, sumCounts_ok summed, Nat.zero_add]
  rfl

def spansOf (group : List ProbeDescriptor) : List GramSpan :=
  (runsBy (fun d e => decide (d.gramIndex = e.gramIndex)) group).map spanOf

def spanLow (group : List ProbeDescriptor) : Nat := ((spansOf group).map GramSpan.low).foldl max 0

def spanHigh (group : List ProbeDescriptor) : Nat :=
  ((spansOf group).map GramSpan.high).foldl min (((spansOf group).map GramSpan.high).headD 0)

def admits (keyCount : Nat) (group : List ProbeDescriptor) : Bool :=
  decide ((spansOf group).length = keyCount) && decide (spanLow group ≤ spanHigh group)

def segmentOf (group : List ProbeDescriptor) : ProbeSegment where
  segmentNo := (group.map ProbeDescriptor.segmentNo).headD 0
  descriptors := group
  gramOrder := rarestFirst ((spansOf group).map GramSpan.count)

theorem spans_ok {group : List ProbeDescriptor} {spans : List GramSpan}
    (ok : (runsBy (fun d e => decide (d.gramIndex = e.gramIndex)) group).mapM gramSpan = .ok spans) :
    spans = spansOf group := by
  have each := mapM_ok ok
  clear ok
  rw [spansOf]
  generalize runsBy (fun d e => decide (d.gramIndex = e.gramIndex)) group = runs at each
  induction each with
  | nil => rfl
  | cons head _ ih => rw [List.map_cons, ← gramSpan_ok head, ih]

theorem chargeSegment_segments {limit capacity rows : Nat} {counts : List Nat} {a b : Admission}
    (ok : chargeSegment limit capacity rows counts a = .ok b) : b.segments = a.segments := by
  obtain ⟨estimated, _, ok⟩ := bind_ok ok
  split at ok
  · rw [← ok_inj ok]
  · obtain ⟨upper, _, ok⟩ := bind_ok ok
    obtain ⟨rows, _, ok⟩ := bind_ok ok
    obtain ⟨bytes, _, ok⟩ := bind_ok ok
    rw [← ok_inj ok]

theorem admitSegment_segments {keyCount limit : Nat} {hwm : Int} {a b : Admission}
    {group : List ProbeDescriptor} (ok : admitSegment keyCount hwm limit a group = .ok b) :
    b.segments = a.segments ++ if admits keyCount group then [segmentOf group] else [] := by
  obtain ⟨spans, spanned, ok⟩ := bind_ok ok
  obtain rfl := spans_ok spanned
  obtain ⟨_, ok⟩ := check_ok ok
  simp only [List.length_map] at ok
  split at ok
  · rename_i lacks
    rw [← ok_inj ok]
    simp [admits, lacks]
  · rename_i holds
    have all_grams : (spansOf group).length = keyCount := not_not.mp holds
    split at ok
    · rename_i apart
      have none_shared : ¬ spanLow group ≤ spanHigh group := Nat.not_le.mpr apart
      rw [← ok_inj ok]
      simp [admits, none_shared]
    · rename_i meets
      have shared : spanLow group ≤ spanHigh group := Nat.le_of_not_lt meets
      have admitted : admits keyCount group = true := by simp [admits, all_grams, shared]
      rw [admitted, if_pos rfl]
      split at ok
      · rw [← ok_inj ok]
        rfl
      · exact chargeSegment_segments ok

theorem admitSegments_segments {keyCount limit : Nat} {hwm : Int} {descriptors : List ProbeDescriptor}
    {a : Admission} (ok : admitSegments keyCount hwm limit descriptors = .ok a) :
    a.segments = ((runsBy (fun d e => decide (d.segmentNo = e.segmentNo)) descriptors).filter
      (admits keyCount)).map segmentOf := by
  refine foldlM_prefix (fun done (a : Admission) =>
    a.segments = (done.filter (admits keyCount)).map segmentOf) _ ?_ rfl ok
  intro done group a b held run
  rw [admitSegment_segments run, held, List.filter_append, List.map_append]
  by_cases admitted : admits keyCount group = true
  · simp [admitted]
  · simp [admitted]

theorem place_le {a b : ProbeDescriptor} (le : a.place ≤ b.place) : a.segmentNo ≤ b.segmentNo ∧
    (a.segmentNo = b.segmentNo → a.gramIndex ≤ b.gramIndex) := by
  simp only [ProbeDescriptor.place, Prod.Lex.toLex_le_toLex] at le
  omega

theorem sortManifest_sorted (l : List ProbeDescriptor) :
    (sortManifest l).Pairwise fun a b => a.place ≤ b.place := by
  have mapped : (sortManifest l).map ProbeDescriptor.place =
      (l.map ProbeDescriptor.place).insertionSort (· ≤ ·) :=
    List.map_insertionSort _ _ ProbeDescriptor.place l fun _ _ _ _ => Iff.rfl
  have sorted := List.pairwise_insertionSort (· ≤ ·) (l.map ProbeDescriptor.place)
  rw [← mapped] at sorted
  exact List.pairwise_map.mp sorted

/-- The slice of a sorted manifest that describes one segment. -/
def groupAt (descriptors : List ProbeDescriptor) (segmentNo : Nat) : List ProbeDescriptor :=
  descriptors.filter fun d => decide (d.segmentNo = segmentNo)

def gramAt (group : List ProbeDescriptor) (gramIndex : Nat) : List ProbeDescriptor :=
  group.filter fun d => decide (d.gramIndex = gramIndex)

theorem groups_eq {descriptors : List ProbeDescriptor}
    (sorted : descriptors.Pairwise fun a b => a.place ≤ b.place) :
    runsBy (fun d e => decide (d.segmentNo = e.segmentNo)) descriptors =
      (unique (descriptors.map ProbeDescriptor.segmentNo)).map (groupAt descriptors) :=
  runsBy_key ProbeDescriptor.segmentNo descriptors
    (List.pairwise_map.mpr (sorted.imp fun le => (place_le le).1))

theorem group_grams_sorted {descriptors : List ProbeDescriptor}
    (sorted : descriptors.Pairwise fun a b => a.place ≤ b.place) (segmentNo : Nat) :
    ((groupAt descriptors segmentNo).map ProbeDescriptor.gramIndex).Pairwise (· ≤ ·) := by
  have kept := sorted.sublist (List.filter_sublist (p := fun d => decide (d.segmentNo = segmentNo)))
  refine List.pairwise_map.mpr (kept.imp_of_mem fun {a b} ha hb le => (place_le le).2 ?_)
  have at_a : a.segmentNo = segmentNo := by simpa using (List.mem_filter.mp ha).2
  have at_b : b.segmentNo = segmentNo := by simpa using (List.mem_filter.mp hb).2
  rw [at_a, at_b]

theorem grams_eq {group : List ProbeDescriptor}
    (sorted : (group.map ProbeDescriptor.gramIndex).Pairwise (· ≤ ·)) :
    runsBy (fun d e => decide (d.gramIndex = e.gramIndex)) group =
      (unique (group.map ProbeDescriptor.gramIndex)).map (gramAt group) :=
  runsBy_key ProbeDescriptor.gramIndex group sorted

/-- In a list sorted by gram the range of one gram is what DecodeDescriptorRange
    walks to. -/
theorem range_eq_gramAt {group : List ProbeDescriptor} (gramIndex : Nat)
    (sorted : (group.map ProbeDescriptor.gramIndex).Pairwise (· ≤ ·)) :
    (group.dropWhile fun d => decide (d.gramIndex ≠ gramIndex)).takeWhile
      (fun d => decide (d.gramIndex = gramIndex)) = gramAt group gramIndex := by
  induction group with
  | nil => rfl
  | cons d group ih =>
    obtain ⟨low, rest_sorted⟩ := List.pairwise_cons.mp sorted
    by_cases here : d.gramIndex = gramIndex
    · rw [List.dropWhile_cons_of_neg (by simp [here]), List.takeWhile_cons_of_pos (by simp [here]),
        gramAt, List.filter_cons_of_pos (by simp [here])]
      congr 1
      -- From here on the gram indexes only grow, so the kept ones are a prefix.
      clear ih sorted
      induction group with
      | nil => rfl
      | cons e group ih =>
        obtain ⟨e_low, group_sorted⟩ := List.pairwise_cons.mp rest_sorted
        by_cases same : e.gramIndex = gramIndex
        · rw [List.takeWhile_cons_of_pos (by simp [same]), List.filter_cons_of_pos (by simp [same]),
            ih (fun g hg => low g (List.mem_cons_of_mem _ hg)) group_sorted]
        · have above : gramIndex < e.gramIndex := by
            have le := low e.gramIndex (by simp)
            omega
          rw [List.takeWhile_cons_of_neg (by simp [same]), List.filter_cons_of_neg (by simp [same]),
            eq_comm, List.filter_eq_nil_iff]
          intro f present
          have le := e_low f.gramIndex (List.mem_map_of_mem present)
          simp only [decide_eq_true_eq]
          omega
    · rw [List.dropWhile_cons_of_pos (by simp [here]), gramAt,
        List.filter_cons_of_neg (by simp [here])]
      exact ih rest_sorted

omit [DecidableEq Key] in
/-- What a fetched row decodes to, and what its manifest entry says of it. -/
theorem truthful_decodes {hwm : Int} {row : SegmentRow Key} (mark : hwm < 2 ^ 63)
    (truthful : Truthful hwm row row.rowids) :
    decodePostings row.postings = .ok row.rowids ∧
      postingsCount row.postings = .ok row.rowids.length ∧ row.rowids.length ≤ segmentRows := by
  have window : row.rowids.length ≤ segmentRows := by
    refine @window_length row.rowids (row.segmentNo.toNat * segmentRows) _
      (ascending_nodup truthful.ascending) fun r hr => ?_
    have inside := (truthful.inside r hr).1
    simp only [segmentRows, segmentShift] at inside ⊢
    omega
  have short : row.rowids.length ≤ int64Max := by
    simp only [segmentRows, segmentShift, int64Max] at window ⊢
    omega
  have bounded : ∀ r ∈ row.rowids, r ≤ int64Max := by
    intro r hr
    have le := (truthful.inside r hr).2
    simp only [int64Max]
    omega
  have decoded := decode_blobOf truthful.ascending bounded short
  have counted := postingsCount_blobOf short
  rw [← truthful.postings] at decoded counted
  exact ⟨decoded, counted, window⟩

omit [DecidableEq Key] in
theorem writtenRow_rowids (postingRowid : Nat) (key : Key) (segmentNo generation : Nat)
    {rowids : List Nat} (asc : Ascending rowids) (bounded : ∀ r ∈ rowids, r ≤ int64Max)
    (short : rowids.length ≤ int64Max) :
    (writtenRow postingRowid key segmentNo generation rowids).rowids = rowids := by
  simp only [SegmentRow.rowids, writtenRow, decode_blobOf asc bounded short]

omit [DecidableEq Key] in
theorem writtenRow_truthful {hwm : Int} (postingRowid : Nat) (key : Key) {segmentNo : Nat}
    (generation : Nat) {rowids : List Nat} (mark : hwm < 2 ^ 63) (asc : Ascending rowids)
    (nonempty : rowids ≠ []) (inside : ∀ r ∈ rowids, r / segmentRows = segmentNo ∧ (r : Int) ≤ hwm) :
    Truthful hwm (writtenRow postingRowid key segmentNo generation rowids)
      (writtenRow postingRowid key segmentNo generation rowids).rowids := by
  have bounded : ∀ r ∈ rowids, r ≤ int64Max := fun r hr => by
    have le := (inside r hr).2
    simp only [int64Max]
    omega
  have window : rowids.length ≤ segmentRows := by
    refine @window_length rowids (segmentNo * segmentRows) _ (ascending_nodup asc) fun r hr => ?_
    have here := (inside r hr).1
    simp only [segmentRows, segmentShift] at here ⊢
    omega
  rw [writtenRow_rowids postingRowid key segmentNo generation asc bounded
    (by simp only [segmentRows, segmentShift, int64Max] at window ⊢; omega)]
  refine ⟨rfl, asc, nonempty, rfl, ?_, ?_, Int.natCast_nonneg _, by simpa [writtenRow] using inside⟩
  · obtain ⟨first, rest, rfl⟩ := List.exists_cons_of_ne_nil nonempty
    rfl
  · rw [List.getLast?_eq_some_getLast nonempty]
    simp [writtenRow, List.getLastD_eq_getLast?, List.getLast?_eq_some_getLast nonempty]

omit [DecidableEq Key] in
theorem fetchFrom_eq {visible : List (SegmentRow Key)} {row : SegmentRow Key}
    (unique_rowids : (visible.map SegmentRow.postingRowid).Nodup) (present : row ∈ visible) :
    fetchFrom visible row.postingRowid = some row := by
  obtain ⟨found, eq⟩ : ∃ found, fetchFrom visible row.postingRowid = some found := by
    refine Option.isSome_iff_exists.mp (List.find?_isSome.mpr ⟨row, present, by simp⟩)
  have same : found.postingRowid = row.postingRowid := by
    have kept := List.find?_some eq
    simpa using kept
  have member : found ∈ visible := List.mem_of_find?_eq_some eq
  rw [eq, List.inj_on_of_nodup_map unique_rowids member present same]

def rowsAt (visible : List (SegmentRow Key)) (key : Key) (segmentNo : Nat) : List (SegmentRow Key) :=
  (visible.filter fun row => decide (row.gramKey = key)).filter
    fun row => decide (row.segmentNo.toNat = segmentNo)

theorem mem_rowsAt {visible : List (SegmentRow Key)} {key : Key} {segmentNo : Nat}
    {row : SegmentRow Key} : row ∈ rowsAt visible key segmentNo ↔
      row ∈ visible ∧ row.gramKey = key ∧ row.segmentNo.toNat = segmentNo := by
  simp only [rowsAt, List.mem_filter, decide_eq_true_eq, and_assoc]

theorem gram_rows {visible : List (SegmentRow Key)} {chunks : Key → List (List (SegmentRow Key))}
    {keys : List Key} (scans : ∀ key ∈ keys, (chunks key).flatten.Perm
      (visible.filter fun row => decide (row.gramKey = key)))
    {g : Nat} {key : Key} (at_g : keys[g]? = some key) (segmentNo : Nat) :
    (gramAt (groupAt (sortManifest (manifestOf chunks 0 keys)) segmentNo) g).Perm
      ((rowsAt visible key segmentNo).map (describe g)) := by
  have whole := manifest_gram chunks 0 g keys
  rw [at_g, Nat.zero_add] at whole
  have sorted : (sortManifest (manifestOf chunks 0 keys)).Perm (manifestOf chunks 0 keys) :=
    List.perm_insertionSort _ _
  have commuted : gramAt (groupAt (sortManifest (manifestOf chunks 0 keys)) segmentNo) g =
      ((sortManifest (manifestOf chunks 0 keys)).filter fun d => decide (d.gramIndex = g)).filter
        fun d => decide (d.segmentNo = segmentNo) := by
    simp only [gramAt, groupAt, List.filter_filter, Bool.and_comm]
  have kept : ((manifestOf chunks 0 keys).filter fun d => decide (d.gramIndex = g)) =
      (chunks key).flatten.map (describe g) := whole
  rw [commuted]
  refine ((sorted.filter _).filter _).trans ?_
  rw [kept, List.filter_map]
  exact ((scans key (List.mem_of_getElem? at_g)).filter _).map _

def decodedRows (rows : List (SegmentRow Key)) : List Nat := rows.flatMap SegmentRow.rowids

theorem appendPostings_ok (plan : ProbePlan Key) {segmentNo g expected : Nat} {hwm : Int}
    {postings : List Nat} {row : SegmentRow Key} {key : Key} (mark : hwm < 2 ^ 63)
    (truthful : Truthful hwm row row.rowids) (at_g : plan.keys[g]? = some key)
    (of_key : row.gramKey = key) (of_segment : row.segmentNo.toNat = segmentNo)
    (room : postings.length + row.rowids.length ≤ expected) :
    appendPostings plan segmentNo g expected postings (describe g row, row) =
      .ok (postings ++ row.rowids) := by
  obtain ⟨decoded, counted, _⟩ := truthful_decodes mark truthful
  have counts : row.rowidCount = row.rowids.length := truthful.rowidCount
  have filled := List.length_pos_of_ne_nil truthful.nonempty
  have positive := truthful.segmentNo
  have agrees : ¬ (plan.keys[g]? ≠ some row.gramKey ∨ row.segmentNo ≠ segmentNo ∨
      row.rowidCount ≤ 0 ∨ row.rowidCount.toNat ≠ (describe g row).postingCount ∨
      row.rowids.length ≠ (describe g row).postingCount ∨
      expected - postings.length < row.rowids.length) := by
    simp only [describe, at_g, of_key, counts, not_or]
    refine ⟨by simp, ?_⟩
    omega
  have spans : ¬ (row.rowids.head? ≠ some (describe g row).minRowid ∨
      row.rowids.getLast? ≠ some (describe g row).maxRowid) := by
    simp [describe, truthful.minRowid, truthful.maxRowid]
  simp only [appendPostings, counted, decoded, bind, Except.bind, if_neg agrees, if_neg spans, pure,
    Except.pure]

theorem appendPostings_all (plan : ProbePlan Key) (segmentNo expected : Nat) {g : Nat} {hwm : Int}
    {key : Key} (mark : hwm < 2 ^ 63) (at_g : plan.keys[g]? = some key) (rows : List (SegmentRow Key))
    (postings : List Nat) (each : ∀ row ∈ rows, Truthful hwm row row.rowids ∧ row.gramKey = key ∧
      row.segmentNo.toNat = segmentNo)
    (room : postings.length + (decodedRows rows).length ≤ expected) :
    (rows.map fun row => (describe g row, row)).foldlM (appendPostings plan segmentNo g expected)
      postings = .ok (postings ++ decodedRows rows) := by
  induction rows generalizing postings with
  | nil => simp [decodedRows, pure, Except.pure]
  | cons row rows ih =>
    obtain ⟨truthful, of_key, of_segment⟩ := each row (by simp)
    simp only [decodedRows, List.flatMap_cons, List.length_append] at room
    have first := appendPostings_ok plan mark truthful at_g of_key of_segment
      (show postings.length + row.rowids.length ≤ expected by omega)
    have later := ih (postings ++ row.rowids) (fun other ho => each other (by simp [ho]))
      (by simp only [List.length_append, decodedRows]; omega)
    simp only [List.map_cons, List.foldlM_cons, first, bind, Except.bind]
    rw [later]
    simp [decodedRows]

omit [DecidableEq Key] in
theorem fetchRows_ok {visible : List (SegmentRow Key)} (g : Nat)
    (unique_rowids : (visible.map SegmentRow.postingRowid).Nodup) (rows : List (SegmentRow Key))
    (present : ∀ row ∈ rows, row ∈ visible) :
    fetchRows (fetchFrom visible) (rows.map (describe g)) =
      .ok (rows.map fun row => (describe g row, row)) := by
  induction rows with
  | nil => rfl
  | cons row rows ih =>
    have found : fetchFrom visible (describe g row).postingRowid = some row :=
      fetchFrom_eq unique_rowids (present row (by simp))
    have rest := ih fun other ho => present other (by simp [ho])
    simp only [fetchRows, List.map_cons, List.mapM_cons, found, bind, Except.bind] at rest ⊢
    rw [rest]
    rfl

/-- However the range is cut into fetch batches, the batches append what the
    rows decode to. -/
theorem fetchBatches_ok (plan : ProbePlan Key) (segmentNo expected : Nat)
    {visible : List (SegmentRow Key)} {hwm : Int} {g : Nat} {key : Key} (wf : WellFormed visible hwm)
    (at_g : plan.keys[g]? = some key) (batches : List (List ProbeDescriptor))
    (rows : List (SegmentRow Key)) (postings : List Nat)
    (cut : batches.flatten = rows.map (describe g))
    (each : ∀ row ∈ rows, row ∈ visible ∧ row.gramKey = key ∧ row.segmentNo.toNat = segmentNo)
    (room : postings.length + (decodedRows rows).length ≤ expected) :
    batches.foldlM (fun postings batch => do
      let rows ← fetchRows (fetchFrom visible) batch
      rows.foldlM (appendPostings plan segmentNo g expected) postings) postings =
      .ok (postings ++ decodedRows rows) := by
  induction batches generalizing rows postings with
  | nil =>
    have none_left : rows = [] := by simpa using cut.symm
    simp [none_left, decodedRows, pure, Except.pure]
  | cons batch batches ih =>
    rw [List.flatten_cons, eq_comm, List.map_eq_append_iff] at cut
    obtain ⟨here, later, rfl, here_eq, later_eq⟩ := cut
    simp only [decodedRows, List.flatMap_append, List.length_append] at room
    have fetched := fetchRows_ok g wf.rowids here fun row hr => (each row (by simp [hr])).1
    have appended := appendPostings_all plan segmentNo expected wf.mark at_g here postings
      (fun row hr => ⟨wf.truthful row (each row (by simp [hr])).1, (each row (by simp [hr])).2⟩)
      (by simp only [decodedRows]; omega)
    have rest := ih later (postings ++ decodedRows here) later_eq.symm
      (fun row hr => each row (by simp [hr]))
      (by simp only [List.length_append, decodedRows]; omega)
    simp only [List.foldlM_cons, ← here_eq, fetched, appended, bind, Except.bind] at rest ⊢
    rw [rest]
    simp [decodedRows]

theorem sumCounts_of_le (run : List ProbeDescriptor) (first : Nat)
    (fits : first + (run.map ProbeDescriptor.postingCount).sum ≤ idxMax) :
    run.foldlM (fun count d => checkedAdd count d.postingCount) first =
      .ok (first + (run.map ProbeDescriptor.postingCount).sum) := by
  induction run generalizing first with
  | nil => rfl
  | cons d run ih =>
    simp only [List.map_cons, List.sum_cons] at fits ⊢
    rw [List.foldlM_cons, checkedAdd_of_le (by omega)]
    simp only [bind, Except.bind]
    rw [ih _ (by omega), Nat.add_assoc]

/-- The manifest slice of a segment describes the rows of every selected key. -/
structure Covers (visible : List (SegmentRow Key)) (keys : List Key) (segment : ProbeSegment) :
    Prop where
  sorted : (segment.descriptors.map ProbeDescriptor.gramIndex).Pairwise (· ≤ ·)
  rows : ∀ (g : Nat) (key : Key), keys[g]? = some key → (gramAt segment.descriptors g).Perm
    ((rowsAt visible key segment.segmentNo).map (describe g))

def PostedIn (visible : List (SegmentRow Key)) (key : Key) (segmentNo r : Nat) : Prop :=
  Posted visible key r ∧ r / segmentRows = segmentNo

theorem mem_decodedRows {visible rows : List (SegmentRow Key)} {hwm : Int} {key : Key}
    {segmentNo : Nat} (wf : WellFormed visible hwm) (perm : rows.Perm (rowsAt visible key segmentNo))
    (r : Nat) : r ∈ decodedRows rows ↔ PostedIn visible key segmentNo r := by
  simp only [decodedRows, List.mem_flatMap, perm.mem_iff, mem_rowsAt]
  constructor
  · rintro ⟨row, ⟨present, of_key, of_segment⟩, posted⟩
    refine ⟨⟨row, present, of_key, posted⟩, ?_⟩
    rw [((wf.truthful row present).inside r posted).1, of_segment]
  · rintro ⟨⟨row, present, of_key, posted⟩, of_segment⟩
    refine ⟨row, ⟨present, of_key, ?_⟩, posted⟩
    rw [← ((wf.truthful row present).inside r posted).1, of_segment]

theorem decodedRows_nodup {visible rows : List (SegmentRow Key)} {hwm : Int} {key : Key}
    {segmentNo : Nat} (wf : WellFormed visible hwm)
    (perm : rows.Perm (rowsAt visible key segmentNo)) : (decodedRows rows).Nodup := by
  have listed : ∀ row ∈ rows, row ∈ visible ∧ row.gramKey = key ∧ row.segmentNo.toNat = segmentNo :=
    fun row hr => mem_rowsAt.mp (perm.mem_iff.mp hr)
  have sub : (rowsAt visible key segmentNo).Sublist visible :=
    List.filter_sublist.trans List.filter_sublist
  have ids : (rows.map SegmentRow.postingRowid).Nodup :=
    (perm.map _).nodup_iff.mpr (wf.rowids.sublist (sub.map _))
  refine List.nodup_flatMap.mpr ⟨fun row hr => ?_, ?_⟩
  · exact ascending_nodup (wf.truthful row (listed row hr).1).ascending
  · refine (List.pairwise_map.mp ids).imp_of_mem fun {a b} ha hb differ => ?_
    intro r in_a in_b
    obtain ⟨a_present, a_key, _⟩ := listed a ha
    obtain ⟨b_present, b_key, _⟩ := listed b hb
    exact wf.generations a a_present b b_present differ (a_key.trans b_key.symm) r in_a in_b

theorem decodedRows_length {visible rows : List (SegmentRow Key)} {hwm : Int} {key : Key}
    {segmentNo : Nat} (wf : WellFormed visible hwm)
    (perm : rows.Perm (rowsAt visible key segmentNo)) : (decodedRows rows).length ≤ segmentRows := by
  refine @window_length _ (segmentNo * segmentRows) _ (decodedRows_nodup wf perm) fun r hr => ?_
  have inside := ((mem_decodedRows wf perm r).mp hr).2
  simp only [segmentRows, segmentShift] at inside ⊢
  omega

omit [DecidableEq Key] in
theorem counts_decodedRows {visible : List (SegmentRow Key)} {hwm : Int} (g : Nat)
    (wf : WellFormed visible hwm) (rows : List (SegmentRow Key))
    (present : ∀ row ∈ rows, row ∈ visible) :
    ((rows.map (describe g)).map ProbeDescriptor.postingCount).sum = (decodedRows rows).length := by
  induction rows with
  | nil => rfl
  | cons row rows ih =>
    have count := (wf.truthful row (present row (by simp))).rowidCount
    have rest := ih fun other ho => present other (by simp [ho])
    simp only [List.map_cons, List.sum_cons, decodedRows, List.flatMap_cons, List.length_append] at rest ⊢
    simp only [describe] at rest ⊢
    omega

/-- One gram of one segment decodes to its posted rowids, in ascending order. -/
theorem decodeDescriptorRange_spec {plan : ProbePlan Key} {visible : List (SegmentRow Key)}
    {segment : ProbeSegment} {g : Nat} {key : Key} (wf : WellFormed visible plan.hwm)
    (covers : Covers visible plan.keys segment) (at_g : plan.keys[g]? = some key)
    (posted : ∃ r, PostedIn visible key segment.segmentNo r) :
    ∃ postings, decodeDescriptorRange plan (fetchFrom visible) segment g = .ok postings ∧
      Ascending postings ∧ ∀ r, r ∈ postings ↔ PostedIn visible key segment.segmentNo r := by
  obtain ⟨rows, perm, range_eq⟩ := perm_of_map (covers.rows g key at_g)
  have listed : ∀ row ∈ rows, row ∈ visible ∧ row.gramKey = key ∧
      row.segmentNo.toNat = segment.segmentNo := fun row hr => mem_rowsAt.mp (perm.mem_iff.mp hr)
  have members := mem_decodedRows wf perm
  have distinct := decodedRows_nodup wf perm
  have short := decodedRows_length wf perm
  have some_row : rows ≠ [] := by
    rintro rfl
    obtain ⟨r, inside⟩ := posted
    simpa [decodedRows] using (members r).mpr inside
  have sum := counts_decodedRows g wf rows fun row hr => (listed row hr).1
  have summed := sumCounts_of_le (rows.map (describe g)) 0 (by
    rw [sum]
    simp only [segmentRows, segmentShift, idxMax] at short ⊢
    omega)
  rw [sum, Nat.zero_add] at summed
  have batches := fetchBatches_ok plan segment.segmentNo (decodedRows rows).length wf at_g
    (vectorBatches (rows.map (describe g))) rows [] (vectorBatches_flatten _) listed (by simp)
  rw [List.nil_append] at batches
  -- One generation is ascending already, several are sorted and hold no repeat.
  have sorted : ∃ postings, (if 1 < (rows.map (describe g)).length then
      (decodedRows rows).insertionSort (· ≤ ·) else decodedRows rows) = postings ∧
      Ascending postings ∧ ∀ r, r ∈ postings ↔ PostedIn visible key segment.segmentNo r := by
    refine ⟨_, rfl, ?_⟩
    split
    · exact ⟨insertionSort_ascending distinct, fun r => (List.mem_insertionSort _).trans (members r)⟩
    · rename_i single
      obtain ⟨row, rest, rfl⟩ := List.exists_cons_of_ne_nil some_row
      have alone : rest = [] := by
        rw [List.length_map, List.length_cons] at single
        exact List.eq_nil_of_length_eq_zero (by omega)
      subst alone
      refine ⟨?_, members⟩
      have asc := (wf.truthful row (listed row (by simp)).1).ascending
      simpa [decodedRows] using asc
  obtain ⟨postings, sorted_eq, asc, mem⟩ := sorted
  have no_repeat : ¬ (1 < (rows.map (describe g)).length ∧ ¬ postings.IsChain (· ≠ ·)) := by
    rintro ⟨_, repeated⟩
    exact repeated (ascending_nodup asc).isChain
  have inside : ¬ ∃ rowid ∈ postings, rowid < segment.segmentNo * segmentRows ∨
      segment.segmentNo * segmentRows + segmentRows ≤ rowid ∨ plan.hwm < (rowid : Int) := by
    rintro ⟨r, present, outside⟩
    obtain ⟨⟨row, row_present, _, posted⟩, of_segment⟩ := (mem r).mp present
    have bound := ((wf.truthful row row_present).inside r posted).2
    simp only [segmentRows, segmentShift] at of_segment outside
    omega
  refine ⟨postings, ?_, asc, mem⟩
  have some_range : rows.map (describe g) ≠ [] := by simpa using some_row
  rw [decodeDescriptorRange, range_eq_gramAt g covers.sorted, range_eq]
  refine (bind_of_ok summed).trans ((check_of_not some_range).trans ((bind_of_ok batches).trans ?_))
  refine (check_of_not (by simp)).trans ?_
  simp only [sorted_eq]
  exact (check_of_not no_repeat).trans ((check_of_not inside).trans rfl)

end NgramProbe
