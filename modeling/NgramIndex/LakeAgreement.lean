import NgramIndex.LakeIntersection
import NgramIndex.ProbeIntersection

/- Two intersections of one table. The lake reads its rows one by one into an
   ordered map of segments; the native probe plans its segments from a sorted
   manifest. Where each row holds rowids of its own segment, both give the rowids
   that every key posts, in order. -/
namespace NgramLake
open AscendingLists Fallible NgramGram NgramPostings NgramPackSegment NgramProbe

/-- The segments read so far, ascending, and the rows of each by chosen key. -/
structure SegmentMap where
  numbers : List Int
  byKey : Int → List (List PostingRow)

def SegmentMap.empty (chosen : List Uhugeint) : SegmentMap := ⟨[], fun _ => chosen.map fun _ => []⟩

def SegmentMap.readRow (chosen : List Uhugeint) (segments : SegmentMap) (row : PostingRow) : SegmentMap :=
  let position := chosen.idxOf row.gramKey
  if position = chosen.length then segments
  else
    { numbers := if row.segmentNo ∈ segments.numbers then segments.numbers
        else segments.numbers.orderedInsert (· ≤ ·) row.segmentNo
      byKey := fun segmentNo =>
        if segmentNo = row.segmentNo then (segments.byKey segmentNo).modify position (· ++ [row])
        else segments.byKey segmentNo }

def readSegments (rows : List PostingRow) (chosen : List Uhugeint) : SegmentMap :=
  rows.foldl (SegmentMap.readRow chosen) (SegmentMap.empty chosen)

/-- IntersectPostings as its loop runs, row by row. -/
def intersectByRow (rows : List PostingRow) (chosen : List Uhugeint) : Except String (List Nat) := do
  let segments := readSegments rows chosen
  let lists ← segments.numbers.mapM fun segmentNo => intersectSegment (segments.byKey segmentNo)
  return lists.flatten

def ChosenLocated (rows : List PostingRow) (chosen : List Uhugeint) : Prop :=
  ∀ row ∈ rows, row.gramKey ∈ chosen → ∃ rowids, decodePostings row.postings = .ok rowids ∧
    ∀ r ∈ rowids, ((r / segmentRows : Nat) : Int) = row.segmentNo

section reading
variable {rows : List PostingRow} {chosen : List Uhugeint} {row : PostingRow}

theorem segmentKeys_snoc_other (foreign : row.gramKey ∉ chosen) (segmentNo : Int) :
    segmentKeys (rows ++ [row]) chosen segmentNo = segmentKeys rows chosen segmentNo := by
  unfold segmentKeys
  refine List.map_congr_left fun key listed => ?_
  have apart : row.gramKey ≠ key := by
    rintro rfl
    exact foreign listed
  simp [List.filter_append, apart]

theorem segmentKeys_snoc_apart {segmentNo : Int} (apart : segmentNo ≠ row.segmentNo) :
    segmentKeys (rows ++ [row]) chosen segmentNo = segmentKeys rows chosen segmentNo := by
  unfold segmentKeys
  refine List.map_congr_left fun key _ => ?_
  simp [List.filter_append, apart.symm]

theorem segmentKeys_snoc_wanted (distinct : chosen.Nodup) (wanted : row.gramKey ∈ chosen) :
    segmentKeys (rows ++ [row]) chosen row.segmentNo =
      (segmentKeys rows chosen row.segmentNo).modify (chosen.idxOf row.gramKey) (· ++ [row]) := by
  have bound := List.idxOf_lt_length_iff.mpr wanted
  refine List.ext_getElem (by simp [segmentKeys]) fun i left _ => ?_
  have inside : i < chosen.length := by simpa [segmentKeys] using left
  rw [List.getElem_modify]
  simp only [segmentKeys, List.getElem_map, List.filter_append]
  by_cases here : chosen.idxOf row.gramKey = i
  · subst here
    simp
  · have apart : row.gramKey ≠ chosen[i] := by
      intro same
      have at_i : chosen[chosen.idxOf row.gramKey] = chosen[i] := by rw [List.getElem_idxOf, same]
      exact here (distinct.getElem_inj_iff.mp at_i)
    simp [here, apart]

theorem mem_chosenSegments {segmentNo : Int} : segmentNo ∈ chosenSegments rows chosen ↔
    ∃ row ∈ rows, row.gramKey ∈ chosen ∧ row.segmentNo = segmentNo := by
  simp [chosenSegments, and_assoc]

theorem chosenSegments_ascending (rows : List PostingRow) (chosen : List Uhugeint) :
    Ascending (chosenSegments rows chosen) := sortUnique_ascending _

theorem readSegments_spec (distinct : chosen.Nodup) (rows : List PostingRow) :
    (readSegments rows chosen).numbers = chosenSegments rows chosen ∧
      ∀ segmentNo, (readSegments rows chosen).byKey segmentNo = segmentKeys rows chosen segmentNo := by
  induction rows using List.reverseRecOn with
  | nil => exact ⟨rfl, fun segmentNo => by simp [readSegments, SegmentMap.empty, segmentKeys]⟩
  | append_singleton rows row ih =>
    obtain ⟨numbers, byKey⟩ := ih
    have folded : readSegments (rows ++ [row]) chosen = (readSegments rows chosen).readRow chosen row := by
      simp [readSegments, List.foldl_append]
    rw [folded, SegmentMap.readRow]
    by_cases wanted : row.gramKey ∈ chosen
    · have bound := List.idxOf_lt_length_iff.mpr wanted
      rw [if_neg bound.ne]
      constructor
      · have before := chosenSegments_ascending rows chosen
        rw [← numbers] at before
        have members : ∀ n, n ∈ chosenSegments (rows ++ [row]) chosen ↔
            n ∈ (readSegments rows chosen).numbers ∨ n = row.segmentNo := by
          intro n
          simp only [numbers, mem_chosenSegments, List.mem_append, List.mem_singleton, or_and_right, exists_or,
            exists_eq_left, wanted, true_and]
          rw [@eq_comm _ n]
        refine ascending_ext ?_ (chosenSegments_ascending _ _) fun n => ?_
        · split
          · exact before
          · rename_i new
            exact orderedInsert_ascending before new
        · rw [members]
          split
          · rename_i known
            exact ⟨.inl, fun either => either.elim id fun same => same ▸ known⟩
          · rw [List.mem_orderedInsert, or_comm]
      · intro segmentNo
        dsimp only
        split
        · rename_i same
          subst same
          rw [byKey, segmentKeys_snoc_wanted distinct wanted]
        · rename_i apart
          rw [byKey, segmentKeys_snoc_apart apart]
    · have at_end := List.idxOf_eq_length wanted
      rw [if_pos at_end]
      refine ⟨?_, fun segmentNo => by rw [byKey, segmentKeys_snoc_other wanted]⟩
      rw [numbers]
      simp [chosenSegments, List.filter_append, wanted]

theorem intersectByRow_eq (distinct : chosen.Nodup) (rows : List PostingRow) :
    intersectByRow rows chosen = intersectPostings rows chosen := by
  obtain ⟨numbers, byKey⟩ := readSegments_spec distinct rows
  simp only [intersectByRow, intersectPostings, numbers, byKey]

theorem ChosenLocated.rowids (located : ChosenLocated rows chosen) (listed : row ∈ rows)
    (wanted : row.gramKey ∈ chosen) : decodePostings row.postings = .ok row.rowids ∧
      ∀ r ∈ row.rowids, ((r / segmentRows : Nat) : Int) = row.segmentNo := by
  obtain ⟨rowids, decoded, inside⟩ := located row listed wanted
  rw [row_rowids decoded]
  exact ⟨decoded, inside⟩

theorem decodeKey_total {keyed : List PostingRow}
    (decodes : ∀ row ∈ keyed, ∃ rowids, decodePostings row.postings = .ok rowids) :
    ∃ decoded, decodeKey keyed = .ok decoded := by
  obtain ⟨lists, run⟩ := mapM_total keyed decodes
  exact ⟨_, bind_of_ok run⟩

theorem intersectKeys_total {keys : List (List PostingRow)}
    (decodes : ∀ keyed ∈ keys, ∀ row ∈ keyed, ∃ rowids, decodePostings row.postings = .ok rowids)
    (current : List Nat) : ∃ result, intersectKeys current keys = .ok result := by
  induction keys generalizing current with
  | nil => exact ⟨current, rfl⟩
  | cons keyed rest ih =>
    obtain ⟨first, others⟩ := List.forall_mem_cons.mp decodes
    obtain ⟨decoded, run⟩ := decodeKey_total first
    by_cases nothing : intersect current decoded = []
    · exact ⟨[], (bind_of_ok run).trans (if_pos nothing)⟩
    · obtain ⟨result, later⟩ := ih others (intersect current decoded)
      exact ⟨result, (bind_of_ok run).trans ((if_neg nothing).trans later)⟩

theorem intersectSegment_total {byKey : List (List PostingRow)}
    (decodes : ∀ keyed ∈ byKey, ∀ row ∈ keyed, ∃ rowids, decodePostings row.postings = .ok rowids) :
    ∃ result, intersectSegment byKey = .ok result := by
  unfold intersectSegment
  split
  · exact ⟨[], rfl⟩
  · split
    · exact ⟨[], rfl⟩
    · rename_i first rest order
      have sorted : ∀ keyed ∈ first :: rest, ∀ row ∈ keyed, ∃ rowids, decodePostings row.postings = .ok rowids :=
        fun keyed listed => decodes keyed (mem_smallestFirst.mp (order ▸ listed))
      obtain ⟨head, tail⟩ := List.forall_mem_cons.mp sorted
      obtain ⟨current, run⟩ := decodeKey_total head
      obtain ⟨result, later⟩ := intersectKeys_total tail current
      exact ⟨result, (bind_of_ok run).trans later⟩

theorem intersectPostings_total (located : ChosenLocated rows chosen) :
    ∃ lists, (chosenSegments rows chosen).mapM (fun segmentNo =>
      intersectSegment (segmentKeys rows chosen segmentNo)) = .ok lists := by
  refine mapM_total _ fun segmentNo _ => intersectSegment_total fun keyed listed row present => ?_
  obtain ⟨key, wanted, rfl⟩ := List.mem_map.mp listed
  obtain ⟨in_rows, same⟩ := List.mem_filter.mp present
  have of_key := (of_decide_eq_true same).2
  obtain ⟨rowids, decoded, _⟩ := located row in_rows (of_key ▸ wanted)
  exact ⟨rowids, decoded⟩

/-- The segments come in order, and each gives rowids of its own. -/
theorem intersectPostings_ascending (located : ChosenLocated rows chosen) (some_key : chosen ≠ [])
    {lists : List (List Nat)} (run : (chosenSegments rows chosen).mapM (fun segmentNo =>
      intersectSegment (segmentKeys rows chosen segmentNo)) = .ok lists) : Ascending lists.flatten := by
  have keyed (segmentNo : Int) : segmentKeys rows chosen segmentNo ≠ [] := by
    unfold segmentKeys
    rw [Ne, List.map_eq_nil_iff]
    exact some_key
  obtain ⟨key, wanted⟩ := List.exists_mem_of_ne_nil chosen some_key
  have own {segmentNo : Int} {list : List Nat}
      (one : intersectSegment (segmentKeys rows chosen segmentNo) = .ok list) :
      ∀ r ∈ list, ((r / segmentRows : Nat) : Int) = segmentNo := by
    intro r here
    have every := segmentKeys_posted.mp (((intersectSegment_exact (keyed segmentNo) one).2 r).mp here)
    obtain ⟨row, listed, of_key, rfl, present⟩ := every key wanted
    exact (located.rowids listed (of_key ▸ wanted)).2 r present
  refine List.pairwise_flatten.mpr ⟨fun list listed => ?_, ?_⟩
  · obtain ⟨segmentNo, _, one⟩ := mapM_ok_right run list listed
    exact (intersectSegment_exact (keyed segmentNo) one).1
  · refine mapM_pairwise (fun a left b right lt one two x in_left y in_right => ?_) run
      (chosenSegments_ascending rows chosen)
    have below := own one x in_left
    have above := own two y in_right
    simp only [segmentRows, segmentShift] at below above
    omega

theorem posted_iff_segments (located : ChosenLocated rows chosen) (r : Nat) :
    (∃ segmentNo, ∀ key ∈ chosen, PostedIn rows segmentNo key r) ↔ ∀ key ∈ chosen, Posted rows key r := by
  constructor
  · rintro ⟨segmentNo, every⟩ key wanted
    obtain ⟨row, listed, of_key, _, present⟩ := every key wanted
    exact ⟨row, listed, of_key, present⟩
  · intro every
    refine ⟨((r / segmentRows : Nat) : Int), fun key wanted => ?_⟩
    obtain ⟨row, listed, of_key, present⟩ := every key wanted
    exact ⟨row, listed, of_key, ((located.rowids listed (of_key ▸ wanted)).2 r present).symm, present⟩

theorem intersectPostings_of_table (located : ChosenLocated rows chosen) :
    ∃ result, intersectPostings rows chosen = .ok result ∧ Ascending result ∧
      ∀ r, r ∈ result ↔ chosen ≠ [] ∧ ∀ key ∈ chosen, Posted rows key r := by
  by_cases some_key : chosen = []
  · subst some_key
    refine ⟨[], ?_, List.Pairwise.nil, fun r => by simp⟩
    have none_chosen : chosenSegments rows [] = [] := by simp [chosenSegments]
    rw [intersectPostings, none_chosen]
    rfl
  · obtain ⟨lists, run⟩ := intersectPostings_total located
    have done : intersectPostings rows chosen = .ok lists.flatten := bind_of_ok run
    refine ⟨lists.flatten, done, intersectPostings_ascending located some_key run, fun r => ?_⟩
    rw [intersectPostings_exact some_key done, posted_iff_segments located]
    exact ⟨fun every => ⟨some_key, every⟩, And.right⟩

theorem mem_read {read : List PostingRow} (perm : read.Perm (rows.filter (keyFilter chosen)))
    (wanted : row.gramKey ∈ chosen) : row ∈ read ↔ row ∈ rows := by
  rw [perm.mem_iff, List.mem_filter]
  exact ⟨And.left, fun listed => ⟨listed, keyFilter_keeps wanted⟩⟩

theorem wellFormed_located {hwm : Int} (wf : WellFormed rows hwm) : ChosenLocated rows chosen := by
  intro row listed _
  have truthful := wf.truthful row listed
  refine ⟨row.rowids, (truthful_decodes wf.mark truthful).1, fun r present => ?_⟩
  rw [(truthful.inside r present).1, Int.toNat_of_nonneg truthful.segmentNo]

end reading

/-- The rows that the pushed filter lets through, in any order, give the rowids that
    every key posts, and the native probe gives the same list. -/
theorem lake_intersection_agrees {rows read : List PostingRow} {chosen : List Uhugeint}
    (distinct : chosen.Nodup) (perm : read.Perm (rows.filter (keyFilter chosen))) :
    (∀ row ∈ rows, row.gramKey ∈ chosen → row ∈ read) ∧
    (ChosenLocated rows chosen → ∃ result, intersectByRow read chosen = .ok result ∧ Ascending result ∧
      ∀ r, r ∈ result ↔ chosen ≠ [] ∧ ∀ key ∈ chosen, Posted rows key r) ∧
    (∀ (hwm : Int) (settings : ProbeSettings) (chunks : Uhugeint → List (List PostingRow))
      (keys : List Uhugeint) (maxGrams : Nat) (plan : ProbePlan Uhugeint), WellFormed rows hwm →
      Scans rows chunks keys → planIndexProbe settings chunks keys maxGrams hwm = .ok plan →
      plan.admitted = true → (∀ key, key ∈ plan.keys ↔ key ∈ chosen) →
        ∃ lists, plan.segments.mapM (decodeCandidateSegment plan (fetchFrom rows)) = .ok lists ∧
          intersectByRow read chosen = .ok lists.flatten) := by
  have posted {key : Uhugeint} (wanted : key ∈ chosen) (r : Nat) : Posted read key r ↔ Posted rows key r := by
    refine exists_congr fun row => ?_
    constructor
    · rintro ⟨listed, rfl, present⟩
      exact ⟨(mem_read perm wanted).mp listed, rfl, present⟩
    · rintro ⟨listed, rfl, present⟩
      exact ⟨(mem_read perm wanted).mpr listed, rfl, present⟩
  have exact_result (located : ChosenLocated rows chosen) : ∃ result, intersectByRow read chosen = .ok result ∧
      Ascending result ∧ ∀ r, r ∈ result ↔ chosen ≠ [] ∧ ∀ key ∈ chosen, Posted rows key r := by
    have kept : ChosenLocated read chosen := fun row listed wanted =>
      located row ((mem_read perm wanted).mp listed) wanted
    obtain ⟨result, run, ascending, members⟩ := intersectPostings_of_table kept
    refine ⟨result, (intersectByRow_eq distinct read).trans run, ascending, fun r => ?_⟩
    rw [members]
    exact and_congr_right fun _ => forall₂_congr fun key wanted => posted wanted r
  refine ⟨fun row listed wanted => (mem_read perm wanted).mpr listed, exact_result, ?_⟩
  intro hwm settings chunks keys maxGrams plan wf scans planned admitted same
  obtain ⟨lists, decoded, native_ascending, native_members⟩ := admitted_lists wf scans planned admitted
  obtain ⟨result, run, ascending, members⟩ := exact_result (wellFormed_located wf)
  have some_key : plan.keys ≠ [] ↔ chosen ≠ [] := by
    rw [Ne, Ne, List.eq_nil_iff_forall_not_mem, List.eq_nil_iff_forall_not_mem]
    simp only [same]
  have agree : result = lists.flatten := ascending_ext ascending native_ascending fun r => by
    rw [members, native_members, some_key]
    simp only [same]
  exact ⟨lists, decoded, agree ▸ run⟩

def seven : Uhugeint := ⟨1, 7⟩
def eight : Uhugeint := ⟨2, 8⟩

/-- Two generations of one key, a segment without the other, and a row whose halves
    are those of two different keys. -/
def mixedTable : List PostingRow :=
  [writtenRow 0 seven 0 0 [1, 3], writtenRow 1 eight 0 0 [3, 5, 9], writtenRow 2 seven 0 1 [5],
    writtenRow 3 seven 1 1 [1048577], writtenRow 4 ⟨1, 8⟩ 0 0 [3, 4]]

theorem mixedTable_wellFormed : WellFormed mixedTable 1048580 where
  mark := by decide
  rowids := by decide
  truthful := by
    simp only [mixedTable, List.forall_mem_cons]
    refine ⟨?_, ?_, ?_, ?_, ?_, by simp⟩
    all_goals exact writtenRow_truthful _ _ _ (by decide) (by decide) (by decide) (by decide)
  generations := by decide +kernel

def mixedScans (key : Uhugeint) : List (List PostingRow) :=
  [mixedTable.filter fun row => decide (row.gramKey = key)]

def mixedPlan : ProbePlan Uhugeint :=
  let eights : ProbeDescriptor := ⟨0, 0, 1, 3, 3, 9⟩
  let sevens : List ProbeDescriptor := [⟨0, 1, 0, 2, 1, 3⟩, ⟨0, 1, 2, 1, 5, 5⟩]
  ⟨1048580, [eight, seven], eights :: sevens ++ [⟨1, 1, 3, 1, 1048577, 1048577⟩],
    [⟨0, eights :: sevens, [0, 1]⟩], 3, 1, 4, 1, 262216, true, ""⟩

theorem mixed_table_agrees :
    (mixedTable.filter (keyFilter [seven, eight])).length = 5 ∧
    ∃ lists, mixedPlan.segments.mapM (decodeCandidateSegment mixedPlan (fetchFrom mixedTable)) = .ok lists ∧
      intersectByRow (mixedTable.filter (keyFilter [seven, eight])) [seven, eight] = .ok lists.flatten := by
  have scans : Scans mixedTable mixedScans [eight, seven] := fun key _ => by simp [mixedScans]
  have planned : planIndexProbe roomySettings mixedScans [eight, seven] 2 1048580 = .ok mixedPlan := by
    decide +kernel
  have agrees := lake_intersection_agrees (by decide : [seven, eight].Nodup)
    (List.Perm.refl (mixedTable.filter (keyFilter [seven, eight])))
  refine ⟨by decide +kernel, agrees.2.2 1048580 roomySettings mixedScans [eight, seven] 2 mixedPlan
    mixedTable_wellFormed scans planned rfl fun key => ?_⟩
  simp [mixedPlan, or_comm]

end NgramLake
