import NgramIndex.ProbeExact

/- The whole probe. The admitted segments decode, one after another, to the
   intersection of the selected keys' posting lists, and ngram_candidates
   streams that list over its calls. -/
namespace NgramProbe
open AscendingLists NgramPostings NgramPackSegment Fallible
open NgramStorage (standardVectorSize)
variable {Key : Type} [DecidableEq Key]

theorem intersectGrams_spec {plan : ProbePlan Key} {visible : List (SegmentRow Key)}
    {segment : ProbeSegment} (wf : WellFormed visible plan.hwm)
    (covers : Covers visible plan.keys segment)
    (posted : ∀ key ∈ plan.keys, ∃ r, PostedIn visible key segment.segmentNo r)
    (order : List Nat) (inside : ∀ g ∈ order, g < plan.keys.length) (b : DecodeBuffers)
    (asc : Ascending b.candidates.rows) :
    ∃ trace last, intersectGrams plan (fetchFrom visible) segment order b = .ok trace ∧
      trace.getLast? = some last ∧ Ascending last.candidates.rows ∧
      ∀ r, r ∈ last.candidates.rows ↔ r ∈ b.candidates.rows ∧
        ∀ g ∈ order, ∀ key, plan.keys[g]? = some key → PostedIn visible key segment.segmentNo r := by
  induction order generalizing b with
  | nil => exact ⟨[b], b, rfl, rfl, asc, by simp⟩
  | cons g order ih =>
    by_cases exhausted : b.candidates.rows = []
    · -- Once the candidates are empty no later gram is decoded.
      refine ⟨[b], b, ?_, rfl, asc, by simp [exhausted]⟩
      rw [intersectGrams, if_pos exhausted]
    · have bound := inside g (by simp)
      have at_g : plan.keys[g]? = some plan.keys[g] := List.getElem?_eq_getElem bound
      obtain ⟨postings, decoded, postings_asc, members⟩ := decodeDescriptorRange_spec wf covers at_g
        (posted _ (List.getElem_mem bound))
      obtain ⟨trace, last, run, last_eq, last_asc, last_members⟩ := ih
        (fun other ho => inside other (by simp [ho]))
        ⟨⟨intersect b.candidates.rows postings, min b.candidates.rows.length postings.length⟩,
          ⟨postings, postings.length⟩, reserveExactly 0⟩ (intersect_ascending postings asc)
      have stepped : intersectGrams plan (fetchFrom visible) segment (g :: order) b =
          .ok (b :: { b with postings := ⟨postings, postings.length⟩ } ::
            { b with
              postings := ⟨postings, postings.length⟩
              intersection := ⟨intersect b.candidates.rows postings,
                min b.candidates.rows.length postings.length⟩ } :: trace) := by
        rw [intersectGrams, if_neg exhausted]
        exact (bind_of_ok decoded).trans ((bind_of_ok run).trans rfl)
      refine ⟨_, last, stepped, ?_, last_asc, fun r => ?_⟩
      · simp [List.getLast?_cons, last_eq]
      · rw [last_members r]
        simp only [mem_intersect asc postings_asc, members, List.forall_mem_cons, at_g]
        constructor
        · rintro ⟨⟨old, here⟩, later⟩
          exact ⟨old, fun key same => Option.some.inj same ▸ here, later⟩
        · rintro ⟨old, here, later⟩
          exact ⟨⟨old, here _ rfl⟩, later⟩

theorem decodeCandidateSegment_spec {plan : ProbePlan Key} {visible : List (SegmentRow Key)}
    {segment : ProbeSegment} (wf : WellFormed visible plan.hwm)
    (covers : Covers visible plan.keys segment) (some_key : plan.keys ≠ [])
    (posted : ∀ key ∈ plan.keys, ∃ r, PostedIn visible key segment.segmentNo r)
    (order : segment.gramOrder.Perm (List.range plan.keys.length)) :
    ∃ rowids, decodeCandidateSegment plan (fetchFrom visible) segment = .ok rowids ∧
      Ascending rowids ∧
      ∀ r, r ∈ rowids ↔ ∀ key ∈ plan.keys, PostedIn visible key segment.segmentNo r := by
  have inside : ∀ g ∈ segment.gramOrder, g < plan.keys.length := fun g hg =>
    List.mem_range.mp (order.mem_iff.mp hg)
  have reached : ∀ g, g < plan.keys.length → g ∈ segment.gramOrder := fun g hg =>
    order.mem_iff.mpr (List.mem_range.mpr hg)
  cases order_eq : segment.gramOrder with
  | nil =>
    have first := reached 0 (List.length_pos_of_ne_nil some_key)
    simp [order_eq] at first
  | cons g rest =>
    rw [order_eq] at inside reached
    have bound := inside g (by simp)
    have at_g : plan.keys[g]? = some plan.keys[g] := List.getElem?_eq_getElem bound
    obtain ⟨postings, decoded, asc, members⟩ := decodeDescriptorRange_spec wf covers at_g
      (posted _ (List.getElem_mem bound))
    obtain ⟨trace, last, run, last_eq, last_asc, last_members⟩ := intersectGrams_spec wf covers posted
      rest (fun other ho => inside other (by simp [ho]))
      ⟨⟨postings, postings.length⟩, reserveExactly 0, reserveExactly 0⟩ asc
    refine ⟨last.candidates.rows, ?_, last_asc, fun r => ?_⟩
    · have traced : decodeTrace plan (fetchFrom visible) segment = .ok trace := by
        rw [decodeTrace, order_eq]
        exact (bind_of_ok decoded).trans run
      refine (bind_of_ok traced).trans ?_
      simp [last_eq, pure, Except.pure]
    · rw [last_members r, members]
      constructor
      · rintro ⟨here, later⟩ key present
        obtain ⟨i, hi, rfl⟩ := List.mem_iff_getElem.mp present
        have at_i : plan.keys[i]? = some plan.keys[i] := List.getElem?_eq_getElem hi
        rcases List.mem_cons.mp (reached i hi) with rfl | in_rest
        · exact here
        · exact later i in_rest _ at_i
      · intro every
        exact ⟨every _ (List.getElem_mem bound), fun i _ key at_i =>
          every key (List.mem_of_getElem? at_i)⟩

theorem every_gram {group : List ProbeDescriptor} {keyCount : Nat}
    (sorted : (group.map ProbeDescriptor.gramIndex).Pairwise (· ≤ ·))
    (inside : ∀ d ∈ group, d.gramIndex < keyCount) :
    (spansOf group).length = keyCount ↔ ∀ g < keyCount, gramAt group g ≠ [] := by
  have asc := unique_ascending sorted
  have members : ∀ g, g ∈ unique (group.map ProbeDescriptor.gramIndex) ↔ gramAt group g ≠ [] := by
    intro g
    rw [mem_unique, gramAt, ne_eq, List.filter_eq_nil_iff]
    simp
  have covered : unique (group.map ProbeDescriptor.gramIndex) ⊆ List.range keyCount := by
    intro g present
    obtain ⟨d, in_group, rfl⟩ := List.mem_map.mp (mem_unique.mp present)
    exact List.mem_range.mpr (inside d in_group)
  have sub := List.subperm_of_subset (ascending_nodup asc) covered
  rw [spansOf, grams_eq sorted, List.length_map, List.length_map]
  constructor
  · intro full g hg
    have perm := sub.perm_of_length_le (by rw [List.length_range, full])
    exact (members g).mp (perm.mem_iff.mpr (List.mem_range.mpr hg))
  · intro every
    have whole : List.range keyCount ⊆ unique (group.map ProbeDescriptor.gramIndex) := fun g hg =>
      (members g).mpr (every g (List.mem_range.mp hg))
    have longer := (List.subperm_of_subset List.nodup_range whole).length_le
    have shorter := sub.length_le
    rw [List.length_range] at longer shorter
    omega

theorem spans_hold {group : List ProbeDescriptor} {r : Nat}
    (sorted : (group.map ProbeDescriptor.gramIndex).Pairwise (· ≤ ·)) (nonempty : group ≠ [])
    (each : ∀ d ∈ group, ∃ e ∈ gramAt group d.gramIndex, e.minRowid ≤ r ∧ r ≤ e.maxRowid) :
    spanLow group ≤ r ∧ r ≤ spanHigh group := by
  have held : ∀ span ∈ spansOf group, span.low ≤ r ∧ r ≤ span.high := by
    intro span present
    rw [spansOf, grams_eq sorted, List.map_map] at present
    obtain ⟨g, listed, rfl⟩ := List.mem_map.mp present
    obtain ⟨d, in_group, rfl⟩ := List.mem_map.mp (mem_unique.mp listed)
    obtain ⟨e, in_gram, low, high⟩ := each d in_group
    constructor
    · exact ((foldl_min_le _ _).2 _ (List.mem_map_of_mem in_gram)).trans low
    · exact high.trans ((le_foldl_max _ _).2 _ (List.mem_map_of_mem in_gram))
  constructor
  · refine foldl_max_le (Nat.zero_le r) fun low present => ?_
    obtain ⟨span, in_spans, rfl⟩ := List.mem_map.mp present
    exact (held span in_spans).1
  · have some_span : spansOf group ≠ [] := by
      obtain ⟨d, rest, rfl⟩ := List.exists_cons_of_ne_nil nonempty
      obtain ⟨run, others, runs⟩ := runsBy_cons_head
        (fun d e : ProbeDescriptor => decide (d.gramIndex = e.gramIndex)) d rest
      simp [spansOf, runs]
    obtain ⟨span, spans, eq⟩ := List.exists_cons_of_ne_nil some_span
    refine le_foldl_min ?_ fun high present => ?_
    · rw [eq] at held ⊢
      exact (held span (by simp)).2
    · obtain ⟨span, in_spans, rfl⟩ := List.mem_map.mp present
      exact (held span in_spans).2

def admittedNos (keyCount : Nat) (descriptors : List ProbeDescriptor) : List Nat :=
  (unique (descriptors.map ProbeDescriptor.segmentNo)).filter fun segmentNo =>
    admits keyCount (groupAt descriptors segmentNo)

def segmentsOf (keyCount : Nat) (descriptors : List ProbeDescriptor) : List ProbeSegment :=
  (admittedNos keyCount descriptors).map fun segmentNo => segmentOf (groupAt descriptors segmentNo)

theorem admitted_segments {keyCount limit : Nat} {hwm : Int} {descriptors : List ProbeDescriptor}
    {a : Admission} (sorted : descriptors.Pairwise fun a b => a.place ≤ b.place)
    (ok : admitSegments keyCount hwm limit descriptors = .ok a) :
    a.segments = segmentsOf keyCount descriptors := by
  rw [admitSegments_segments ok, groups_eq sorted, List.filter_map, List.map_map]
  rfl

theorem segmentOf_no {descriptors : List ProbeDescriptor} {segmentNo : Nat}
    (present : groupAt descriptors segmentNo ≠ []) :
    (segmentOf (groupAt descriptors segmentNo)).segmentNo = segmentNo := by
  obtain ⟨d, rest, eq⟩ := List.exists_cons_of_ne_nil present
  have listed : d ∈ groupAt descriptors segmentNo := by simp [eq]
  have at_d : d.segmentNo = segmentNo := by simpa using (List.mem_filter.mp listed).2
  simp [segmentOf, eq, at_d]

/-- What the host's scans return: the visible rows of each key, in any order
    and in any chunks. -/
def Scans (visible : List (SegmentRow Key)) (chunks : Key → List (List (SegmentRow Key)))
    (keys : List Key) : Prop :=
  ∀ key ∈ keys, (chunks key).flatten.Perm (visible.filter fun row => decide (row.gramKey = key))

variable {visible : List (SegmentRow Key)} {chunks : Key → List (List (SegmentRow Key))}
  {keys : List Key} {hwm : Int}

theorem mem_group (scans : Scans visible chunks keys) {segmentNo : Nat} {d : ProbeDescriptor}
    (present : d ∈ groupAt (sortManifest (manifestOf chunks 0 keys)) segmentNo) :
    d.gramIndex < keys.length ∧ ∃ key row, keys[d.gramIndex]? = some key ∧
      row ∈ rowsAt visible key segmentNo ∧ d = describe d.gramIndex row := by
  obtain ⟨in_manifest, at_segment⟩ := List.mem_filter.mp present
  have listed := (List.perm_insertionSort _ _).mem_iff.mp in_manifest
  obtain ⟨entry, in_keys, described⟩ := List.mem_flatMap.mp listed
  obtain ⟨row, in_scan, rfl⟩ := List.mem_map.mp described
  have at_key : keys[entry.2]? = some entry.1 := by simpa using List.mem_zipIdx_iff_getElem?.mp in_keys
  have found := (scans entry.1 (List.mem_of_getElem? at_key)).mem_iff.mp in_scan
  refine ⟨(List.getElem?_eq_some_iff.mp at_key).1, entry.1, row, at_key, ?_, rfl⟩
  obtain ⟨in_visible, of_key⟩ := List.mem_filter.mp found
  exact mem_rowsAt.mpr ⟨in_visible, of_decide_eq_true of_key, of_decide_eq_true at_segment⟩

theorem gram_present (scans : Scans visible chunks keys) {segmentNo g : Nat} {key : Key}
    (at_g : keys[g]? = some key) {row : SegmentRow Key} (listed : row ∈ rowsAt visible key segmentNo) :
    describe g row ∈ gramAt (groupAt (sortManifest (manifestOf chunks 0 keys)) segmentNo) g :=
  (gram_rows scans at_g segmentNo).mem_iff.mpr (List.mem_map_of_mem listed)

omit [DecidableEq Key] in
theorem row_span {row : SegmentRow Key} (truthful : Truthful hwm row row.rowids) (g : Nat) {r : Nat}
    (posted : r ∈ row.rowids) : (describe g row).minRowid ≤ r ∧ r ≤ (describe g row).maxRowid := by
  have head := truthful.minRowid
  have last := truthful.maxRowid
  have asc := truthful.ascending
  have top := ascending_le_getLast asc truthful.nonempty r posted
  rw [List.getLast?_eq_some_getLast truthful.nonempty, Option.some.injEq] at last
  cases rowids_eq : row.rowids with
  | nil => simp [rowids_eq] at posted
  | cons first rest =>
    rw [rowids_eq] at head asc posted
    obtain rfl : first = row.minRowid.toNat := by simpa using head
    exact ⟨ascending_head_le asc r posted, top.trans (le_of_eq last)⟩

theorem admitted_of_posted (wf : WellFormed visible hwm) (scans : Scans visible chunks keys)
    (some_key : keys ≠ []) {segmentNo r : Nat} (posted : ∀ key ∈ keys, PostedIn visible key segmentNo r) :
    segmentNo ∈ admittedNos keys.length (sortManifest (manifestOf chunks 0 keys)) := by
  have sorted := sortManifest_sorted (manifestOf chunks 0 keys)
  have grams_sorted := group_grams_sorted sorted segmentNo
  have rows : ∀ (g : Nat) (key : Key), keys[g]? = some key → ∃ row ∈ rowsAt visible key segmentNo, r ∈ row.rowids := by
    intro g key at_g
    obtain ⟨⟨row, in_visible, of_key, in_row⟩, at_segment⟩ := posted key (List.mem_of_getElem? at_g)
    refine ⟨row, mem_rowsAt.mpr ⟨in_visible, of_key, ?_⟩, in_row⟩
    rw [← ((wf.truthful row in_visible).inside r in_row).1, at_segment]
  have every : ∀ g < keys.length,
      gramAt (groupAt (sortManifest (manifestOf chunks 0 keys)) segmentNo) g ≠ [] := by
    intro g bound
    have at_g : keys[g]? = some keys[g] := List.getElem?_eq_getElem bound
    obtain ⟨row, listed, _⟩ := rows g _ at_g
    exact List.ne_nil_of_mem (gram_present scans at_g listed)
  have group_ne : groupAt (sortManifest (manifestOf chunks 0 keys)) segmentNo ≠ [] := by
    intro empty
    have first := every 0 (List.length_pos_of_ne_nil some_key)
    simp [empty, gramAt] at first
  have meets : spanLow (groupAt (sortManifest (manifestOf chunks 0 keys)) segmentNo) ≤
      spanHigh (groupAt (sortManifest (manifestOf chunks 0 keys)) segmentNo) := by
    have held := @spans_hold _ r grams_sorted group_ne fun d in_group => by
      obtain ⟨_, key, _, at_g, _, _⟩ := mem_group scans in_group
      obtain ⟨row, listed, in_row⟩ := rows _ key at_g
      exact ⟨_, gram_present scans at_g listed,
        row_span (wf.truthful row (mem_rowsAt.mp listed).1) _ in_row⟩
    exact held.1.trans held.2
  have counted := (every_gram grams_sorted fun d hd => (mem_group scans hd).1).mpr every
  refine List.mem_filter.mpr ⟨mem_unique.mpr ?_, by simp [admits, counted, meets]⟩
  obtain ⟨d, in_group⟩ := List.exists_mem_of_ne_nil _ group_ne
  obtain ⟨in_manifest, at_segment⟩ := List.mem_filter.mp in_group
  exact List.mem_map.mpr ⟨d, in_manifest, of_decide_eq_true at_segment⟩

theorem admitted_covers (wf : WellFormed visible hwm) (scans : Scans visible chunks keys)
    {segment : ProbeSegment}
    (admitted : segment ∈ segmentsOf keys.length (sortManifest (manifestOf chunks 0 keys))) :
    Covers visible keys segment ∧ segment.gramOrder.Perm (List.range keys.length) ∧
      ∀ key ∈ keys, ∃ r, PostedIn visible key segment.segmentNo r := by
  obtain ⟨segmentNo, listed, rfl⟩ := List.mem_map.mp admitted
  obtain ⟨in_manifest, admits_it⟩ := List.mem_filter.mp listed
  have grams_sorted := group_grams_sorted (sortManifest_sorted (manifestOf chunks 0 keys)) segmentNo
  have group_ne : groupAt (sortManifest (manifestOf chunks 0 keys)) segmentNo ≠ [] := by
    obtain ⟨d, present, at_segment⟩ := List.mem_map.mp (mem_unique.mp in_manifest)
    exact List.ne_nil_of_mem (List.mem_filter.mpr ⟨present, by simp [at_segment]⟩)
  have counted : (spansOf (groupAt (sortManifest (manifestOf chunks 0 keys)) segmentNo)).length =
      keys.length := by
    simp only [admits, Bool.and_eq_true, decide_eq_true_eq] at admits_it
    exact admits_it.1
  have every := (every_gram grams_sorted fun d hd => (mem_group scans hd).1).mp counted
  refine ⟨⟨grams_sorted, fun g key at_g => ?_⟩, ?_, fun key present => ?_⟩
  · rw [segmentOf_no group_ne]
    exact gram_rows scans at_g segmentNo
  · have perm := rarestFirst_perm
      ((spansOf (groupAt (sortManifest (manifestOf chunks 0 keys)) segmentNo)).map GramSpan.count)
    rwa [List.length_map, counted] at perm
  · obtain ⟨g, bound, rfl⟩ := List.mem_iff_getElem.mp present
    have at_g : keys[g]? = some keys[g] := List.getElem?_eq_getElem bound
    obtain ⟨d, in_gram⟩ := List.exists_mem_of_ne_nil _ (every g bound)
    obtain ⟨row, in_rows, _⟩ := List.mem_map.mp ((gram_rows scans at_g segmentNo).mem_iff.mp in_gram)
    obtain ⟨in_visible, of_key, at_segment⟩ := mem_rowsAt.mp in_rows
    have truthful := wf.truthful row in_visible
    obtain ⟨r, in_row⟩ := List.exists_mem_of_ne_nil _ truthful.nonempty
    refine ⟨r, ⟨row, in_visible, of_key, in_row⟩, ?_⟩
    rw [segmentOf_no group_ne, (truthful.inside r in_row).1, at_segment]

omit [DecidableEq Key] in
theorem chargeWorkers_fields {settings : ProbeSettings} {available : Nat} {a : Admission}
    {plan planned : ProbePlan Key} (run : chargeWorkers settings available a plan = .ok planned) :
    planned.hwm = plan.hwm ∧ planned.keys = plan.keys ∧ planned.segments = plan.segments ∧
      planned.descriptors = plan.descriptors ∧ planned.candidateUpperBound = plan.candidateUpperBound := by
  obtain ⟨perWorker, _, run⟩ := bind_ok run
  obtain ⟨_, run⟩ | ⟨_, run⟩ := branch_ok run
  · rw [← ok_inj run]
    exact ⟨rfl, rfl, rfl, rfl, rfl⟩
  · obtain ⟨bytes, _, run⟩ := bind_ok run
    obtain ⟨alive, _, run⟩ := bind_ok run
    obtain ⟨total, _, run⟩ := bind_ok run
    rw [← ok_inj run]
    exact ⟨rfl, rfl, rfl, rfl, rfl⟩

omit [DecidableEq Key] in
theorem admitManifest_fields {settings : ProbeSettings} {reserved : Nat} {plan planned : ProbePlan Key}
    (run : admitManifest settings reserved plan = .ok planned) :
    planned.hwm = plan.hwm ∧ planned.keys = plan.keys ∧ ∃ a,
      admitSegments plan.keys.length plan.hwm settings.maxProbeRowids plan.descriptors = .ok a ∧
      planned.segments = a.segments := by
  obtain ⟨a, admitted, run⟩ := bind_ok run
  obtain ⟨_, run⟩ | ⟨_, run⟩ := branch_ok run
  · rw [← ok_inj run]
    exact ⟨rfl, rfl, a, admitted, rfl⟩
  · obtain ⟨_, run⟩ := check_ok run
    obtain ⟨weight, _, run⟩ := bind_ok run
    obtain ⟨rows, _, run⟩ := bind_ok run
    obtain ⟨_, run⟩ | ⟨_, run⟩ := branch_ok run
    · rw [← ok_inj run]
      exact ⟨rfl, rfl, a, admitted, rfl⟩
    · obtain ⟨_, run⟩ | ⟨_, run⟩ := branch_ok run
      · rw [← ok_inj run]
        exact ⟨rfl, rfl, a, admitted, rfl⟩
      · obtain ⟨_, run⟩ | ⟨_, run⟩ := branch_ok run
        · rw [← ok_inj run]
          exact ⟨rfl, rfl, a, admitted, rfl⟩
        · obtain ⟨same_hwm, same_keys, same_segments, _⟩ := chargeWorkers_fields run
          exact ⟨same_hwm, same_keys, a, admitted, same_segments⟩

theorem planIndexProbe_manifest {settings : ProbeSettings} {maxGrams : Nat} {plan : ProbePlan Key}
    (run : planIndexProbe settings chunks keys maxGrams hwm = .ok plan)
    (admitted : plan.admitted = true) :
    ∃ (reserved : Nat) (manifest : ProbePlan Key), admitManifest settings reserved manifest = .ok plan ∧
      manifest.admitted = false ∧ manifest.hwm = hwm ∧
      manifest.descriptors = sortManifest (manifestOf chunks 0 manifest.keys) ∧
      manifest.keys.length = min maxGrams keys.length ∧ manifest.keys ⊆ keys ∧
      (keys.Nodup → manifest.keys.Nodup) := by
  obtain ⟨keyBytes, _, run⟩ := bind_ok run
  obtain ⟨_, run⟩ | ⟨_, run⟩ := branch_ok run
  · obtain rfl := ok_inj run
    cases admitted
  · obtain ⟨preflightBytes, _, run⟩ := bind_ok run
    obtain ⟨collected, collected_eq, run⟩ := bind_ok run
    cases collected with
    | none =>
      obtain rfl := ok_inj run
      cases admitted
    | some collected =>
      obtain ⟨scanned, perKey⟩ := collected
      have selection := @selectRarestGrams_spec _ _ _ _ maxGrams (collectGramRows_descriptors collected_eq)
      dsimp only at run selection
      generalize selectRarestGrams keys perKey maxGrams = picked at run selection
      obtain ⟨selected, descriptors⟩ := picked
      obtain ⟨selected_length, selected_keys, distinct, manifest⟩ := selection
      exact ⟨_, _, run, rfl, rfl, manifest, selected_length, selected_keys, distinct⟩

theorem planIndexProbe_spec {settings : ProbeSettings} {maxGrams : Nat} {plan : ProbePlan Key}
    (run : planIndexProbe settings chunks keys maxGrams hwm = .ok plan)
    (admitted : plan.admitted = true) :
    plan.hwm = hwm ∧ plan.keys.length = min maxGrams keys.length ∧ plan.keys ⊆ keys ∧
      (keys.Nodup → plan.keys.Nodup) ∧ plan.segments =
        segmentsOf plan.keys.length (sortManifest (manifestOf chunks 0 plan.keys)) := by
  obtain ⟨reserved, manifest, gates, _, rfl, descriptors, selected_length, selected_keys, distinct⟩ :=
    planIndexProbe_manifest run admitted
  obtain ⟨same_hwm, same_keys, a, admission, segments⟩ := admitManifest_fields gates
  rw [same_keys, ← descriptors]
  refine ⟨same_hwm, selected_length, selected_keys, distinct, ?_⟩
  rw [segments, admitted_segments (descriptors ▸ sortManifest_sorted _) admission]

omit [DecidableEq Key] in
/-- The segments in plan order hold ever larger rowids. -/
theorem segments_ascending (chunks : Key → List (List (SegmentRow Key))) (keys : List Key) :
    (segmentsOf keys.length (sortManifest (manifestOf chunks 0 keys))).Pairwise
      fun a b => a.segmentNo < b.segmentNo := by
  have sorted := sortManifest_sorted (manifestOf chunks 0 keys)
  have numbers : Ascending (admittedNos keys.length (sortManifest (manifestOf chunks 0 keys))) :=
    (unique_ascending (List.pairwise_map.mpr (sorted.imp fun le => (place_le le).1))).sublist
      List.filter_sublist
  have group_ne : ∀ segmentNo ∈ admittedNos keys.length (sortManifest (manifestOf chunks 0 keys)),
      groupAt (sortManifest (manifestOf chunks 0 keys)) segmentNo ≠ [] := by
    intro segmentNo listed
    obtain ⟨d, present, at_segment⟩ := List.mem_map.mp (mem_unique.mp (List.mem_filter.mp listed).1)
    exact List.ne_nil_of_mem (List.mem_filter.mpr ⟨present, by simp [at_segment]⟩)
  refine List.pairwise_map.mpr (numbers.imp_of_mem fun {a b} ha hb lt => ?_)
  rwa [segmentOf_no (group_ne a ha), segmentOf_no (group_ne b hb)]

/-- Each admitted segment decodes, under any order of its grams, to its part of
    the intersection. -/
theorem admitted_decodes {plan : ProbePlan Key} (wf : WellFormed visible plan.hwm)
    (scans : Scans visible chunks plan.keys) (some_key : plan.keys ≠ []) {segment : ProbeSegment}
    (admitted : segment ∈ segmentsOf plan.keys.length (sortManifest (manifestOf chunks 0 plan.keys))) :
    ∃ rowids, Ascending rowids ∧
      (∀ r, r ∈ rowids ↔ ∀ key ∈ plan.keys, PostedIn visible key segment.segmentNo r) ∧
      ∀ order : List Nat, order.Perm segment.gramOrder →
        decodeCandidateSegment plan (fetchFrom visible) { segment with gramOrder := order } = .ok rowids := by
  obtain ⟨covers, whole, posted⟩ := admitted_covers wf scans admitted
  obtain ⟨rowids, _, asc, members⟩ := decodeCandidateSegment_spec wf covers some_key posted whole
  refine ⟨rowids, asc, members, fun order perm => ?_⟩
  obtain ⟨others, decoded, others_asc, others_members⟩ := @decodeCandidateSegment_spec _ _ plan visible
    { segment with gramOrder := order } wf ⟨covers.sorted, covers.rows⟩ some_key posted
    (perm.trans whole)
  rw [decoded, ascending_ext others_asc asc fun r => (others_members r).trans (members r).symm]

/-- What ngram_candidates keeps between its calls. -/
structure CandidatesState where
  remaining : List ProbeSegment
  candidates : List Nat
  offset : Nat
  deriving DecidableEq, Repr

/-- The loop of a call that moves on to the next segment with candidates. -/
def refill (plan : ProbePlan Key) (fetch : Nat → Option (SegmentRow Key)) :
    List ProbeSegment → List Nat → Nat → Except String CandidatesState
  | [], candidates, offset =>
      .ok (if offset < candidates.length then ⟨[], candidates, offset⟩ else ⟨[], [], 0⟩)
  | segment :: rest, candidates, offset =>
      if offset < candidates.length then .ok ⟨segment :: rest, candidates, offset⟩
      else do
        let candidates ← decodeCandidateSegment plan fetch segment
        refill plan fetch rest candidates 0

def candidatesFunction (plan : ProbePlan Key) (fetch : Nat → Option (SegmentRow Key))
    (state : CandidatesState) : Except String (CandidatesState × List Nat) := do
  let state ← refill plan fetch state.remaining state.candidates state.offset
  let chunk := (state.candidates.drop state.offset).take standardVectorSize
  return ({ state with offset := state.offset + chunk.length }, chunk)

/-- The chunks of at most so many calls. An empty chunk ends the scan. -/
def drain (plan : ProbePlan Key) (fetch : Nat → Option (SegmentRow Key)) :
    Nat → CandidatesState → Except String (List (List Nat))
  | 0, _ => .ok []
  | calls + 1, state => do
      let (state, chunk) ← candidatesFunction plan fetch state
      if chunk = [] then return []
      else
        let chunks ← drain plan fetch calls state
        return chunk :: chunks

def CandidatesState.pending (decoded : ProbeSegment → List Nat) (state : CandidatesState) : List Nat :=
  state.candidates.drop state.offset ++ state.remaining.flatMap decoded

section Streaming
variable {plan : ProbePlan Key} {fetch : Nat → Option (SegmentRow Key)} {decoded : ProbeSegment → List Nat}

theorem refill_spec (remaining : List ProbeSegment) (candidates : List Nat) (offset : Nat)
    (decodes : ∀ segment ∈ remaining, decodeCandidateSegment plan fetch segment = .ok (decoded segment)) :
    ∃ state, refill plan fetch remaining candidates offset = .ok state ∧
      state.pending decoded = CandidatesState.pending decoded ⟨remaining, candidates, offset⟩ ∧
      state.remaining ⊆ remaining ∧
      (state.offset < state.candidates.length ∨ state.pending decoded = []) := by
  induction remaining generalizing candidates offset with
  | nil =>
    by_cases left : offset < candidates.length
    · exact ⟨⟨[], candidates, offset⟩, by rw [refill, if_pos left], rfl, fun _ h => h, .inl left⟩
    · have passed : candidates.drop offset = [] := List.drop_eq_nil_of_le (Nat.le_of_not_lt left)
      exact ⟨⟨[], [], 0⟩, by rw [refill, if_neg left], by simp [CandidatesState.pending, passed],
        fun _ h => h, .inr rfl⟩
  | cons segment rest ih =>
    by_cases left : offset < candidates.length
    · exact ⟨⟨segment :: rest, candidates, offset⟩, by rw [refill, if_pos left], rfl, fun _ h => h,
        .inl left⟩
    · have passed : candidates.drop offset = [] := List.drop_eq_nil_of_le (Nat.le_of_not_lt left)
      obtain ⟨state, run, same, sub, progress⟩ := ih (decoded segment) 0
        fun other ho => decodes other (by simp [ho])
      refine ⟨state, ?_, ?_, fun other ho => List.mem_cons_of_mem _ (sub ho), progress⟩
      · rw [refill, if_neg left]
        exact (bind_of_ok (decodes segment (by simp))).trans run
      · rw [same]
        simp [CandidatesState.pending, passed]

/-- One call hands out the front of what is pending, and nothing only when
    nothing is. -/
theorem candidatesFunction_spec (state : CandidatesState) (decodes : ∀ segment ∈ state.remaining,
    decodeCandidateSegment plan fetch segment = .ok (decoded segment)) :
    ∃ next chunk, candidatesFunction plan fetch state = .ok (next, chunk) ∧
      chunk ++ next.pending decoded = state.pending decoded ∧ next.remaining ⊆ state.remaining ∧
      chunk.length ≤ standardVectorSize ∧ (chunk = [] → state.pending decoded = []) := by
  obtain ⟨filled, run, same, sub, progress⟩ := refill_spec state.remaining state.candidates state.offset
    decodes
  refine ⟨_, _, bind_of_ok run, ?_, sub, List.length_take_le _ _, fun empty => ?_⟩
  · rw [← same]
    simp only [CandidatesState.pending, ← List.append_assoc]
    congr 1
    rw [← List.drop_drop, List.length_take]
    conv_rhs => rw [← List.take_append_drop standardVectorSize (filled.candidates.drop filled.offset)]
    congr 1
    rcases Nat.le_total standardVectorSize (filled.candidates.drop filled.offset).length with long | short
    · rw [Nat.min_eq_left long]
    · rw [Nat.min_eq_right short, List.drop_length, List.drop_eq_nil_of_le short]
  · rcases progress with left | nothing
    · have taken := congrArg List.length empty
      simp only [List.length_take, List.length_drop, List.length_nil, standardVectorSize] at taken
      omega
    · exact same.symm.trans nothing

/-- Enough calls hand out everything, and stop at the first empty chunk. -/
theorem drain_spec (calls : Nat) (state : CandidatesState) (decodes : ∀ segment ∈ state.remaining,
    decodeCandidateSegment plan fetch segment = .ok (decoded segment))
    (enough : (state.pending decoded).length < calls) :
    ∃ chunks, drain plan fetch calls state = .ok chunks ∧ chunks.flatten = state.pending decoded ∧
      ∀ chunk ∈ chunks, chunk ≠ [] ∧ chunk.length ≤ standardVectorSize := by
  induction calls generalizing state with
  | zero => omega
  | succ calls ih =>
    obtain ⟨next, chunk, run, split_eq, sub, short, ends⟩ := candidatesFunction_spec state decodes
    by_cases empty : chunk = []
    · refine ⟨[], ?_, (ends empty).symm, by simp⟩
      exact (bind_of_ok run).trans (if_pos empty)
    · have taken := congrArg List.length split_eq
      have some_taken := List.length_pos_of_ne_nil empty
      rw [List.length_append] at taken
      obtain ⟨chunks, later, flat, each⟩ := ih next (fun other ho => decodes other (sub ho)) (by omega)
      refine ⟨chunk :: chunks, ?_, ?_, ?_⟩
      · exact (bind_of_ok run).trans ((if_neg empty).trans ((bind_of_ok later).trans rfl))
      · rw [List.flatten_cons, flat, split_eq]
      · exact List.forall_mem_cons.mpr ⟨⟨empty, short⟩, each⟩

end Streaming

theorem probe_lists {plan : ProbePlan Key} (wf : WellFormed visible plan.hwm)
    (scans : Scans visible chunks plan.keys) (some_key : plan.keys ≠ [])
    (segments : plan.segments =
      segmentsOf plan.keys.length (sortManifest (manifestOf chunks 0 plan.keys))) :
    ∃ decoded : ProbeSegment → List Nat,
      (∀ segment ∈ plan.segments, ∀ order : List Nat, order.Perm segment.gramOrder →
        decodeCandidateSegment plan (fetchFrom visible) { segment with gramOrder := order } =
          .ok (decoded segment)) ∧
      Ascending (plan.segments.flatMap decoded) ∧
      ∀ r, r ∈ plan.segments.flatMap decoded ↔ ∀ key ∈ plan.keys, Posted visible key r := by
  have each : ∀ segment, ∃ rowids : List Nat, segment ∈ plan.segments → Ascending rowids ∧
      (∀ r, r ∈ rowids ↔ ∀ key ∈ plan.keys, PostedIn visible key segment.segmentNo r) ∧
      ∀ order : List Nat, order.Perm segment.gramOrder →
        decodeCandidateSegment plan (fetchFrom visible) { segment with gramOrder := order } =
          .ok rowids := by
    intro segment
    by_cases admitted : segment ∈ plan.segments
    · obtain ⟨rowids, spec⟩ := admitted_decodes wf scans some_key (segments ▸ admitted)
      exact ⟨rowids, fun _ => spec⟩
    · exact ⟨[], fun present => absurd present admitted⟩
  obtain ⟨first, listed⟩ := List.exists_mem_of_ne_nil _ some_key
  choose decoded spec using each
  refine ⟨decoded, fun segment present => (spec segment present).2.2, ?_, fun r => ?_⟩
  · refine List.pairwise_flatMap.mpr ⟨fun segment present => (spec segment present).1, ?_⟩
    have numbers := segments_ascending chunks plan.keys
    rw [← segments] at numbers
    refine numbers.imp_of_mem fun {a b} ha hb lt x hx y hy => ?_
    have in_a := (((spec a ha).2.1 x).mp hx first listed).2
    have in_b := (((spec b hb).2.1 y).mp hy first listed).2
    simp only [segmentRows, segmentShift] at in_a in_b
    omega
  · rw [List.mem_flatMap]
    constructor
    · rintro ⟨segment, present, in_segment⟩ key selected
      exact (((spec segment present).2.1 r).mp in_segment key selected).1
    · intro posted
      have here : ∀ key ∈ plan.keys, PostedIn visible key (r / segmentRows) r :=
        fun key selected => ⟨posted key selected, rfl⟩
      have admitted := admitted_of_posted wf scans some_key here
      obtain ⟨_, in_manifest⟩ := List.mem_map.mp (mem_unique.mp (List.mem_filter.mp admitted).1)
      have present : segmentOf (groupAt (sortManifest (manifestOf chunks 0 plan.keys))
          (r / segmentRows)) ∈ plan.segments := by
        rw [segments]
        exact List.mem_map_of_mem admitted
      refine ⟨_, present, ((spec _ present).2.1 r).mpr ?_⟩
      rwa [segmentOf_no (List.ne_nil_of_mem
        (List.mem_filter.mpr ⟨in_manifest.1, by simp [in_manifest.2]⟩))]

theorem admitted_lists {settings : ProbeSettings} {maxGrams : Nat} {plan : ProbePlan Key}
    (wf : WellFormed visible hwm) (scans : Scans visible chunks keys)
    (planned : planIndexProbe settings chunks keys maxGrams hwm = .ok plan) (admitted : plan.admitted = true) :
    ∃ lists, plan.segments.mapM (decodeCandidateSegment plan (fetchFrom visible)) = .ok lists ∧
      Ascending lists.flatten ∧
      ∀ r, r ∈ lists.flatten ↔ plan.keys ≠ [] ∧ ∀ key ∈ plan.keys, Posted visible key r := by
  obtain ⟨same_hwm, _, selected_keys, _, segments⟩ := planIndexProbe_spec planned admitted
  by_cases some_key : plan.keys = []
  · have none_planned : plan.segments = [] := by
      rw [segments, some_key]
      rfl
    rw [none_planned]
    exact ⟨[], rfl, List.Pairwise.nil, fun r => by simp [some_key]⟩
  · obtain ⟨decoded, decodes, ascending, members⟩ := probe_lists (same_hwm ▸ wf)
      (fun key selected => scans key (selected_keys selected)) some_key segments
    refine ⟨plan.segments.map decoded, mapM_ok_of decoded _ fun segment present => ?_, ascending, fun r => ?_⟩
    · exact decodes segment present segment.gramOrder (List.Perm.refl _)
    · exact (members r).trans ⟨fun every => ⟨some_key, every⟩, And.right⟩

/-- The probe outputs the intersection of the selected keys' posting lists, and
    ngram_candidates streams it. -/
theorem probe_outputs_intersection {settings : ProbeSettings} {maxGrams : Nat} {plan : ProbePlan Key}
    (wf : WellFormed visible hwm) (scans : Scans visible chunks keys) (distinct : keys.Nodup)
    (some_key : keys ≠ []) (some_gram : 1 ≤ maxGrams)
    (planned : planIndexProbe settings chunks keys maxGrams hwm = .ok plan)
    (admitted : plan.admitted = true) :
    plan.keys.length = min maxGrams keys.length ∧ plan.keys ⊆ keys ∧ plan.keys.Nodup ∧
    ∃ lists, plan.segments.mapM (decodeCandidateSegment plan (fetchFrom visible)) = .ok lists ∧
      Ascending lists.flatten ∧
      (∀ r, r ∈ lists.flatten ↔ ∀ key ∈ plan.keys, Posted visible key r) ∧
      (∀ r, (∀ key ∈ keys, Posted visible key r) → r ∈ lists.flatten) ∧
      (∀ segment ∈ plan.segments, ∀ order : List Nat, order.Perm segment.gramOrder →
        decodeCandidateSegment plan (fetchFrom visible) { segment with gramOrder := order } =
          decodeCandidateSegment plan (fetchFrom visible) segment) ∧
      ∀ calls > lists.flatten.length, ∃ chunks,
        drain plan (fetchFrom visible) calls ⟨plan.segments, [], 0⟩ = .ok chunks ∧
        chunks.flatten = lists.flatten ∧
        ∀ chunk ∈ chunks, chunk ≠ [] ∧ chunk.length ≤ standardVectorSize := by
  obtain ⟨same_hwm, selected_length, selected_keys, selected_distinct, segments⟩ :=
    planIndexProbe_spec planned admitted
  have some_selected : plan.keys ≠ [] := by
    have keys_pos := List.length_pos_of_ne_nil some_key
    exact List.ne_nil_of_length_pos (by omega)
  obtain ⟨decoded, decodes, asc, members⟩ := probe_lists (same_hwm ▸ wf)
    (fun key selected => scans key (selected_keys selected)) some_selected segments
  have each : ∀ segment ∈ plan.segments,
      decodeCandidateSegment plan (fetchFrom visible) segment = .ok (decoded segment) :=
    fun segment present => decodes segment present segment.gramOrder (List.Perm.refl _)
  refine ⟨selected_length, selected_keys, selected_distinct distinct, plan.segments.map decoded,
    mapM_ok_of decoded _ each, ?_, ?_, ?_, ?_, ?_⟩
  · exact asc
  · exact members
  · exact fun r posted => (members r).mpr fun key selected => posted key (selected_keys selected)
  · exact fun segment present order perm => (decodes segment present order perm).trans
      (each segment present).symm
  · intro calls enough
    exact drain_spec calls ⟨plan.segments, [], 0⟩ each enough

def twoGenerations : List (SegmentRow Nat) :=
  [writtenRow 0 7 0 0 [1, 3], writtenRow 1 8 0 0 [3, 5, 9], writtenRow 2 7 0 1 [5],
    writtenRow 3 7 1 1 [1048577]]

theorem twoGenerations_wellFormed : WellFormed twoGenerations 1048580 where
  mark := by decide
  rowids := by decide
  truthful := by
    simp only [twoGenerations, List.forall_mem_cons]
    refine ⟨?_, ?_, ?_, ?_, by simp⟩
    all_goals exact writtenRow_truthful _ _ _ (by decide) (by decide) (by decide) (by decide)
  generations := by decide +kernel

def twoGenerationsScans (key : Nat) : List (List (SegmentRow Nat)) :=
  [twoGenerations.filter fun row => decide (row.gramKey = key)]

def roomySettings : ProbeSettings := ⟨1000000000, 4, 4, 0, 1000000, fun _ _ => false⟩

def twoGenerationsPlan : ProbePlan Nat :=
  let eights : ProbeDescriptor := ⟨0, 0, 1, 3, 3, 9⟩
  let sevens : List ProbeDescriptor := [⟨0, 1, 0, 2, 1, 3⟩, ⟨0, 1, 2, 1, 5, 5⟩]
  ⟨1048580, [8, 7], eights :: sevens ++ [⟨1, 1, 3, 1, 1048577, 1048577⟩],
    [⟨0, eights :: sevens, [0, 1]⟩], 3, 1, 4, 1, 262216, true, ""⟩

theorem two_generations_intersect : ∃ lists,
    twoGenerationsPlan.segments.mapM
      (decodeCandidateSegment twoGenerationsPlan (fetchFrom twoGenerations)) = .ok lists ∧
    Ascending lists.flatten ∧
    ∀ r, r ∈ lists.flatten ↔ ∀ key ∈ twoGenerationsPlan.keys, Posted twoGenerations key r := by
  have scans : Scans twoGenerations twoGenerationsScans [8, 7] := fun key _ => by
    simp [twoGenerationsScans]
  have planned : planIndexProbe roomySettings twoGenerationsScans [8, 7] 2 1048580 =
      .ok twoGenerationsPlan := by decide +kernel
  obtain ⟨_, _, _, lists, decoded, asc, members, _⟩ := probe_outputs_intersection
    twoGenerations_wellFormed scans (by decide) (by decide) (by decide) planned rfl
  exact ⟨lists, decoded, asc, members⟩

end NgramProbe
