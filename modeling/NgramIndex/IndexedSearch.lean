import NgramIndex.ProbeMemory
import NgramIndex.SearchExact
import NgramIndex.SearchInit

/- An indexed search end to end. The needle's keys are stored for each text it
   occurs in, the index covers the rows up to its mark, the probe decodes the
   rows posted under all selected keys, and the search emits what matches. -/
namespace NgramIndexedSearch
open LabelledRun AscendingLists NgramGram NgramProbe NgramStorage NgramSearchCore NgramSearchInit Fallible
open Utf8
open scoped List
variable {Row : Type} {lower : Char → Nat} {mask : GramKeyMask} {settings : QuerySettings}
  {verdict : IndexVerdict} {segments : Option SegmentsTable} {visible : List (SegmentRow Uhugeint)}
  {bind : QueryBindData} {found : SearchInit} {core : SearchCore} {filters : ScanFilters Row}
  {t : DataTable Row} {value : Row → Option String} {hostLower : List UInt8 → List UInt8}

/-- An index of the searched column as the query sees it. The posting lists may
    hold rowids of rows that are gone or match nothing. -/
structure CoveringIndex (lower : Char → Nat) (mask : GramKeyMask) (verdict : IndexVerdict)
    (segments : Option SegmentsTable) (visible : List (SegmentRow Uhugeint)) (value : Row → Option String)
    (t : DataTable Row) : Prop where
  options : ∃ fn, validateGramOptions verdict.options fn = .ok ()
  wellFormed : WellFormed visible verdict.hwmRowid
  scans : ∀ chunks, segments = some chunks → ∀ keys, Scans visible chunks keys
  covered : ∀ entry ∈ t.visible, ∀ text, value entry.2 = some text →
    (entry.1 : Int) ≤ verdict.hwmRowid → ∀ key ∈ storedKeys lower mask verdict.options text,
      Posted visible key entry.1

/-- The host's lower() folds each codepoint as the index's normalization does. -/
def FoldsLikeIndex (lower : Char → Nat) (hostLower : List UInt8 → List UInt8) : Prop :=
  ∀ (options : GramOptions) (text : String) (folded : GramScratch), options.caseInsensitive = true →
    normalizeString lower (bytes text) options = .ok folded → hostLower (bytes text) = folded.normalized

theorem contains_occurs {options : GramOptions} {needle : String} {needleCmp : List UInt8}
    {cell : Option String} (folds : FoldsLikeIndex lower hostLower)
    (compared : comparisonForm lower options needle = .ok needleCmp)
    (contains : containsPredicate hostLower needleCmp options.caseInsensitive cell = true) :
    ∃ text, cell = some text ∧ Occurs lower options needle text := by
  cases cell with
  | none => cases contains
  | some text =>
    refine ⟨text, rfl, ?_⟩
    have inside := of_decide_eq_true contains
    unfold comparisonForm at compared
    cases insensitive : options.caseInsensitive with
    | false =>
      rw [insensitive] at compared inside
      cases ok_inj compared
      exact Or.inl inside
    | true =>
      rw [insensitive] at compared inside
      rw [if_pos rfl] at compared inside
      cases needleRun : normalizeString lower (bytes needle) options with
      | error message =>
        rw [needleRun] at compared
        cases compared
      | ok q =>
        rw [needleRun] at compared
        cases ok_inj compared
        obtain ⟨folded, textRun⟩ : ∃ folded, normalizeString lower (bytes text) options = .ok folded := by
          rw [bytes_eq_encode, normalizeString_encode]
          exact ⟨_, rfl⟩
        rw [folds options text folded insensitive textRun] at inside
        exact Or.inr ⟨q, folded, needleRun, textRun, inside⟩

theorem add_carries {maxKeys : Nat} {keys grown : NeedleKeys} {key : Uhugeint}
    (added : keys.add key maxKeys = some grown) :
    (∀ old ∈ keys.keys, old ∈ grown.keys) ∧ key ∈ grown.keys := by
  unfold NeedleKeys.add at added
  split at added
  · rename_i known
    cases added
    exact ⟨fun old present => present, known⟩
  · split at added
    · cases added
    · cases added
      exact ⟨fun old present => List.mem_append_left _ present,
        List.mem_append_right _ (List.mem_singleton.mpr rfl)⟩

theorem addAll_present {maxKeys : Nat} {keys : NeedleKeys} {list : List Uhugeint}
    (all : (keys.addAll maxKeys list).1 = true) :
    (∀ key ∈ keys.keys, key ∈ (keys.addAll maxKeys list).2.keys) ∧
      ∀ key ∈ list, key ∈ (keys.addAll maxKeys list).2.keys := by
  induction list generalizing keys with
  | nil => exact ⟨fun key present => present, fun key none => by cases none⟩
  | cons first rest ih =>
    unfold NeedleKeys.addAll at all ⊢
    cases added : keys.add first maxKeys with
    | none =>
      rw [added] at all
      cases all
    | some grown =>
      rw [added] at all
      obtain ⟨old, new⟩ := ih all
      have carried := add_carries added
      refine ⟨fun key present => old key (carried.1 key present), ?_⟩
      intro key present
      rcases List.mem_cons.mp present with rfl | later
      · exact old key carried.2
      · exact new key later

theorem probeable_keys {options : GramOptions} {needle : String} {maxKeys : Nat} {keys grown : NeedleKeys}
    (run : decomposeNeedle lower mask (bytes needle) options maxKeys keys = .ok (.probeable, grown)) :
    grown.keys ≠ [] := by
  have some_added : ∀ list, list ≠ [] → (keys.addAll maxKeys list).1 = true →
      (keys.addAll maxKeys list).2.keys ≠ [] := by
    intro list nonempty all
    obtain ⟨first, rest, rfl⟩ := List.exists_cons_of_ne_nil nonempty
    exact List.ne_nil_of_mem ((addAll_present all).2 first List.mem_cons_self)
  unfold decomposeNeedle at run
  rcases branch_ok run with ⟨_, run⟩ | ⟨_, run⟩
  · cases ok_inj run
  · obtain ⟨⟨scratch, ranges⟩, _, run⟩ := bind_ok run
    cases tokenizer : options.tokenizer with
    | ngram =>
      rw [tokenizer] at run
      rcases branch_ok run with ⟨_, run⟩ | ⟨all, run⟩
      · cases ok_inj run
      · obtain ⟨shape, rfl⟩ := Prod.mk.inj (ok_inj run)
        apply some_added _ _ (not_not.mp all)
        intro nothing
        rw [if_pos (List.map_eq_nil_iff.mp nothing)] at shape
        cases shape
    | sparse =>
      rw [tokenizer] at run
      rcases branch_ok run with ⟨_, run⟩ | ⟨some_covering, run⟩
      · cases ok_inj run
      · obtain ⟨shape, rfl⟩ := Prod.mk.inj (ok_inj run)
        apply some_added
        · intro nothing
          exact some_covering (List.map_eq_nil_iff.mp nothing)
        · by_contra refused
          rw [if_neg refused] at shape
          cases shape

theorem planned_lists {chunks : SegmentsTable} {keys : List Uhugeint} {maxGrams : Nat} {hwm : Int}
    {probeSettings : ProbeSettings} {plan : ProbePlan Uhugeint} (wf : WellFormed visible hwm)
    (scans : ∀ keys, Scans visible chunks keys) (some_key : keys ≠ []) (some_gram : 1 ≤ maxGrams)
    (planned : planIndexProbe probeSettings chunks keys maxGrams hwm = .ok plan)
    (admitted : plan.admitted = true) :
    ∃ lists, plan.segments.mapM (decodeCandidateSegment plan (fetchFrom visible)) = .ok lists ∧
      Ascending lists.flatten ∧ (plan.maxThreads = 0 → lists = []) ∧
      (∀ r ∈ lists.flatten, (r : Int) ≤ hwm) ∧
      ∀ r, (∀ key ∈ keys, Posted visible key r) → r ∈ lists.flatten := by
  obtain ⟨same_hwm, selected_length, selected_keys, _, plan_segments⟩ := planIndexProbe_spec planned admitted
  have some_selected : plan.keys ≠ [] := by
    have keys_pos := List.length_pos_of_ne_nil some_key
    exact List.ne_nil_of_length_pos (by omega)
  obtain ⟨decoded, decodes, ascending, members⟩ :=
    probe_lists (same_hwm ▸ wf) (scans plan.keys) some_selected plan_segments
  have each : ∀ segment ∈ plan.segments,
      decodeCandidateSegment plan (fetchFrom visible) segment = .ok (decoded segment) :=
    fun segment present => decodes segment present segment.gramOrder (List.Perm.refl _)
  refine ⟨plan.segments.map decoded, mapM_ok_of decoded _ each, ascending, ?_, ?_, ?_⟩
  · intro no_threads
    by_contra some_list
    have some_segment : plan.segments ≠ [] := fun none_left => some_list (by rw [none_left]; rfl)
    obtain ⟨_, _, threads, _⟩ := planned_peaks planned admitted some_segment
    omega
  · intro r listed
    obtain ⟨key, rest, keys_eq⟩ := List.exists_cons_of_ne_nil some_selected
    have posted := (members r).mp listed key (by rw [keys_eq]; exact List.mem_cons_self)
    obtain ⟨row, stored, _, inside⟩ := posted
    exact ((wf.truthful row stored).inside r inside).2
  · intro r posted
    exact (members r).mpr fun key selected => posted key (selected_keys selected)

/-- The core of an init that probes keys stored for every row that passes, or that
    scans the table whole. -/
theorem decided_probed {outcome : ProbeOutcome} {keysOf : NeedleKeys → Prop} {extraColumns : Bool}
    (index : verdict.objection = "" → CoveringIndex lower mask verdict segments visible value t)
    (some_gram : 1 ≤ settings.maxGramsPerQuery) (decided : Decided verdict segments settings outcome keysOf)
    (some_key : ∀ keys, keysOf keys → keys.keys ≠ [])
    (stored : ∀ keys, keysOf keys → verdict.objection = "" → ∀ row, filters.passes row = true →
      ∃ text, value row = some text ∧ ∀ key ∈ keys.keys, key ∈ storedKeys lower mask verdict.options text) :
    ∃ core, outcome.core visible extraColumns = .ok core ∧ Probed filters core t := by
  cases probe : outcome.probe with
  | none =>
    refine ⟨⟨outcome.hwm, none, extraColumns⟩, ?_, ?_⟩
    · rw [ProbeOutcome.core, probe]
    · rw [decided.unprobed probe]
      exact unprobed_covers filters t extraColumns
  | some plan =>
    obtain ⟨usable, mark, chunks, keys, table, these, admitted, planned⟩ := decided.probed plan probe
    have covering := index usable
    obtain ⟨lists, decoded, ascending, threads, below, covers⟩ := planned_lists covering.wellFormed
      (covering.scans chunks table) (some_key keys these) some_gram planned admitted
    refine ⟨⟨outcome.hwm, some ⟨lists, plan.maxThreads⟩, extraColumns⟩, ?_, ?_⟩
    · simp only [ProbeOutcome.core, probe]
      rw [bind_of_ok decoded]
      rfl
    · constructor
      case ascending => exact ascending
      case below =>
        rw [mark]
        exact below
      case covers =>
        intro entry present passes low
        obtain ⟨text, holds, keyed⟩ := stored keys these usable entry.2 passes
        rw [mark] at low
        apply covers
        intro key listed
        exact covering.covered entry present text holds low key (keyed key listed)
      case threads => exact threads
      case marked =>
        intro _ absent
        cases absent

/-- The core that init hands over is covered by the index, or scans the table whole. -/
theorem search_probed {extraColumns : Bool}
    (index : verdict.objection = "" → CoveringIndex lower mask verdict segments visible value t)
    (folds : FoldsLikeIndex lower hostLower) (some_gram : 1 ≤ settings.maxGramsPerQuery)
    (init : searchInitGlobal lower mask settings verdict segments bind = .ok found)
    (predicate : ∀ row, filters.passes row =
      containsPredicate hostLower found.needleCmp found.options.caseInsensitive (value row)) :
    ∃ core, found.outcome.core visible extraColumns = .ok core ∧ Probed filters core t := by
  obtain ⟨compared, same_options, decided⟩ := searchInitGlobal_decided init
  apply decided_probed index some_gram decided
  case some_key => exact fun keys decomposed => probeable_keys decomposed
  case stored =>
    intro keys decomposed usable row passes
    obtain ⟨fn, valid⟩ := (index usable).options
    rw [predicate] at passes
    obtain ⟨text, holds, occurs⟩ := contains_occurs folds compared passes
    rw [same_options usable] at occurs
    refine ⟨text, holds, ?_⟩
    intro key listed
    rcases needle_key_stored valid decomposed occurs key listed with before | stored
    · cases before
    · exact stored

section Runs

/-- Row numbering does not change while the query runs. -/
def Unmoved (s : SearchState Row) : SearchEvent Row → Prop
  | .checkpoint table => table.visible = s.table.visible
  | .finalize | .run _ _ | .commit _ _ => True

theorem unmoved_keeps_sides {s : SearchState Row} (e : SearchEvent Row) (unmoved : Unmoved s e) :
    KeepsSides filters s e := by
  cases e with
  | checkpoint table =>
    have still : table.visible = s.table.visible := unmoved
    simp only [KeepsSides, still]
    exact List.forall₂_same.mpr fun _ _ _ => rfl
  | finalize | run | commit => trivial

variable [DecidableEq Row]

instance (s : SearchState Row) : ∀ e, Decidable (Unmoved s e)
  | .checkpoint table => inferInstanceAs (Decidable (table.visible = s.table.visible))
  | .finalize | .run _ _ | .commit _ _ => isTrue trivial

theorem probed_exact (probed : Probed filters core t) {artOnly : Bool} {localRows : List Row} {workers : Nat}
    {events : List (SearchEvent Row)} {s : SearchState Row} (some_worker : 0 < workers)
    (unmoved : Along (searchStep core filters) Unmoved (startSearch core t artOnly localRows workers) events)
    (run : exec (searchStep core filters) (startSearch core t artOnly localRows workers) events = some s) :
    SearchExact filters (startSearch core t artOnly localRows workers) s := by
  have keeps : Along (searchStep core filters) (KeepsSides filters)
      (startSearch core t artOnly localRows workers) events :=
    along_of_run (fun s e _ _ => unmoved_keeps_sides e) run unmoved
  exact search_exact_along probed some_worker keeps run

/-- A search emits the visible rows whose value satisfies the contains predicate,
    committed and local, each once, whether or not it probed the index. -/
theorem indexed_search_exact {extraColumns : Bool}
    (index : verdict.objection = "" → CoveringIndex lower mask verdict segments visible value t)
    (folds : FoldsLikeIndex lower hostLower) (some_gram : 1 ≤ settings.maxGramsPerQuery)
    (init : searchInitGlobal lower mask settings verdict segments bind = .ok found)
    (predicate : ∀ row, filters.passes row =
      containsPredicate hostLower found.needleCmp found.options.caseInsensitive (value row)) :
    ∃ core, found.outcome.core visible extraColumns = .ok core ∧
      ∀ (artOnly : Bool) (localRows : List Row) (workers : Nat) (events : List (SearchEvent Row))
        (s : SearchState Row), 0 < workers →
        Along (searchStep core filters) Unmoved (startSearch core t artOnly localRows workers) events →
        exec (searchStep core filters) (startSearch core t artOnly localRows workers) events = some s →
        SearchExact filters (startSearch core t artOnly localRows workers) s := by
  obtain ⟨core, handed, probed⟩ := @search_probed _ _ _ _ _ _ _ _ _ _ _ _ _ extraColumns index folds
    some_gram init predicate
  refine ⟨core, handed, ?_⟩
  intro artOnly localRows workers events s some_worker unmoved run
  exact probed_exact probed some_worker unmoved run

end Runs

def foldingOptions : GramOptions := ⟨.ngram, 3, 3, true⟩
def wholeMask : GramKeyMask := ⟨0xFFFFFFFFFFFFFFFF, 0xFFFFFFFFFFFFFFFF⟩
def asciiLower (c : Char) : Nat := c.toLower.toNat

def hostFold (data : List UInt8) : List UInt8 :=
  match normalizeString asciiLower data foldingOptions with
  | .ok folded => folded.normalized
  | .error _ => []

theorem hostFold_folds : FoldsLikeIndex asciiLower hostFold := by
  intro options text folded insensitive run
  have same : NgramGram.normalize asciiLower options = NgramGram.normalize asciiLower foldingOptions := by
    funext codepoints
    unfold NgramGram.normalize foldCodepoint
    rw [insensitive]
    rfl
  unfold hostFold
  rw [bytes_eq_encode, normalizeString_encode] at *
  cases ok_inj run
  rw [same]

/-- Rowids 1 and 3 are gone, 2 holds NULL and 4 lies past the mark. -/
def zebraTable : DataTable (Option String) where
  rowGroups := [⟨0, [some (some "Zebra"), none, some none, none, some (some "a zebu")]⟩]
  nextRowId := 5
  rowGroupSize := 2048
  ascending := by decide
  allocated := by decide

def zebraSegments : List (SegmentRow Uhugeint) :=
  [writtenRow 0 ⟨7093839015689846784, 0⟩ 0 0 [0, 3], writtenRow 1 ⟨7305526889873932288, 0⟩ 0 0 [0],
    writtenRow 2 ⟨8819563197414506496, 0⟩ 0 0 [0, 3]]

def zebraVerdict : IndexVerdict := ⟨.available, "", foldingOptions, 3⟩
def zebraSettings : QuerySettings := ⟨100, 1, ⟨1000000000, 4, 4, 0, 1000000, fun _ _ => false⟩⟩

def zebraChunks : SegmentsTable := fun key => [zebraSegments.filter fun row => decide (row.gramKey = key)]

def zebFilters : ScanFilters (Option String) where
  passes row := containsPredicate hostFold (bytes "zeb") true row
  excludes _ _ := false
  sound _ _ never := by cases never

def zebCore : SearchCore := ⟨3, some ⟨[[0, 3]], 1⟩, true⟩

theorem zebra_covered :
    CoveringIndex asciiLower wholeMask zebraVerdict (some zebraChunks) zebraSegments id zebraTable where
  options := ⟨"ngram_search", rfl⟩
  wellFormed := by
    constructor
    case mark => decide
    case rowids => decide
    case truthful =>
      simp only [zebraSegments, List.forall_mem_cons]
      refine ⟨?_, ?_, ?_, by simp⟩
      all_goals exact writtenRow_truthful _ _ _ (by decide) (by decide) (by decide) (by decide)
    case generations => decide +kernel
  scans chunks same keys key _ := by
    cases same
    simp [zebraChunks]
  covered entry present text holds low key stored := by
    have rows : zebraTable.visible = [(0, some "Zebra"), (2, none), (4, some "a zebu")] := by decide +kernel
    rw [rows] at present
    have posted : ∀ key ∈ storedKeys asciiLower wholeMask foldingOptions "Zebra",
        ∃ row ∈ zebraSegments, row.gramKey = key ∧ 0 ∈ row.rowids := by decide +kernel
    rcases List.mem_cons.mp present with rfl | present
    · cases holds
      exact posted key stored
    · rcases List.mem_cons.mp present with rfl | present
      · cases holds
      · rcases List.mem_cons.mp present with rfl | none
        · exact absurd low (by decide)
        · cases none

/-- One worker fetches a live and a dead candidate while the other scans the tail
    and the local rows. -/
theorem zeb_found_folded : ∃ found core s,
    searchInitGlobal asciiLower wholeMask zebraSettings zebraVerdict (some zebraChunks)
      ⟨"ZEB", foldingOptions⟩ = .ok found ∧
    found.outcome.core zebraSegments true = .ok core ∧
    exec (searchStep core zebFilters) (startSearch core zebraTable false [some "ZEBU", none] 2)
      (.finalize :: [0, 1, 0, 1, 0, 1, 0, 1, 0, 1, 0, 1, 0, 1, 1, 1].map fun w => .run w 1) = some s ∧
    s.emitted = [some "a zebu", some "Zebra", some "ZEBU"] ∧
    SearchExact zebFilters (startSearch core zebraTable false [some "ZEBU", none] 2) s := by
  have checked : (searchInitGlobal asciiLower wholeMask zebraSettings zebraVerdict (some zebraChunks)
      ⟨"ZEB", foldingOptions⟩).toOption.map (fun found => (found.options, found.needleCmp,
        found.outcome.core zebraSegments true)) = some (foldingOptions, bytes "zeb", .ok zebCore) := by
    decide +kernel
  obtain ⟨found, initialized, facts⟩ := Option.map_eq_some_iff.mp checked
  obtain ⟨options, facts⟩ := Prod.mk.inj facts
  obtain ⟨needleCmp, handed⟩ := Prod.mk.inj facts
  have init := toOption_ok initialized
  have predicate : ∀ row, zebFilters.passes row =
      containsPredicate hostFold found.needleCmp found.options.caseInsensitive (id row) := by
    intro row
    rw [options, needleCmp]
    rfl
  have ends : (exec (searchStep zebCore zebFilters) (startSearch zebCore zebraTable false [some "ZEBU", none] 2)
      (.finalize :: [0, 1, 0, 1, 0, 1, 0, 1, 0, 1, 0, 1, 0, 1, 1, 1].map fun w => .run w 1)).map
        SearchState.emitted = some [some "a zebu", some "Zebra", some "ZEBU"] := by
    decide +kernel
  obtain ⟨s, run, emitted⟩ := Option.map_eq_some_iff.mp ends
  have unmoved : Along (searchStep zebCore zebFilters) Unmoved
      (startSearch zebCore zebraTable false [some "ZEBU", none] 2)
      (.finalize :: [0, 1, 0, 1, 0, 1, 0, 1, 0, 1, 0, 1, 0, 1, 1, 1].map fun w => .run w 1) := by
    decide +kernel
  obtain ⟨core, handed_core, exact_search⟩ := indexed_search_exact (fun _ => zebra_covered) hostFold_folds
    (by decide) init predicate
  cases ok_inj (handed.symm.trans handed_core)
  exact ⟨found, zebCore, s, init, handed, run, emitted,
    exact_search false [some "ZEBU", none] 2 _ s (by decide) unmoved run⟩

end NgramIndexedSearch
