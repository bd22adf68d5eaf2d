import NgramIndex.HealthyIndex
import NgramIndex.IndexedSearch
import NgramIndex.PragmaParameters
import NgramIndex.SearchProgress

/- Searches over the states that maintenance reaches. A search reads the rows and the index
   of its transaction's snapshot, and the rowid guard as it stands when the search starts. -/
namespace NgramReachableSearch
open LabelledRun Fallible Utf8 NgramGram NgramMaintenance NgramRowIdGuard NgramCoverage NgramGenerations
open NgramProbe NgramStorage NgramSearchCore NgramSearchInit NgramIndexedSearch NgramHealthyIndex
open NgramPragmaParameters
open scoped List

abbrev TextTable := IndexedTable GramOptions String Uhugeint

def keyedBy (lower : Char → Nat) (mask : GramKeyMask) : GramOptions → String → List Uhugeint :=
  storedKeys lower mask

def Parsed (_ : TextTable) : IndexEvent GramOptions String → Prop
  | .prepareCreate options _ _ => ∃ parameters, parseCreateOptions parameters = .ok options
  | _ => True

def Valid (options : GramOptions) : Prop := ∀ fn, validateGramOptions options fn = .ok ()

section Options
variable {Options Text Key : Type} [DecidableEq Options] [DecidableEq Key]
variable {gramKeys : Options → Text → List Key} {w u : IndexedTable Options Text Key}

def preparedOptions : Prepared Options → Options
  | .create options _ _ _ => options
  | .refresh options _ => options
  | .compact options _ => options

theorem runPrepared_options {script : Prepared Options} {token : String} {localRows : List (BaseRow Text)}
    (run : runPrepared gramKeys w token localRows script = .ok u) :
    u.pending = w.pending ∧ ∃ index, u.index = some (preparedOptions script, index) := by
  cases script with
  | create options sharesGuard totalRows partitions =>
    obtain ⟨_, run⟩ := check_ok run
    obtain ⟨table, _, run⟩ := bind_ok run
    cases ok_inj run
    exact ⟨rfl, _, rfl⟩
  | refresh options script =>
    obtain ⟨index, _, run⟩ := bind_ok run
    obtain ⟨refreshed, _, run⟩ := bind_ok run
    cases ok_inj run
    exact ⟨rfl, _, rfl⟩
  | compact options script =>
    obtain ⟨index, _, run⟩ := bind_ok run
    obtain ⟨compacted, _, run⟩ := bind_ok run
    cases ok_inj run
    exact ⟨rfl, _, rfl⟩

structure OptionsMeet (meets : Options → Prop) (w : IndexedTable Options Text Key) : Prop where
  index : ∀ options index, w.index = some (options, index) → meets options
  pending : ∀ script ∈ w.pending, meets (preparedOptions script)

omit [DecidableEq Options] [DecidableEq Key] in
theorem prepared_meet {meets : Options → Prop} (held : OptionsMeet meets w)
    {script : Except String (Prepared Options)}
    (chosen : ∀ prepared, script = .ok prepared → meets (preparedOptions prepared)) :
    OptionsMeet meets (w.prepare script) where
  index options index found := held.index options index (by rwa [prepare_index] at found)
  pending prepared listed := by
    rcases prepare_pending listed with before | expanded
    · exact held.pending prepared before
    · exact chosen prepared expanded

/-- Only a create brings options in; every other script copies those of the index. -/
theorem options_step {meets : Options → Prop} {e : IndexEvent Options Text} (held : OptionsMeet meets w)
    (created : ∀ options totalRows partitions, e = .prepareCreate options totalRows partitions → meets options)
    (step : indexStep gramKeys w e = some u) : OptionsMeet meets u := by
  cases e with
  | host e values =>
    obtain ⟨_, _, index, pending, _⟩ := hostStep_cases step
    constructor
    case index =>
      intro options state found
      rw [index] at found
      exact held.index options state found
    case pending =>
      intro script listed
      rw [pending] at listed
      exact held.pending script listed
  | indexOtherColumn token =>
    simp only [indexStep, Option.ite_none_right_eq_some, Option.some.injEq] at step
    obtain ⟨_, rfl⟩ := step
    exact ⟨held.index, held.pending⟩
  | prepareCreate options totalRows partitions =>
    simp only [indexStep, Option.ite_none_right_eq_some, Option.some.injEq] at step
    obtain ⟨_, rfl⟩ := step
    apply prepared_meet held
    intro prepared expanded
    obtain ⟨_, expanded⟩ := check_ok expanded
    cases ok_inj expanded
    exact created options totalRows partitions rfl
  | prepareRefresh totalRows partitions maxRows =>
    simp only [indexStep, Option.ite_none_right_eq_some, Option.some.injEq] at step
    obtain ⟨_, rfl⟩ := step
    apply prepared_meet held
    intro prepared expanded
    obtain ⟨⟨options, index⟩, resolved, expanded⟩ := bind_ok expanded
    obtain ⟨_, expanded⟩ := check_ok expanded
    cases ok_inj expanded
    exact held.index options index (resolved_index resolved)
  | prepareCompact purge fragmented partitions =>
    simp only [indexStep, Option.some.injEq] at step
    subst step
    apply prepared_meet held
    intro prepared expanded
    obtain ⟨⟨options, index⟩, resolved, expanded⟩ := bind_ok expanded
    cases ok_inj expanded
    exact held.index options index (resolved_index resolved)
  | run handle token localRows =>
    simp only [indexStep, Option.ite_none_right_eq_some, Option.map_eq_some_iff] at step
    obtain ⟨_, script, pending, step⟩ := step
    have others : ∀ other ∈ w.pending.eraseIdx handle, meets (preparedOptions other) := fun other kept =>
      held.pending other (List.mem_of_mem_eraseIdx kept)
    split at step
    · subst step
      exact ⟨held.index, others⟩
    · rename_i done ran
      subst step
      obtain ⟨same, index, found⟩ := runPrepared_options ran
      constructor
      case index =>
        intro options state there
        rw [found] at there
        cases there
        exact held.pending script (List.mem_of_getElem? pending)
      case pending =>
        intro other listed
        rw [same] at listed
        exact others other listed
  | rollback handle =>
    simp only [indexStep, Option.ite_none_right_eq_some, Option.some.injEq] at step
    obtain ⟨_, rfl⟩ := step
    exact ⟨held.index, fun other kept => held.pending other (List.mem_of_mem_eraseIdx kept)⟩

end Options

section Snapshots
variable {lower : Char → Nat} {mask : GramKeyMask} {snapshot now : TextTable}

/-- A transaction's snapshot of a table, and the table's state when the transaction
    runs a statement. Every option in use came through the pragma. -/
def Reachable (lower : Char → Nat) (mask : GramKeyMask) (snapshot now : TextTable) : Prop :=
  ∃ db nextRowId rows before since, (rows.map BaseRow.rowid).Nodup ∧ (∀ row ∈ rows, row.rowid < nextRowId) ∧
    Along (indexStep (keyedBy lower mask)) Parsed (unindexed db nextRowId rows) before ∧
    exec (indexStep (keyedBy lower mask)) (unindexed db nextRowId rows) before = some snapshot ∧
    exec (indexStep (keyedBy lower mask)) snapshot since = some now

structure Reached (lower : Char → Nat) (mask : GramKeyMask) (snapshot now : TextTable) : Prop where
  tracked : Tracked (keyedBy lower mask) snapshot
  numbered : TableNumbered snapshot
  options : OptionsMeet Valid snapshot
  advances : Advances snapshot now

theorem reachable_reached (reachable : Reachable lower mask snapshot now) : Reached lower mask snapshot now := by
  obtain ⟨db, nextRowId, rows, before, since, distinct, below, parsed, run, later⟩ := reachable
  have start : Tracked (keyedBy lower mask) (unindexed db nextRowId rows : TextTable) :=
    unindexed_tracked db distinct below
  obtain ⟨tracked, numbered⟩ := run_numbered start (unindexed_numbered db nextRowId rows) run
  have fresh : OptionsMeet Valid (unindexed db nextRowId rows : TextTable) :=
    ⟨fun _ _ found => absurd found.symm (Option.some_ne_none _), fun _ none => absurd none List.not_mem_nil⟩
  have preserves : ∀ (s : TextTable) e t, OptionsMeet Valid s → Parsed s e →
      indexStep (keyedBy lower mask) s e = some t → OptionsMeet Valid t := by
    intro s e t held met step
    apply options_step held _ step
    rintro options totalRows partitions rfl
    obtain ⟨parameters, parsed⟩ := met
    exact fun fn => parsed_valid parsed fn
  exact ⟨tracked, numbered, exec_invariant_along preserves parsed run fresh, (run_tracked tracked later).2⟩

def segmentRows (w : TextTable) : List (SegmentRow Uhugeint) :=
  match w.index with
  | none => []
  | some (_, index) => index.segments

def defaultOptions : GramOptions := ⟨.ngram, 3, 3, true⟩

/-- ValidateIndex of an operation planned earlier. A change of the registry since then is
    named; the row is the snapshot's, the guard the one of the moment. -/
def validateIndex (snapshot now : TextTable) (changed : Option String) : IndexVerdict :=
  verdictOn "" ⟨defaultOptions, -1⟩ <| match changed with
  | some reason => .error reason
  | none => .ok (snapshot.index.map fun (options, index) =>
      ((guardReason now.table index.hwm).getD "", ⟨options, index.hwm⟩))

theorem guardReason_empty {t : GuardedTable} {hwm : Int} (silent : (guardReason t hwm).getD "" = "") :
    guardReason t hwm = none := by
  unfold guardReason at silent ⊢
  split
  · rename_i unseen
    rw [if_pos unseen] at silent
    exact absurd silent (by decide)
  · rename_i seen
    rw [if_neg seen] at silent
    split
    · rename_i latched
      rw [if_pos latched] at silent
      exact absurd silent (by decide)
    · rfl

theorem unobjected_iff {verdict : IndexVerdict} :
    verdict.objection = "" ↔ verdict.availability = .available ∧ verdict.reason = "" := by
  unfold IndexVerdict.objection
  constructor
  · intro silent
    split at silent
    · exact absurd silent (by decide)
    · rename_i available
      refine ⟨not_not.mp available, ?_⟩
      by_contra loud
      rw [if_pos loud] at silent
      have starts := (String.append_eq_empty_iff.mp silent).1
      exact absurd starts (by decide)
  · rintro ⟨available, silent⟩
    rw [if_neg (not_not.mpr available), if_neg (not_not.mpr silent)]

/-- Where nothing objects, the verdict is the row of an index that the guard vouches for. -/
theorem unobjected {changed : Option String} (usable : (validateIndex snapshot now changed).objection = "") :
    ∃ options index, snapshot.index = some (options, index) ∧ now.table.guard.unsafeReuse = false ∧
      validateIndex snapshot now changed = ⟨.available, "", options, index.hwm⟩ := by
  obtain ⟨available, silent⟩ := unobjected_iff.mp usable
  cases changed with
  | some reason => cases available
  | none =>
    cases found : snapshot.index with
    | none =>
      rw [validateIndex, found] at available
      cases available
    | some entry =>
      obtain ⟨options, index⟩ := entry
      have answer : validateIndex snapshot now none =
          ⟨.available, (guardReason now.table index.hwm).getD "", options, index.hwm⟩ := by
        rw [validateIndex, found]
        rfl
      rw [answer] at silent ⊢
      have quiet : (guardReason now.table index.hwm).getD "" = "" := silent
      exact ⟨options, index, rfl, guardReason_none (guardReason_empty quiet), by rw [quiet]⟩

/-- The storage that the transaction reads holds its snapshot's rows, under their rowids. -/
def Stores {Row : Type} (value : Row → Option String) (t : DataTable Row) (rows : List (BaseRow String)) : Prop :=
  (t.visible.map fun entry => (⟨entry.1, value entry.2⟩ : BaseRow String)) ~ rows

variable {Row : Type} {value : Row → Option String} {t : DataTable Row} {changed : Option String}
  {segments : Option SegmentsTable}

/-- A latch since the snapshot is seen, and none means that none was set before it. -/
theorem reached_covering (reached : Reached lower mask snapshot now) (stores : Stores value t snapshot.rows)
    (scans : ∀ chunks, segments = some chunks → ∀ keys, Scans (segmentRows snapshot) chunks keys)
    (usable : (validateIndex snapshot now changed).objection = "") :
    CoveringIndex lower mask (validateIndex snapshot now changed) segments (segmentRows snapshot) value t := by
  obtain ⟨options, index, found, vouched, verdict⟩ := unobjected usable
  have rows : segmentRows snapshot = index.segments := by rw [segmentRows, found]
  have vouched_then : snapshot.table.guard.unsafeReuse = false := by
    cases latched : snapshot.table.guard.unsafeReuse with
    | false => rfl
    | true =>
      rw [reached.advances.latched (by simp [found]) latched] at vouched
      cases vouched
  have indexed := reached.tracked.indexed options index found vouched_then
  rw [verdict]
  constructor
  case options => exact ⟨"ngram", reached.options.index options index found "ngram"⟩
  case wellFormed =>
    rw [rows]
    exact numbered_wellFormed (reached.numbered options index found) (reached.tracked.mark options index found).2
  case scans => exact scans
  case covered =>
    intro entry present text holds low key stored
    have standing := stores.subset (List.mem_map.mpr ⟨entry, present, rfl⟩)
    rw [rows]
    exact indexed.covered _ standing text holds low key stored

end Snapshots

section Searches
variable {Row : Type} [DecidableEq Row] {lower : Char → Nat} {mask : GramKeyMask} {snapshot now : TextTable}
  {value : Row → Option String} {t : DataTable Row} {changed : Option String} {segments : Option SegmentsTable}
  {settings : QuerySettings} {bind : QueryBindData} {core : SearchCore} {filters : ScanFilters Row}

/-- What a search owes to the values it may return: each no more often than it is
    wanted, and all of them when the workers are done. -/
structure Returns (value : Row → Option String) (wanted : Option String → Bool) (values : List (Option String))
    (s : SearchState Row) : Prop where
  once : s.emitted.map value <+~ values.filter wanted
  complete : s.finished → s.emitted.map value ~ values.filter wanted

omit [DecidableEq Row] in
theorem matches_values {wanted : Option String → Bool} {artOnly : Bool} {localRows : List Row} {workers : Nat}
    (stores : Stores value t snapshot.rows) (applied : ∀ row, filters.passes row = wanted (value row)) :
    ((startSearch core t artOnly localRows workers).matches filters).map value ~
      (snapshot.rows.map BaseRow.value ++ localRows.map value).filter wanted := by
  have passes : filters.passes = wanted ∘ value := funext applied
  have standing : (t.visible.map Prod.snd).map value ~ snapshot.rows.map BaseRow.value := by
    have values := stores.map BaseRow.value
    rw [List.map_map] at values ⊢
    exact values
  rw [SearchState.matches, passes, ← List.filter_map, List.map_append]
  exact (standing.append_right _).filter wanted

omit [DecidableEq Row] in
theorem exact_returns {wanted : Option String → Bool} {artOnly : Bool} {localRows : List Row} {workers : Nat}
    {s : SearchState Row} (stores : Stores value t snapshot.rows)
    (applied : ∀ row, filters.passes row = wanted (value row))
    (exact_search : SearchExact filters (startSearch core t artOnly localRows workers) s) :
    Returns value wanted (snapshot.rows.map BaseRow.value ++ localRows.map value) s where
  once := by
    obtain ⟨emitted, perm, chosen⟩ := exact_search.once
    have some_of : s.emitted.map value <+~ _ := ⟨emitted.map value, perm.map value, chosen.map value⟩
    exact some_of.trans (matches_values stores applied).subperm
  complete finished := ((exact_search.complete finished).map value).trans (matches_values stores applied)

/-- A probed search hands out the rows that pass, with them the wanted values, and
    never gets stuck. -/
theorem probed_returns {wanted : Option String → Bool} (probed : Probed filters core t)
    (stores : Stores value t snapshot.rows) (applied : ∀ row, filters.passes row = wanted (value row))
    {artOnly : Bool} {localRows : List Row} {workers : Nat} {events : List (SearchEvent Row)} {s : SearchState Row}
    (some_worker : 0 < workers)
    (keeps : Along (searchStep core filters) (KeepsSides filters) (startSearch core t artOnly localRows workers) events)
    (run : exec (searchStep core filters) (startSearch core t artOnly localRows workers) events = some s) :
    SearchExact filters (startSearch core t artOnly localRows workers) s ∧
      Returns value wanted (snapshot.rows.map BaseRow.value ++ localRows.map value) s ∧
      SearchLive core filters s := by
  have handed := search_exact_along probed some_worker keeps run
  exact ⟨handed, exact_returns stores applied handed, search_live_along probed keeps run⟩

theorem comparisonForm_returns (lower : Char → Nat) (options : GramOptions) (needle : String) :
    ∃ needleCmp, comparisonForm lower options needle = .ok needleCmp := by
  unfold comparisonForm
  split
  · rw [bytes_eq_encode, normalizeString_encode]
    exact ⟨_, rfl⟩
  · exact ⟨_, rfl⟩

theorem probeKeys_accepts (reached : Reached lower mask snapshot now)
    (scans : ∀ chunks, segments = some chunks → ∀ keys, Scans (segmentRows snapshot) chunks keys)
    (usable : (validateIndex snapshot now changed).objection = "") (keys : NeedleKeys) :
    Overflows (probeKeys settings segments keys (validateIndex snapshot now changed).hwmRowid) := by
  obtain ⟨options, index, found, _, verdict⟩ := unobjected usable
  have numbered := reached.numbered options index found
  have wf := numbered_wellFormed numbered (reached.tracked.mark options index found).2
  have rows : segmentRows snapshot = index.segments := by rw [segmentRows, found]
  rw [verdict]
  cases table : segments with
  | none => exact fails_ok _
  | some chunks =>
    have scanned := scans chunks table keys.keys
    rw [rows] at scanned
    refine fails_bind (plan_accepts numbered.held wf scanned _ _) fun plan _ => ?_
    exact fails_branch (fun _ => fails_ok _) fun _ => fails_ok _

theorem searchInit_accepts (reached : Reached lower mask snapshot now)
    (scans : ∀ chunks, segments = some chunks → ∀ keys, Scans (segmentRows snapshot) chunks keys) :
    Overflows (searchInitGlobal lower mask settings (validateIndex snapshot now changed) segments bind) := by
  unfold searchInitGlobal
  generalize (if (validateIndex snapshot now changed).availability = .available then
    (validateIndex snapshot now changed).options else bind.boundOptions) = options
  obtain ⟨needleCmp, compared⟩ := comparisonForm_returns lower options bind.needle
  rw [bind_of_ok compared]
  refine fails_bind ?_ fun outcome _ => fails_ok _
  refine fails_branch (fun _ => fails_ok _) fun silent => ?_
  obtain ⟨shape, keys, decomposed⟩ := @decomposeNeedle_returns lower options mask bind.needle settings.maxProbeKeys
    .empty
  rw [bind_of_ok decomposed]
  cases shape with
  | tooShort => exact fails_ok _
  | overBudget => exact fails_ok _
  | probeable => exact probeKeys_accepts reached scans (not_not.mp silent) keys

/-- Filters that no zone map can prune with. -/
def unprunedFilters (passes : Row → Bool) : ScanFilters Row where
  passes := passes
  excludes _ _ := false
  sound _ _ never := by cases never

/-- Over any run of host commits, deletes, checkpoints and maintenance, and whatever runs
    between a transaction's snapshot and its statement: an explicit search starts or fails
    on the overflow of its own arithmetic, no turn of it fails, it can always be finished,
    and while no checkpoint carries a matching row between the units begun and the others,
    it returns the snapshot's rows that contain the needle and the transaction's own. -/
theorem reachable_search_exact (lower : Char → Nat) (mask : GramKeyMask) (hostLower : List UInt8 → List UInt8)
    (folds : FoldsLikeIndex lower hostLower) {snapshot now : TextTable}
    (reachable : Reachable lower mask snapshot now) (stores : Stores value t snapshot.rows)
    (scans : ∀ chunks, segments = some chunks → ∀ keys, Scans (segmentRows snapshot) chunks keys)
    (some_gram : 1 ≤ settings.maxGramsPerQuery) :
    Overflows (searchInitGlobal lower mask settings (validateIndex snapshot now changed) segments bind) ∧
    ∀ found, searchInitGlobal lower mask settings (validateIndex snapshot now changed) segments bind = .ok found →
      ∀ extraColumns, ∃ core, found.outcome.core (segmentRows snapshot) extraColumns = .ok core ∧
        ∀ filters : ScanFilters Row, (∀ row, filters.passes row =
          containsPredicate hostLower found.needleCmp found.options.caseInsensitive (value row)) →
        ∀ (artOnly : Bool) (localRows : List Row) (workers : Nat) (events : List (SearchEvent Row))
          (s : SearchState Row), 0 < workers →
          Along (searchStep core filters) (KeepsSides filters) (startSearch core t artOnly localRows workers) events →
          exec (searchStep core filters) (startSearch core t artOnly localRows workers) events = some s →
          SearchExact filters (startSearch core t artOnly localRows workers) s ∧
          Returns value (containsPredicate hostLower found.needleCmp found.options.caseInsensitive)
            (snapshot.rows.map BaseRow.value ++ localRows.map value) s ∧ SearchLive core filters s := by
  have reached := reachable_reached reachable
  have covering := fun usable => @reached_covering lower mask snapshot now Row value t changed segments reached
    stores scans usable
  refine ⟨searchInit_accepts reached scans, ?_⟩
  intro found init extraColumns
  obtain ⟨core, handed, _⟩ := @search_probed _ _ _ _ _ _ _ _ _ (unprunedFilters fun row =>
    containsPredicate hostLower found.needleCmp found.options.caseInsensitive (value row)) t value hostLower
    extraColumns covering folds some_gram init fun _ => rfl
  refine ⟨core, handed, ?_⟩
  intro filters predicate artOnly localRows workers events s some_worker keeps run
  obtain ⟨same, handed_same, probed⟩ := @search_probed _ _ _ _ _ _ _ _ _ filters t value hostLower extraColumns
    covering folds some_gram init predicate
  cases ok_inj (handed.symm.trans handed_same)
  exact probed_returns probed stores predicate some_worker keeps run

end Searches

def zebuStart : TextTable := unindexed ⟨false, false, 7⟩ 2 [⟨0, some "Zebra"⟩, ⟨1, none⟩]

def zebuStep : TextTable → IndexEvent GramOptions String → Option TextTable := indexStep (keyedBy asciiLower wholeMask)

def zebuBefore : List (IndexEvent GramOptions String) :=
  [.prepareCreate defaultOptions 2 1, .run 0 "guard" [],
    .host .beginAppend [], .host (.chunk (.sequence 2 1 1)) [], .host .commitAppend [some "a zebu"]]

def zebuSnapshot : TextTable := (exec zebuStep zebuStart zebuBefore).getD zebuStart

/-- Later the first row is deleted and the rest is indexed. -/
def zebuSince : List (IndexEvent GramOptions String) :=
  [.host (.delete [0]) [], .prepareRefresh 3 1 none, .run 0 "" []]

def zebuNow : TextTable := (exec zebuStep zebuSnapshot zebuSince).getD zebuStart

def zebuTable : DataTable (Option String) where
  rowGroups := [⟨0, [some (some "Zebra"), some none, some (some "a zebu")]⟩]
  nextRowId := 3
  rowGroupSize := 2048
  ascending := by decide
  allocated := by decide

def zebuChunks : SegmentsTable := fun key => [(segmentRows zebuSnapshot).filter fun row => decide (row.gramKey = key)]

theorem zebu_reachable : Reachable asciiLower wholeMask zebuSnapshot zebuNow := by
  refine ⟨⟨false, false, 7⟩, 2, [⟨0, some "Zebra"⟩, ⟨1, none⟩], zebuBefore, zebuSince, by decide, by decide, ?_,
    by decide +kernel, by decide +kernel⟩
  apply along_of_forall
  simp only [zebuBefore, List.forall_mem_cons]
  exact ⟨fun _ => ⟨[], by decide⟩, fun _ => trivial, fun _ => trivial, fun _ => trivial, fun _ => trivial, by simp⟩

def zebuCore : SearchCore := ⟨1, some ⟨[[0]], 1⟩, true⟩

def zebuTurns : List (SearchEvent (Option String)) :=
  .finalize :: [0, 1, 0, 1, 0, 1, 0, 1, 0, 1, 0, 1].map fun w => .run w 1

/-- A search of the earlier snapshot, after its first row is gone. -/
theorem zebu_found : ∃ found s,
    searchInitGlobal asciiLower wholeMask zebraSettings (validateIndex zebuSnapshot zebuNow none) (some zebuChunks)
      ⟨"ZEB", foldingOptions⟩ = .ok found ∧
    found.outcome.core (segmentRows zebuSnapshot) true = .ok zebuCore ∧
    exec (searchStep zebuCore zebFilters) (startSearch zebuCore zebuTable false [some "ZEBU", none] 2) zebuTurns =
      some s ∧
    SearchExact zebFilters (startSearch zebuCore zebuTable false [some "ZEBU", none] 2) s ∧
    Returns id (containsPredicate hostFold found.needleCmp found.options.caseInsensitive)
      [some "Zebra", none, some "a zebu", some "ZEBU", none] s ∧ SearchLive zebuCore zebFilters s := by
  have checked : (searchInitGlobal asciiLower wholeMask zebraSettings (validateIndex zebuSnapshot zebuNow none)
      (some zebuChunks) ⟨"ZEB", foldingOptions⟩).toOption.map (fun found => (found.options, found.needleCmp,
        found.outcome.core (segmentRows zebuSnapshot) true)) = some (foldingOptions, bytes "zeb", .ok zebuCore) := by
    decide +kernel
  obtain ⟨found, initialized, facts⟩ := Option.map_eq_some_iff.mp checked
  obtain ⟨options, facts⟩ := Prod.mk.inj facts
  obtain ⟨needleCmp, handed⟩ := Prod.mk.inj facts
  have init := toOption_ok initialized
  have ends : (exec (searchStep zebuCore zebFilters)
      (startSearch zebuCore zebuTable false [some "ZEBU", none] 2) zebuTurns).isSome = true := by decide +kernel
  obtain ⟨s, run⟩ := Option.isSome_iff_exists.mp ends
  have keeps : Along (searchStep zebuCore zebFilters) (KeepsSides zebFilters)
      (startSearch zebuCore zebuTable false [some "ZEBU", none] 2) zebuTurns := by decide +kernel
  have rows : zebuSnapshot.rows = [⟨0, some "Zebra"⟩, ⟨1, none⟩, ⟨2, some "a zebu"⟩] := by decide +kernel
  have stores : Stores id zebuTable zebuSnapshot.rows := by
    rw [rows]
    exact List.Perm.refl _
  have scans : ∀ chunks, some zebuChunks = some chunks → ∀ keys, Scans (segmentRows zebuSnapshot) chunks keys := by
    intro chunks same keys key _
    cases same
    simp [zebuChunks]
  obtain ⟨_, searches⟩ := @reachable_search_exact _ _ id zebuTable none (some zebuChunks) zebraSettings
    ⟨"ZEB", foldingOptions⟩ asciiLower wholeMask hostFold hostFold_folds _ _ zebu_reachable stores scans (by decide)
  obtain ⟨core, handed_core, exact_search⟩ := searches found init true
  cases ok_inj (handed.symm.trans handed_core)
  have predicate : ∀ row, zebFilters.passes row =
      containsPredicate hostFold found.needleCmp found.options.caseInsensitive (id row) := by
    intro row
    rw [options, needleCmp]
    rfl
  have returned := exact_search zebFilters predicate false [some "ZEBU", none] 2 zebuTurns s (by decide) keeps run
  rw [rows] at returned
  exact ⟨found, s, init, handed, run, returned⟩

end NgramReachableSearch

