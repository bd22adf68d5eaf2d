import NgramIndex.FilterNeedles
import NgramIndex.IndexedSearch

/- The transparent scan of a DuckDB table end to end. The keys of the needles are
   stored for each value on which the filter is TRUE, the candidates are rechecked
   against every pushed filter, and the scan emits what a plain one would. -/
namespace NgramRewrite
open LabelledRun NgramGram NgramProbe NgramStorage NgramSearchCore NgramSearchInit NgramIndexedSearch
open Fallible Utf8
variable {lower : Char → Nat} {host : String → List Value → Value} {mask : GramKeyMask}
  {options : GramOptions} {cell : Option String}

/-- The needles that a planned scan carries. -/
def usableNeedles (lower : Char → Nat) (mask : GramKeyMask) (maxKeys : Nat) (options : GramOptions) :
    List RewriteNeedle → Except String (List RewriteNeedle)
  | [] => .ok []
  | needle :: rest =>
      if needle.requiresCi && !options.caseInsensitive then usableNeedles lower mask maxKeys options rest
      else do
        let (shape, _) ← decomposeNeedle lower mask (bytes needle.text) options maxKeys .empty
        let usable ← usableNeedles lower mask maxKeys options rest
        return if shape = .probeable then needle :: usable else usable

section Keys

theorem usable_collected {maxKeys : Nat} {needles usable : List RewriteNeedle}
    (run : usableNeedles lower mask maxKeys options needles = .ok usable) :
    ∀ needle ∈ usable, needle ∈ needles := by
  induction needles generalizing usable with
  | nil =>
    cases ok_inj run
    exact fun needle none => by cases none
  | cons first rest ih =>
    unfold usableNeedles at run
    intro needle kept
    split at run
    · exact List.mem_cons_of_mem first (ih run needle kept)
    · obtain ⟨⟨shape, _⟩, _, run⟩ := bind_ok run
      obtain ⟨others, recursive, run⟩ := bind_ok run
      have same := ok_inj run
      split at same
      · subst same
        rcases List.mem_cons.mp kept with rfl | later
        · exact List.mem_cons_self
        · exact List.mem_cons_of_mem first (ih recursive needle later)
      · subst same
        exact List.mem_cons_of_mem first (ih recursive needle kept)

theorem fold_case (insensitive : options.caseInsensitive = true) (text : String) :
    foldText lower text = normalize lower options text.toList := by
  have folds : folding.caseInsensitive = true := rfl
  unfold foldText NgramGram.normalize foldCodepoint
  rw [folds, insensitive]

/-- A needle that a filter demands occurs as the index looks for it. -/
theorem holds_occurs {needle : RewriteNeedle} {text : String} (holds : Holds lower needle text)
    (flavour : needle.requiresCi = true → options.caseInsensitive = true) :
    Occurs lower options needle.text text := by
  unfold Holds at holds
  cases ci : needle.requiresCi with
  | false =>
    rw [ci] at holds
    exact Or.inl holds
  | true =>
    rw [ci, if_pos rfl, fold_case (flavour ci), fold_case (flavour ci)] at holds
    refine Or.inr ⟨scratchOf _, scratchOf _, ?_, ?_, holds⟩
    · rw [bytes_eq_encode, normalizeString_encode]
    · rw [bytes_eq_encode, normalizeString_encode]

theorem addAll_grows (maxKeys : Nat) (keys : NeedleKeys) (list : List Uhugeint) :
    ∀ key ∈ keys.keys, key ∈ (keys.addAll maxKeys list).2.keys := by
  induction list generalizing keys with
  | nil => exact fun key present => present
  | cons first rest ih =>
    intro key present
    unfold NeedleKeys.addAll
    cases added : keys.add first maxKeys with
    | none => exact present
    | some grown => exact ih grown key ((add_carries added).1 key present)

theorem add_refused {maxKeys : Nat} {keys : NeedleKeys} {key : Uhugeint} (refused : keys.add key maxKeys = none) :
    maxKeys ≤ keys.keys.length := by
  unfold NeedleKeys.add at refused
  split at refused
  · cases refused
  · split at refused
    · assumption
    · cases refused

theorem addAll_length (maxKeys : Nat) (keys : NeedleKeys) (list : List Uhugeint) :
    (keys.addAll maxKeys list).2.keys.length ≤ max keys.keys.length maxKeys := by
  induction list generalizing keys with
  | nil => exact Nat.le_max_left _ _
  | cons first rest ih =>
    unfold NeedleKeys.addAll
    cases added : keys.add first maxKeys with
    | none => exact Nat.le_max_left _ _
    | some grown =>
      have bound : grown.keys.length ≤ max keys.keys.length maxKeys := by
        unfold NeedleKeys.add at added
        split at added
        · cases added
          exact Nat.le_max_left _ _
        · split at added
          · cases added
          · rename_i room
            cases added
            rw [List.length_append, List.length_singleton]
            exact Nat.le_trans (Nat.lt_of_not_ge room) (Nat.le_max_right _ _)
      have later := ih grown
      simp only
      omega

/-- Where the budget admits any key, adding keys leaves some. -/
theorem addAll_some {maxKeys : Nat} (room : 0 < maxKeys) (keys : NeedleKeys) {list : List Uhugeint}
    (some_key : list ≠ []) : (keys.addAll maxKeys list).2.keys ≠ [] := by
  obtain ⟨first, rest, rfl⟩ := List.exists_cons_of_ne_nil some_key
  unfold NeedleKeys.addAll
  cases added : keys.add first maxKeys with
  | none =>
    have full := add_refused added
    exact List.ne_nil_of_length_pos (Nat.lt_of_lt_of_le room full)
  | some grown =>
    exact List.ne_nil_of_mem (addAll_grows maxKeys grown rest first (add_carries added).2)

theorem decompose_length {needle : List UInt8} {maxKeys : Nat} {keys grown : NeedleKeys} {shape : NeedleShape}
    (run : decomposeNeedle lower mask needle options maxKeys keys = .ok (shape, grown)) :
    grown.keys.length ≤ max keys.keys.length maxKeys := by
  unfold decomposeNeedle at run
  rcases branch_ok run with ⟨_, run⟩ | ⟨_, run⟩
  · obtain ⟨_, rfl⟩ := Prod.mk.inj (ok_inj run)
    exact Nat.le_max_left _ _
  · obtain ⟨⟨scratch, ranges⟩, _, run⟩ := bind_ok run
    cases tokenizer : options.tokenizer with
    | ngram =>
      rw [tokenizer] at run
      rcases branch_ok run with ⟨_, run⟩ | ⟨_, run⟩
      · obtain ⟨_, rfl⟩ := Prod.mk.inj (ok_inj run)
        exact addAll_length maxKeys keys _
      · obtain ⟨_, rfl⟩ := Prod.mk.inj (ok_inj run)
        exact addAll_length maxKeys keys _
    | sparse =>
      rw [tokenizer] at run
      rcases branch_ok run with ⟨_, run⟩ | ⟨_, run⟩
      · obtain ⟨_, rfl⟩ := Prod.mk.inj (ok_inj run)
        exact Nat.le_max_left _ _
      · obtain ⟨_, rfl⟩ := Prod.mk.inj (ok_inj run)
        exact addAll_length maxKeys keys _

theorem addNeedle_some_key {maxKeys : Nat} {state next : NeedleKeys × Nat} {needle : RewriteNeedle}
    (before : state.2 ≠ 0 → state.1.keys ≠ [])
    (run : addNeedle lower mask maxKeys options state needle = .ok next) :
    next.2 ≠ 0 → next.1.keys ≠ [] := by
  unfold addNeedle at run
  rcases branch_ok run with ⟨_, run⟩ | ⟨_, run⟩
  · cases ok_inj run
    exact before
  · obtain ⟨⟨shape, own⟩, decomposed, run⟩ := bind_ok run
    rcases branch_ok run with ⟨probeable, run⟩ | ⟨_, run⟩
    · cases ok_inj run
      subst probeable
      intro _
      have some_key := probeable_keys decomposed
      have within := decompose_length decomposed
      have own_pos := List.length_pos_of_ne_nil some_key
      have room : 0 < maxKeys := by
        simp only [NeedleKeys.empty, List.length_nil] at within
        omega
      exact addAll_some room state.1 some_key
    · cases ok_inj run
      exact before

theorem addNeedle_stored {fn : String} (valid : validateGramOptions options fn = .ok ()) {maxKeys : Nat}
    {text : String} {state next : NeedleKeys × Nat} {needle : RewriteNeedle}
    (before : ∀ key ∈ state.1.keys, key ∈ storedKeys lower mask options text)
    (holds : Holds lower needle text)
    (run : addNeedle lower mask maxKeys options state needle = .ok next) :
    ∀ key ∈ next.1.keys, key ∈ storedKeys lower mask options text := by
  unfold addNeedle at run
  rcases branch_ok run with ⟨_, run⟩ | ⟨flavour, run⟩
  · cases ok_inj run
    exact before
  · obtain ⟨⟨shape, own⟩, decomposed, run⟩ := bind_ok run
    rcases branch_ok run with ⟨probeable, run⟩ | ⟨_, run⟩
    · cases ok_inj run
      subst probeable
      have folds : needle.requiresCi = true → options.caseInsensitive = true := by
        simpa using flavour
      intro key present
      rcases addAll_keys maxKeys state.1 own.keys key present with old | new
      · exact before key old
      · rcases needle_key_stored valid decomposed (holds_occurs holds folds) key new with nothing | stored
        · cases nothing
        · exact stored
    · cases ok_inj run
      exact before

theorem folded_some_key {maxKeys : Nat} {needles : List RewriteNeedle} {keys : NeedleKeys} {usable : Nat}
    (run : needles.foldlM (addNeedle lower mask maxKeys options) (.empty, 0) = .ok (keys, usable))
    (some_usable : usable ≠ 0) : keys.keys ≠ [] := by
  have inv := foldlM_prefix (fun _ state => state.2 ≠ 0 → state.1.keys ≠ []) needles
    (fun _ _ _ _ before step => addNeedle_some_key before step) (fun none => absurd rfl none) run
  exact inv some_usable

/-- Whatever the flavour of the index and the budget, each key that is probed is
    stored for a text in which every needle occurs. -/
theorem folded_stored {fn : String} (valid : validateGramOptions options fn = .ok ()) {maxKeys : Nat}
    {text : String} {needles : List RewriteNeedle} (held : ∀ needle ∈ needles, Holds lower needle text)
    {state final : NeedleKeys × Nat} (before : ∀ key ∈ state.1.keys, key ∈ storedKeys lower mask options text)
    (run : needles.foldlM (addNeedle lower mask maxKeys options) state = .ok final) :
    ∀ key ∈ final.1.keys, key ∈ storedKeys lower mask options text := by
  induction needles generalizing state with
  | nil =>
    cases ok_inj run
    exact before
  | cons needle rest ih =>
    obtain ⟨first, others⟩ := List.forall_mem_cons.mp held
    obtain ⟨next, step, run⟩ := foldlM_cons_ok run
    exact ih others (addNeedle_stored valid before first step) run

theorem probed_key_stored (keeps : LowerKeepsWildcards lower) {fn : String}
    (valid : validateGramOptions options fn = .ok ()) {filter : TableFilter}
    (holds : filter.eval lower host (columnValue cell) = .boolean true) {needles : List RewriteNeedle}
    (collected : ∀ needle ∈ needles, needle ∈ collectFilterNeedles filter []) {maxKeys usable : Nat}
    {keys : NeedleKeys}
    (run : needles.foldlM (addNeedle lower mask maxKeys options) (.empty, 0) = .ok (keys, usable))
    (some_usable : usable ≠ 0) :
    ∃ text, cell = some text ∧ ∀ key ∈ keys.keys, key ∈ storedKeys lower mask options text := by
  have held : ∀ needle ∈ needles, Held lower cell needle :=
    fun needle present => filter_needle_held keeps filter holds needle (collected needle present)
  cases needles with
  | nil =>
    cases ok_inj run
    exact absurd rfl some_usable
  | cons first rest =>
    obtain ⟨text, same, _⟩ := held first List.mem_cons_self
    refine ⟨text, same, ?_⟩
    have all : ∀ needle ∈ first :: rest, Holds lower needle text := by
      intro needle present
      obtain ⟨whole, same_whole, inside⟩ := held needle present
      rw [same] at same_whole
      cases same_whole
      exact inside
    exact folded_stored valid all (fun key nothing => by cases nothing) run

end Keys

structure FilterEntry where
  column : Nat
  filter : TableFilter

def TableFilter.isOptional : TableFilter → Bool
  | .optional _ => true
  | .conjunctionAnd _ | .conjunctionOr _ | .expression _ | .other _ => false

/-- References are positions among the columns that the recheck reads. -/
inductive RecheckExpression where
  | toExpression (filter : TableFilter) (reference : Nat)
  | conjunction (left right : RecheckExpression)

section Recheck

def RecheckExpression.eval (lower : Char → Nat) (host : String → List Value → Value) (cells : List Value) :
    RecheckExpression → Value
  | .toExpression filter reference => filter.eval lower host (cells.getD reference .null)
  | .conjunction left right => conjunctionValue true [left.eval lower host cells, right.eval lower host cells]

structure Recheck where
  expr : Option RecheckExpression
  positions : List Nat

def filterColumnError (column scanned : Nat) : String :=
  "ngram accelerated scan: table filter references column " ++ toString column ++ " of " ++
    toString scanned ++ " scanned"

def Recheck.add (scannedTypes : List LogicalType) (built : Recheck) (entry : FilterEntry) :
    Except String Recheck :=
  if entry.filter.isOptional then .ok built
  else if entry.column ≥ scannedTypes.length then
    .error (filterColumnError entry.column scannedTypes.length)
  else
    let reference := built.positions.idxOf entry.column
    let positions :=
      if reference = built.positions.length then built.positions ++ [entry.column] else built.positions
    let expr := .toExpression entry.filter reference
    match built.expr with
    | none => .ok ⟨some expr, positions⟩
    | some result => .ok ⟨some (.conjunction result expr), positions⟩

def buildRecheckExpression (filters : List FilterEntry) (scannedTypes : List LogicalType) :
    Except String Recheck :=
  filters.foldlM (Recheck.add scannedTypes) ⟨none, []⟩

/-- A candidate is kept where the expression is TRUE, over the columns it reads. -/
def Recheck.keeps (lower : Char → Nat) (host : String → List Value → Value) (recheck : Recheck)
    (values : List Value) : Bool :=
  match recheck.expr with
  | none => true
  | some expr =>
      decide (expr.eval lower host (recheck.positions.map fun column => values.getD column .null) = .boolean true)

/-- The rows of a plain scan. An optional filter need not be applied. -/
def FiltersPass (lower : Char → Nat) (host : String → List Value → Value) (filters : List FilterEntry)
    (values : List Value) : Prop :=
  ∀ entry ∈ filters, entry.filter.isOptional = false →
    entry.filter.eval lower host (values.getD entry.column .null) = .boolean true

def RecheckExpression.Within (width : Nat) : RecheckExpression → Prop
  | .toExpression _ reference => reference < width
  | .conjunction left right => left.Within width ∧ right.Within width

theorem within_append {expr : RecheckExpression} {cells more : List Value}
    (within : expr.Within cells.length) :
    expr.eval lower host (cells ++ more) = expr.eval lower host cells := by
  induction expr with
  | toExpression filter reference =>
    have inside : reference < cells.length := within
    unfold RecheckExpression.eval
    rw [List.getD_append _ _ _ _ inside]
  | conjunction left right left_ih right_ih =>
    unfold RecheckExpression.eval
    rw [left_ih within.1, right_ih within.2]

theorem within_mono {expr : RecheckExpression} {narrow wide : Nat} (fits : narrow ≤ wide)
    (within : expr.Within narrow) : expr.Within wide := by
  induction expr with
  | toExpression filter reference => exact Nat.lt_of_lt_of_le within fits
  | conjunction left right left_ih right_ih => exact ⟨left_ih within.1, right_ih within.2⟩

theorem pair_true {left right : Value} :
    conjunctionValue true [left, right] = .boolean true ↔ left = .boolean true ∧ right = .boolean true := by
  constructor
  · intro holds
    have both := conjunction_true holds
    exact ⟨both left (by simp), both right (by simp)⟩
  · intro both
    apply conjunction_of_true
    simp [both]

/-- A column's reference is its position among those read so far, or the next one. -/
theorem place_column (positions : List Nat) (column : Nat) : ∃ more,
    (if positions.idxOf column = positions.length then positions ++ [column] else positions) =
      positions ++ more ∧ positions.idxOf column < (positions ++ more).length ∧
      (positions ++ more)[positions.idxOf column]? = some column := by
  by_cases known : column ∈ positions
  · have inside := List.idxOf_lt_length_iff.mpr known
    refine ⟨[], ?_, ?_, ?_⟩
    · rw [if_neg (Nat.ne_of_lt inside), List.append_nil]
    · rw [List.append_nil]
      exact inside
    · rw [List.append_nil, List.getElem?_eq_getElem inside, List.getElem_idxOf inside]
  · have last := List.idxOf_eq_length known
    refine ⟨[column], ?_, ?_, ?_⟩
    · rw [if_pos last]
    · rw [last, List.length_append, List.length_singleton]
      exact Nat.lt_succ_self _
    · rw [last]
      simp

structure Rechecks (lower : Char → Nat) (host : String → List Value → Value) (values : List Value)
    (done : List FilterEntry) (built : Recheck) : Prop where
  within : ∀ expr, built.expr = some expr → expr.Within built.positions.length
  applied : built.keeps lower host values = true ↔ FiltersPass lower host done values

theorem add_rechecks {scannedTypes : List LogicalType} {values : List Value} {done : List FilterEntry}
    {entry : FilterEntry} {built next : Recheck} (before : Rechecks lower host values done built)
    (run : built.add scannedTypes entry = .ok next) :
    Rechecks lower host values (done ++ [entry]) next := by
  have last : FiltersPass lower host (done ++ [entry]) values ↔ FiltersPass lower host done values ∧
      (entry.filter.isOptional = false →
        entry.filter.eval lower host (values.getD entry.column .null) = .boolean true) := by
    unfold FiltersPass
    simp only [List.forall_mem_append, List.forall_mem_singleton]
  unfold Recheck.add at run
  rcases branch_ok run with ⟨optional, run⟩ | ⟨required, run⟩
  · cases ok_inj run
    constructor
    case within => exact before.within
    case applied =>
      rw [before.applied, last]
      simp [optional]
  · obtain ⟨_, run⟩ := check_ok run
    have not_optional : entry.filter.isOptional = false := by simpa using required
    obtain ⟨more, grown, inside, placed⟩ := place_column built.positions entry.column
    simp only [grown] at run
    have cell : ((built.positions ++ more).map fun column => values.getD column .null).getD
        (built.positions.idxOf entry.column) .null = values.getD entry.column .null := by
      rw [List.getD_eq_getElem?_getD, List.getElem?_map, placed]
      rfl
    have here : RecheckExpression.eval lower host
        ((built.positions ++ more).map fun column => values.getD column .null)
        (.toExpression entry.filter (built.positions.idxOf entry.column)) =
          entry.filter.eval lower host (values.getD entry.column .null) := by
      rw [RecheckExpression.eval, cell]
    have taken : entry.filter.isOptional = false →
        entry.filter.eval lower host (values.getD entry.column .null) = .boolean true ↔
          entry.filter.eval lower host (values.getD entry.column .null) = .boolean true :=
      ⟨fun holds => holds not_optional, fun holds _ => holds⟩
    cases earlier : built.expr with
    | none =>
      rw [earlier] at run
      cases ok_inj run
      have passed : FiltersPass lower host done values := by
        apply before.applied.mp
        unfold Recheck.keeps
        rw [earlier]
      constructor
      case within =>
        intro expr same
        cases same
        exact inside
      case applied =>
        unfold Recheck.keeps
        simp only [decide_eq_true_eq]
        rw [here, last, taken]
        exact ⟨fun holds => ⟨passed, holds⟩, fun both => both.2⟩
    | some result =>
      rw [earlier] at run
      cases ok_inj run
      have result_within := before.within result earlier
      have same : result.eval lower host ((built.positions ++ more).map fun column => values.getD column .null) =
          result.eval lower host (built.positions.map fun column => values.getD column .null) := by
        rw [List.map_append]
        exact within_append (by rw [List.length_map]; exact result_within)
      have applied := before.applied
      unfold Recheck.keeps at applied
      rw [earlier] at applied
      simp only [decide_eq_true_eq] at applied
      constructor
      case within =>
        intro expr same
        cases same
        refine ⟨within_mono ?_ result_within, inside⟩
        rw [List.length_append]
        exact Nat.le_add_right _ _
      case applied =>
        unfold Recheck.keeps
        simp only [decide_eq_true_eq]
        rw [RecheckExpression.eval, pair_true, same, applied, here, last, taken]

/-- The recheck keeps the rows of a plain scan. -/
theorem recheck_exact {filters : List FilterEntry} {scannedTypes : List LogicalType} {recheck : Recheck}
    (built : buildRecheckExpression filters scannedTypes = .ok recheck) (values : List Value) :
    recheck.keeps lower host values = true ↔ FiltersPass lower host filters values := by
  have start : Rechecks lower host values [] ⟨none, []⟩ := by
    constructor
    case within => exact fun expr none => by cases none
    case applied => exact ⟨fun _ => List.forall_mem_nil _, fun _ => rfl⟩
  have whole := foldlM_prefix (Rechecks lower host values) filters
    (fun _ _ _ _ before run => add_rechecks before run) start built
  exact whole.applied

end Recheck

def HeldWhere (lower : Char → Nat) (host : String → List Value → Value) (filter : TableFilter)
    (cell : Option String) (needles : List RewriteNeedle) : Prop :=
  filter.eval lower host (columnValue cell) = .boolean true → ∀ needle ∈ needles, Held lower cell needle

/-- A scan that the optimizer has swapped in, from the filters pushed on it to
    what its init decided. The needles were chosen under the index as it was
    planned with, the keys under the index as it is. -/
structure TransparentScan (lower : Char → Nat) (host : String → List Value → Value) (mask : GramKeyMask)
    (Row : Type) where
  table : DataTable Row
  value : Row → Option String
  scanned : Row → List Value
  scannedTypes : List LogicalType
  pushed : List FilterEntry
  indexed : FilterEntry
  indexed_pushed : indexed ∈ pushed
  layout : ∀ row, (scanned row).getD indexed.column .null = columnValue (value row)
  needles : List RewriteNeedle
  planned : ∃ maxKeys options,
    usableNeedles lower mask maxKeys options (collectFilterNeedles indexed.filter []) = .ok needles
  recheck : Recheck
  built : buildRecheckExpression pushed scannedTypes = .ok recheck
  filters : ScanFilters Row
  applied : ∀ row, filters.passes row = recheck.keeps lower host (scanned row)
  settings : QuerySettings
  some_gram : 1 ≤ settings.maxGramsPerQuery
  verdict : IndexVerdict
  segments : Option SegmentsTable
  visible : List (SegmentRow Uhugeint)
  index : verdict.objection = "" → CoveringIndex lower mask verdict segments visible value table
  mode : NgramScanMode
  outcome : ProbeOutcome
  init : ngramScanInitGlobal lower mask settings verdict segments needles = .ok (mode, outcome)

section Scan
variable {Row : Type}

theorem optional_collects_nothing {filter : TableFilter} (optional : filter.isOptional = true) :
    collectFilterNeedles filter [] = [] := by
  cases filter with
  | optional child => rfl
  | conjunctionAnd | conjunctionOr | expression | other => cases optional

theorem scan_keys_stored (keeps : LowerKeepsWildcards lower) (scan : TransparentScan lower host mask Row)
    {keys : NeedleKeys} {usable : Nat}
    (folded : scan.needles.foldlM (addNeedle lower mask scan.settings.maxProbeKeys scan.verdict.options)
      (.empty, 0) = .ok (keys, usable)) (some_usable : usable ≠ 0) (unobjected : scan.verdict.objection = "")
    (row : Row) (passes : scan.filters.passes row = true) :
    ∃ text, scan.value row = some text ∧
      ∀ key ∈ keys.keys, key ∈ storedKeys lower mask scan.verdict.options text := by
  obtain ⟨maxKeys, planOptions, kept⟩ := scan.planned
  have collected := usable_collected kept
  obtain ⟨fn, valid⟩ := (scan.index unobjected).options
  rw [scan.applied, recheck_exact scan.built] at passes
  cases optional : scan.indexed.filter.isOptional with
  | true =>
    -- Nothing is collected from an optional filter, so no needle was usable.
    have no_needle : scan.needles = [] := by
      rw [optional_collects_nothing optional] at collected
      exact List.eq_nil_iff_forall_not_mem.mpr fun needle present => by cases collected needle present
    rw [no_needle] at folded
    cases ok_inj folded
    exact absurd rfl some_usable
  | false =>
    have holds := passes scan.indexed scan.indexed_pushed optional
    rw [scan.layout] at holds
    exact probed_key_stored keeps valid holds collected folded some_usable

theorem scan_probed (keeps : LowerKeepsWildcards lower) (scan : TransparentScan lower host mask Row)
    (extraColumns : Bool) :
    ∃ core, scan.outcome.core scan.visible extraColumns = .ok core ∧ Probed scan.filters core scan.table := by
  have init := scan.init
  unfold ngramScanInitGlobal at init
  obtain ⟨outcome, probed, init⟩ := bind_ok init
  obtain ⟨_, rfl⟩ := Prod.mk.inj (ok_inj init)
  apply decided_probed scan.index scan.some_gram (tryProbeIndex_decided probed)
  case some_key =>
    intro keys folded
    obtain ⟨usable, folded, some_usable⟩ := folded
    exact folded_some_key folded some_usable
  case stored =>
    intro keys folded unobjected row passes
    obtain ⟨usable, folded, some_usable⟩ := folded
    exact scan_keys_stored keeps scan folded some_usable unobjected row passes

/-- Needles of a DuckDB table occur wherever the filter is TRUE, those of a DuckLake
    table where in addition each search call read searches the column. Each key that a
    scan probes is stored for the rows that pass, and the scan emits these rows. -/
theorem needle_extraction_exact (keeps : LowerKeepsWildcards lower) (host : String → List Value → Value)
    (mask : GramKeyMask) :
    (∀ filter cell, HeldWhere lower host filter cell (collectFilterNeedles filter [])) ∧
    (∀ filter, SearchesColumn filter → ∀ cell, HeldWhere lower host filter cell (collectLakeNeedles filter []).2) ∧
    (∀ (options : GramOptions) (fn : String), validateGramOptions options fn = .ok () →
      ∀ filter cell, filter.eval lower host (columnValue cell) = .boolean true →
      ∀ needles : List RewriteNeedle, (∀ needle ∈ needles, needle ∈ collectFilterNeedles filter []) →
      ∀ maxKeys keys usable, needles.foldlM (addNeedle lower mask maxKeys options) (.empty, 0) =
        .ok (keys, usable) → usable ≠ 0 →
      ∃ text, cell = some text ∧ ∀ key ∈ keys.keys, key ∈ storedKeys lower mask options text) ∧
    ∀ (Row : Type) [DecidableEq Row] (scan : TransparentScan lower host mask Row) (extraColumns : Bool),
      (∀ row, scan.filters.passes row = true ↔ FiltersPass lower host scan.pushed (scan.scanned row)) ∧
      ∃ core, scan.outcome.core scan.visible extraColumns = .ok core ∧
        ∀ (artOnly : Bool) (localRows : List Row) (workers : Nat) (events : List (SearchEvent Row))
          (s : SearchState Row), 0 < workers →
          Along (searchStep core scan.filters) Unmoved (startSearch core scan.table artOnly localRows workers)
            events →
          exec (searchStep core scan.filters) (startSearch core scan.table artOnly localRows workers) events =
            some s →
          SearchExact scan.filters (startSearch core scan.table artOnly localRows workers) s := by
  refine ⟨?_, ?_, ?_, ?_⟩
  · intro filter cell holds
    exact filter_needle_held keeps filter holds
  · intro filter searches cell holds
    exact lake_needle_held keeps searches holds
  · intro options fn valid filter cell holds needles collected maxKeys keys usable folded some_usable
    exact probed_key_stored keeps valid holds collected folded some_usable
  · intro Row _ scan extraColumns
    constructor
    · intro row
      rw [scan.applied]
      exact recheck_exact scan.built (scan.scanned row)
    · obtain ⟨core, handed, probed⟩ := scan_probed keeps scan extraColumns
      refine ⟨core, handed, ?_⟩
      intro artOnly localRows workers events s some_worker unmoved run
      exact probed_exact probed some_worker unmoved run

end Scan

deriving instance DecidableEq for RewriteNeedle

def textHost (name : String) : List Value → Value
  | [.varchar text] => if name = "reverse" then .varchar (String.ofList text.toList.reverse) else .null
  | _ => .null

def zebraFilter : TableFilter :=
  .expression (.conjunction true
    [.function "~~*" [.reference .varchar, .constant (.varchar "%ZEB%")],
      .function "contains" [.reference .varchar, .constant (.varchar "a")]])

def zebraRecheck : Recheck := ⟨some (.toExpression zebraFilter 0), [0]⟩

def zebraFilters : ScanFilters (Option String) where
  passes row := zebraRecheck.keeps asciiLower textHost [columnValue row]
  excludes _ _ := false
  sound _ _ never := by cases never

theorem asciiLower_keeps : LowerKeepsWildcards asciiLower := by
  intro c high
  unfold asciiLower
  rw [toLower_high high]
  have percent : '%'.toNat = 37 := rfl
  have underscore : '_'.toNat = 95 := rfl
  constructor <;> omega

/-- An ILIKE and a contains on one column, probed through an index that folds: the
    rows past the mark and the local rows are filtered as the candidates are. -/
theorem zebra_scanned : ∃ (scan : TransparentScan asciiLower textHost wholeMask (Option String))
    (core : SearchCore) (s : SearchState (Option String)),
    scan.pushed = [⟨0, zebraFilter⟩] ∧ scan.mode = .index ∧
    scan.outcome.core scan.visible true = .ok core ∧
    exec (searchStep core scan.filters) (startSearch core scan.table false [some "ZEBRa", some "ZEB", none] 2)
      (.finalize :: [0, 1, 0, 1, 0, 1, 0, 1, 0, 1, 0, 1, 0, 1, 1, 1].map fun w => .run w 1) = some s ∧
    s.emitted = [some "a zebu", some "Zebra", some "ZEBRa"] ∧
    SearchExact scan.filters (startSearch core scan.table false [some "ZEBRa", some "ZEB", none] 2) s := by
  have kept : usableNeedles asciiLower wholeMask 100 foldingOptions (collectFilterNeedles zebraFilter []) =
      .ok [⟨"ZEB", true⟩] := by decide +kernel
  have decided : (ngramScanInitGlobal asciiLower wholeMask zebraSettings zebraVerdict (some zebraChunks)
      [⟨"ZEB", true⟩]).toOption.map (fun init => (init.1, init.2.core zebraSegments true)) =
        some (.index, .ok zebCore) := by
    decide +kernel
  obtain ⟨⟨mode, outcome⟩, initialized, facts⟩ := Option.map_eq_some_iff.mp decided
  obtain ⟨indexed, handed⟩ := Prod.mk.inj facts
  let scan : TransparentScan asciiLower textHost wholeMask (Option String) :=
    { table := zebraTable
      value := id
      scanned := fun row => [columnValue row]
      scannedTypes := [.varchar]
      pushed := [⟨0, zebraFilter⟩]
      indexed := ⟨0, zebraFilter⟩
      indexed_pushed := List.mem_singleton.mpr rfl
      layout := fun row => rfl
      needles := [⟨"ZEB", true⟩]
      planned := ⟨100, foldingOptions, kept⟩
      recheck := zebraRecheck
      built := rfl
      filters := zebraFilters
      applied := fun row => rfl
      settings := zebraSettings
      some_gram := by decide
      verdict := zebraVerdict
      segments := some zebraChunks
      visible := zebraSegments
      index := fun _ => zebra_covered
      mode := mode
      outcome := outcome
      init := toOption_ok initialized }
  have ends : (exec (searchStep zebCore zebraFilters)
      (startSearch zebCore zebraTable false [some "ZEBRa", some "ZEB", none] 2)
      (.finalize :: [0, 1, 0, 1, 0, 1, 0, 1, 0, 1, 0, 1, 0, 1, 1, 1].map fun w => .run w 1)).map
        SearchState.emitted = some [some "a zebu", some "Zebra", some "ZEBRa"] := by
    decide +kernel
  obtain ⟨s, run, emitted⟩ := Option.map_eq_some_iff.mp ends
  have unmoved : Along (searchStep zebCore zebraFilters) Unmoved
      (startSearch zebCore zebraTable false [some "ZEBRa", some "ZEB", none] 2)
      (.finalize :: [0, 1, 0, 1, 0, 1, 0, 1, 0, 1, 0, 1, 0, 1, 1, 1].map fun w => .run w 1) := by
    decide +kernel
  obtain ⟨_, core, handed_core, exact_search⟩ :=
    (needle_extraction_exact asciiLower_keeps textHost wholeMask).2.2.2 (Option String) scan true
  cases ok_inj (handed.symm.trans handed_core)
  exact ⟨scan, zebCore, s, rfl, indexed, handed, run, emitted,
    exact_search false [some "ZEBRa", some "ZEB", none] 2 _ s (by decide) unmoved run⟩

def reversedSearch : TableFilter :=
  .expression (.function "__ngram_search_match"
    [.function "reverse" [.reference .varchar], .constant (.varchar "abc"), .constant (.boolean false)])

/-- A search of the reversed column: TRUE on a value without the needle taken. -/
theorem reversed_search_unheld :
    reversedSearch.eval asciiLower textHost (columnValue (some "cba")) = .boolean true ∧
    (collectLakeNeedles reversedSearch []).2 = [⟨"abc", false⟩] ∧
    ¬ HeldWhere asciiLower textHost reversedSearch (some "cba") (collectLakeNeedles reversedSearch []).2 := by
  have holds : reversedSearch.eval asciiLower textHost (columnValue (some "cba")) = .boolean true := by
    decide +kernel
  have collected : (collectLakeNeedles reversedSearch []).2 = [⟨"abc", false⟩] := by decide +kernel
  refine ⟨holds, collected, ?_⟩
  intro held
  rw [collected] at held
  obtain ⟨text, same, inside⟩ := held holds ⟨"abc", false⟩ (List.mem_singleton.mpr rfl)
  cases same
  have plain : bytes "abc" <:+: bytes "cba" := inside
  exact absurd plain (by decide)

end NgramRewrite
