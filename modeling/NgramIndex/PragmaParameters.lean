import Mathlib.Data.List.ReduceOption
import NgramIndex.RegistryLookup

/- The named parameters of the maintenance pragmas. The host keeps them in a map, which
   yields each name once and in no order of its own; a pragma reads them in one loop. -/
namespace NgramPragmaParameters
open NgramGram NgramOwnerKeys Fallible NgramMaintenance Utf8
open scoped List

/-- A parameter of create_ngram_index, cast as its signature says; none is a NULL. -/
inductive CreateParameter where
  | tokenizer (value : Option String)
  | gram (value : Option Int)
  | minGram (value : Option Int)
  | maxGram (value : Option Int)
  | caseInsensitive (value : Option Bool)
  | other (name : String) (null : Bool)
  deriving DecidableEq

def CreateParameter.name : CreateParameter → String
  | .tokenizer _ => "tokenizer"
  | .gram _ => "gram"
  | .minGram _ => "min_gram"
  | .maxGram _ => "max_gram"
  | .caseInsensitive _ => "case_insensitive"
  | .other name _ => name

def CreateParameter.isNull : CreateParameter → Bool
  | .tokenizer value => value.isNone
  | .gram value | .minGram value | .maxGram value => value.isNone
  | .caseInsensitive value => value.isNone
  | .other _ null => null

/-- What the loop has read so far. -/
structure CreateOptions where
  tokenizer : GramTokenizer
  caseInsensitive : Bool
  gram : Option Nat
  minGram : Option Nat
  maxGram : Option Nat
  deriving DecidableEq

def noOptions : CreateOptions := ⟨.ngram, true, none, none, none⟩

def gramLength (name : String) (size : Int) : Except String Nat :=
  if size < 1 then .error s!"create_ngram_index: {name} must be at least 1, got {size}" else .ok size.toNat

def readCreateParameter (read : CreateOptions) (parameter : CreateParameter) : Except String CreateOptions :=
  match parameter with
  | .tokenizer (some name) => do
      let tokenizer ← parseTokenizer name "create_ngram_index"
      .ok { read with tokenizer := tokenizer }
  | .gram (some size) => do
      let length ← gramLength "gram" size
      .ok { read with gram := some length }
  | .minGram (some size) => do
      let length ← gramLength "min_gram" size
      .ok { read with minGram := some length }
  | .maxGram (some size) => do
      let length ← gramLength "max_gram" size
      .ok { read with maxGram := some length }
  | .caseInsensitive (some flag) => .ok { read with caseInsensitive := flag }
  | .other name false => .error s!"create_ngram_index: unknown named parameter {name}"
  | null => .error s!"create_ngram_index: parameter {null.name} cannot be NULL"

def defaultSparseMinGram : Nat := 3
def defaultSparseMaxGram : Nat := 8

def CreateOptions.gramOptions (read : CreateOptions) : Except String GramOptions :=
  match read.tokenizer with
  | .ngram =>
      if read.minGram.isSome ∨ read.maxGram.isSome then
        .error ("create_ngram_index: min_gram and max_gram apply to a sparse index (tokenizer = 'sparse'); " ++
          "an ngram index takes gram")
      else .ok ⟨.ngram, read.gram.getD 3, read.gram.getD 3, read.caseInsensitive⟩
  | .sparse =>
      if read.gram.isSome then
        .error "create_ngram_index: gram applies to an ngram index; a sparse index takes min_gram and max_gram"
      else .ok ⟨.sparse, read.minGram.getD defaultSparseMinGram, read.maxGram.getD defaultSparseMaxGram,
        read.caseInsensitive⟩

def parseCreateOptions (parameters : List CreateParameter) : Except String GramOptions := do
  let read ← parameters.foldlM readCreateParameter noOptions
  let options ← read.gramOptions
  validateGramOptions options "create_ngram_index"
  .ok options

/-- A parameter of ngram_refresh or ngram_compact. -/
inductive MaintenanceParameter where
  | col (value : Option String)
  | maxRows (value : Option Int)
  | purge (value : Option Bool)
  | other (name : String)
  deriving DecidableEq

def MaintenanceParameter.name : MaintenanceParameter → String
  | .col _ => "col"
  | .maxRows _ => "max_rows"
  | .purge _ => "purge"
  | .other name => name

def requireStringParam (value : Option String) (fn name : String) : Except String String :=
  match value with
  | none => .error s!"{fn}: parameter {name} cannot be NULL"
  | some text => if text = "" then .error s!"{fn}: parameter {name} cannot be empty" else .ok text

def requireRowBound : Option Int → Except String Int
  | none => .error "ngram_refresh: parameter max_rows cannot be NULL"
  | some rows => if rows < 1 then .error s!"ngram_refresh: max_rows must be at least 1, got {rows}" else .ok rows

/-- ngram_refresh's column, empty for every column, and its row bound. -/
structure RefreshParameters where
  onlyColumn : String
  maxRows : Option Int
  deriving DecidableEq

def readRefreshParameter (read : RefreshParameters) (parameter : MaintenanceParameter) :
    Except String RefreshParameters :=
  match parameter with
  | .col value => do
      let column ← requireStringParam value "ngram_refresh" "col"
      .ok { read with onlyColumn := column }
  | .maxRows value =>
      if read.maxRows.isSome then .error "ngram_refresh: max_rows was given twice, positionally and by name"
      else do
        let rows ← requireRowBound value
        .ok { read with maxRows := some rows }
  | other => .error s!"ngram_refresh: unknown named parameter {other.name}"

def positionalBound : Option (Option Int) → Except String RefreshParameters
  | none => .ok ⟨"", none⟩
  | some value => do
      let rows ← requireRowBound value
      .ok ⟨"", some rows⟩

/-- The row bound may be given positionally, and then is read first. -/
def parseRefreshParameters (positional : Option (Option Int)) (named : List MaintenanceParameter) :
    Except String RefreshParameters := do
  let bounded ← positionalBound positional
  named.foldlM readRefreshParameter bounded

structure CompactParameters where
  onlyColumn : String
  purge : Bool
  deriving DecidableEq

def readCompactParameter (read : CompactParameters) (parameter : MaintenanceParameter) :
    Except String CompactParameters :=
  match parameter with
  | .col value => do
      let column ← requireStringParam value "ngram_compact" "col"
      .ok { read with onlyColumn := column }
  | .purge none => .error "ngram_compact: parameter purge cannot be NULL"
  | .purge (some flag) => .ok { read with purge := flag }
  | other => .error s!"ngram_compact: unknown named parameter {other.name}"

def parseCompactParameters (named : List MaintenanceParameter) : Except String CompactParameters :=
  named.foldlM readCompactParameter ⟨"", false⟩

section Order

inductive Sets : CreateParameter → (CreateOptions → CreateOptions) → Prop where
  | tokenizer {name : String} {t : GramTokenizer} : parseTokenizer name "create_ngram_index" = .ok t →
      Sets (.tokenizer (some name)) fun read => { read with tokenizer := t }
  | gram {size : Int} {length : Nat} : gramLength "gram" size = .ok length →
      Sets (.gram (some size)) fun read => { read with gram := some length }
  | minGram {size : Int} {length : Nat} : gramLength "min_gram" size = .ok length →
      Sets (.minGram (some size)) fun read => { read with minGram := some length }
  | maxGram {size : Int} {length : Nat} : gramLength "max_gram" size = .ok length →
      Sets (.maxGram (some size)) fun read => { read with maxGram := some length }
  | caseInsensitive (flag : Bool) :
      Sets (.caseInsensitive (some flag)) fun read => { read with caseInsensitive := flag }

theorem sets_of_read {read next : CreateOptions} {parameter : CreateParameter}
    (run : readCreateParameter read parameter = .ok next) : ∃ set, Sets parameter set ∧ next = set read := by
  cases parameter with
  | tokenizer value =>
    cases value with
    | none => cases run
    | some name =>
      obtain ⟨t, parsed, run⟩ := bind_ok run
      exact ⟨_, .tokenizer parsed, (ok_inj run).symm⟩
  | gram value =>
    cases value with
    | none => cases run
    | some size =>
      obtain ⟨length, long, run⟩ := bind_ok run
      exact ⟨_, .gram long, (ok_inj run).symm⟩
  | minGram value =>
    cases value with
    | none => cases run
    | some size =>
      obtain ⟨length, long, run⟩ := bind_ok run
      exact ⟨_, .minGram long, (ok_inj run).symm⟩
  | maxGram value =>
    cases value with
    | none => cases run
    | some size =>
      obtain ⟨length, long, run⟩ := bind_ok run
      exact ⟨_, .maxGram long, (ok_inj run).symm⟩
  | caseInsensitive value =>
    cases value with
    | none => cases run
    | some flag => exact ⟨_, .caseInsensitive flag, (ok_inj run).symm⟩
  | other name null => cases null <;> cases run

theorem read_of_sets {read : CreateOptions} {parameter : CreateParameter} {set : CreateOptions → CreateOptions}
    (sets : Sets parameter set) : readCreateParameter read parameter = .ok (set read) := by
  cases sets with
  | tokenizer parsed => exact bind_of_ok parsed
  | gram long => exact bind_of_ok long
  | minGram long => exact bind_of_ok long
  | maxGram long => exact bind_of_ok long
  | caseInsensitive flag => rfl

/-- Parameters of different names set different fields. -/
theorem sets_comm {a b : CreateParameter} (differ : a.name ≠ b.name) {f g : CreateOptions → CreateOptions}
    (first : Sets a f) (second : Sets b g) (read : CreateOptions) : g (f read) = f (g read) := by
  cases first <;> cases second <;> first | rfl | exact absurd rfl differ

theorem create_swaps {a b : CreateParameter} (differ : a.name ≠ b.name) : Swaps readCreateParameter a b := by
  intro s t run
  obtain ⟨u, first, second⟩ := bind_ok run
  obtain ⟨f, sets_a, rfl⟩ := sets_of_read first
  obtain ⟨g, sets_b, rfl⟩ := sets_of_read second
  rw [bind_of_ok (read_of_sets sets_b), read_of_sets sets_a, sets_comm differ sets_a sets_b]

theorem refresh_swaps {a b : MaintenanceParameter} (differ : a.name ≠ b.name) :
    Swaps readRefreshParameter a b := by
  intro s t run
  obtain ⟨u, first, second⟩ := bind_ok run
  cases a with
  | col value =>
    obtain ⟨column, named, first⟩ := bind_ok first
    cases ok_inj first
    cases b with
    | col other => exact absurd rfl differ
    | maxRows other =>
      obtain ⟨once, second⟩ := check_ok second
      obtain ⟨rows, bound, second⟩ := bind_ok second
      cases ok_inj second
      have bounded : readRefreshParameter s (.maxRows other) = .ok { s with maxRows := some rows } :=
        (check_of_not once).trans (bind_of_ok bound)
      rw [bind_of_ok bounded]
      exact bind_of_ok named
    | purge other => cases second
    | other name => cases second
  | maxRows value =>
    obtain ⟨once, first⟩ := check_ok first
    obtain ⟨rows, bound, first⟩ := bind_ok first
    cases ok_inj first
    cases b with
    | col other =>
      obtain ⟨column, named, second⟩ := bind_ok second
      cases ok_inj second
      have placed : readRefreshParameter s (.col other) = .ok { s with onlyColumn := column } := bind_of_ok named
      rw [bind_of_ok placed]
      exact (check_of_not once).trans (bind_of_ok bound)
    | maxRows other => exact absurd rfl differ
    | purge other => cases second
    | other name => cases second
  | purge value => cases first
  | other name => cases first

theorem compact_swaps {a b : MaintenanceParameter} (differ : a.name ≠ b.name) :
    Swaps readCompactParameter a b := by
  intro s t run
  obtain ⟨u, first, second⟩ := bind_ok run
  cases a with
  | col value =>
    obtain ⟨column, named, first⟩ := bind_ok first
    cases ok_inj first
    cases b with
    | col other => exact absurd rfl differ
    | purge flag =>
      cases flag with
      | none => cases second
      | some flag =>
        cases ok_inj second
        exact bind_of_ok named
    | maxRows other => cases second
    | other name => cases second
  | purge flag =>
    cases flag with
    | none => cases first
    | some flag =>
      cases ok_inj first
      cases b with
      | col other =>
        obtain ⟨column, named, second⟩ := bind_ok second
        cases ok_inj second
        have placed : readCompactParameter s (.col other) = .ok { s with onlyColumn := column } := bind_of_ok named
        rw [bind_of_ok placed]
        rfl
      | purge other => exact absurd rfl differ
      | maxRows other => cases second
      | other name => cases second
  | maxRows value => cases first
  | other name => cases first

end Order

section AnyOrder
variable {named other : List MaintenanceParameter}

theorem create_any_order {parameters other : List CreateParameter} (perm : parameters ~ other)
    (names : (parameters.map CreateParameter.name).Nodup) {options : GramOptions}
    (run : parseCreateOptions parameters = .ok options) : parseCreateOptions other = .ok options := by
  obtain ⟨read, loop, rest⟩ := bind_ok run
  have again := foldlM_any_order perm names (fun _ _ => create_swaps) loop
  exact (bind_of_ok again).trans rest

theorem refresh_any_order (perm : named ~ other) (names : (named.map MaintenanceParameter.name).Nodup)
    {positional : Option (Option Int)} {read : RefreshParameters}
    (run : parseRefreshParameters positional named = .ok read) : parseRefreshParameters positional other = .ok read := by
  obtain ⟨bounded, first, loop⟩ := bind_ok run
  exact (bind_of_ok first).trans (foldlM_any_order perm names (fun _ _ => refresh_swaps) loop)

theorem compact_any_order (perm : named ~ other) (names : (named.map MaintenanceParameter.name).Nodup)
    {read : CompactParameters} (run : parseCompactParameters named = .ok read) :
    parseCompactParameters other = .ok read :=
  foldlM_any_order perm names (fun _ _ => compact_swaps) run

end AnyOrder

section Recorded
variable {host : Host} {target : ResolvedTarget} {options : GramOptions} {indexId : BitVec 128} {hwm : Int}
  {guardName guardToken : String}

/-- The registry row of a new index, its mark the highest committed rowid. -/
def registryInsert (host : Host) (target : ResolvedTarget) (indexId : BitVec 128) (options : GramOptions)
    (committedHwm : Int) (guardName guardToken : String) : StoredRow .current where
  registryVersion := some registryVersion
  indexId := some indexId
  ownerKey := some (ownerKey host target.schemaName target.tableName target.columnName)
  schemaName := some target.schemaName
  tableName := some target.tableName
  columnName := some target.columnName
  metadata := .current (some ngramFormatVersion) (some (tokenizerName options.tokenizer)) (some options.minGram)
    (some options.maxGram) (some options.caseInsensitive) (some committedHwm) (some guardName) (some guardToken)

def recordedRow (host : Host) (target : ResolvedTarget) (indexId : BitVec 128) (options : GramOptions)
    (committedHwm : Int) (guardName guardToken : String) : RegistryRow where
  indexRef := host.uuidText indexId
  ownerKey := ownerKey host target.schemaName target.tableName target.columnName
  schemaName := target.schemaName
  tableName := target.tableName
  columnName := target.columnName
  formatVersion := ngramFormatVersion
  metaInfo := ⟨options, committedHwm, target.columnName, guardName, guardToken⟩
  error := []

theorem parsed_valid {parameters : List CreateParameter} (run : parseCreateOptions parameters = .ok options)
    (fn : String) : validateGramOptions options fn = .ok () := by
  obtain ⟨read, _, run⟩ := bind_ok run
  obtain ⟨chosen, _, run⟩ := bind_ok run
  obtain ⟨_, valid, run⟩ := bind_ok run
  cases ok_inj run
  exact validate_any_fn valid fn

theorem valid_lengths {fn : String} (valid : validateGramOptions options fn = .ok ()) :
    1 ≤ options.minGram ∧ options.minGram ≤ options.maxGram := by
  refine ⟨valid_minGram valid, ?_⟩
  unfold validateGramOptions at valid
  cases tokenizer : options.tokenizer with
  | ngram =>
    rw [tokenizer] at valid
    have passes := (check_ok valid).1
    omega
  | sparse =>
    rw [tokenizer] at valid
    have passes := (check_ok (check_ok valid).2).1
    omega

theorem readRegistryOptions_stored (valid : validateGramOptions options "ngram" = .ok ()) {before : GramOptions}
    (flag : before.caseInsensitive = options.caseInsensitive) :
    readRegistryOptions (tokenizerName options.tokenizer) options.minGram options.maxGram before = (options, []) := by
  obtain ⟨positive, ordered⟩ := valid_lengths valid
  have lengths : ¬ ((options.minGram : Int) < 1 ∨ (options.maxGram : Int) < 1) := by omega
  have same : (⟨options.tokenizer, options.minGram, options.maxGram, before.caseInsensitive⟩ : GramOptions) =
      options := by rw [flag]
  simp only [readRegistryOptions, parse_tokenizerName, if_neg lengths, Int.toNat_natCast, same, valid]

theorem currentReason_keyed {row : RegistryRow}
    (keyed : row.ownerKey = ownerKey host row.schemaName row.tableName row.columnName) (low : -1 ≤ hwm)
    (high : hwm < maxRowId) : currentReason host registryVersion row ngramFormatVersion hwm = [] := by
  have marked : ¬ (hwm < -1 ∨ hwm ≥ maxRowId) := by omega
  rw [currentReason, if_neg (not_not.mpr rfl), if_neg (not_not.mpr keyed), if_neg (not_not.mpr rfl), if_neg marked]

theorem materialize_current {row : RegistryRow} {tokenizer : String} {minGram maxGram : Int} {flag : Bool}
    (canonical : isCanonicalUUID host row.indexRef = true)
    (usable : currentReason host registryVersion row ngramFormatVersion hwm = [])
    (stored : readRegistryOptions tokenizer minGram maxGram { row.metaInfo.options with caseInsensitive := flag } =
      (options, [])) :
    materialize host registryVersion row (.current (some ngramFormatVersion) (some tokenizer) (some minGram)
      (some maxGram) (some flag) (some hwm) (some guardName) (some guardToken)) =
        .ok { row with
          formatVersion := ngramFormatVersion
          metaInfo := ⟨options, hwm, row.metaInfo.columnName, guardName, guardToken⟩
          error := [] } := by
  simp [materialize, canonical, usable, stored]

theorem readRow_inserted (canonical : isCanonicalUUID host (host.uuidText indexId) = true)
    (valid : validateGramOptions options "ngram" = .ok ()) (low : -1 ≤ hwm) (high : hwm < maxRowId) :
    readRow host {} (registryInsert host target indexId options hwm guardName guardToken) =
      .ok (some (recordedRow host target indexId options hwm guardName guardToken)) := by
  have read := @materialize_current host options hwm guardName guardToken
    (identityRow (host.uuidText indexId) (ownerKey host target.schemaName target.tableName target.columnName)
      target.schemaName target.tableName target.columnName) _ _ _ _ canonical
    (currentReason_keyed rfl low high) (readRegistryOptions_stored valid rfl)
  exact congrArg (Except.map some) read

theorem every_row (rows : List (StoredRow .current)) :
    (rows.filter fun row => ({} : RegistrySelector).ownerKey = [] ||
      row.ownerKey = some ({} : RegistrySelector).ownerKey) = rows :=
  List.filter_eq_self.mpr fun _ _ => rfl

/-- The options that create_ngram_index accepts are within their bounds and do not depend on
    the order in which the host yields its parameters, no more than what the other pragmas
    read, and every reader of the registry reads them back from the row that the script
    inserts, beside what the registry held before. -/
theorem accepted_options_recorded {parameters : List CreateParameter}
    (names : (parameters.map CreateParameter.name).Nodup) (run : parseCreateOptions parameters = .ok options) :
    (∀ fn, validateGramOptions options fn = .ok ()) ∧
    (∀ other, parameters ~ other → parseCreateOptions other = .ok options) ∧
    (∀ named other : List MaintenanceParameter, named ~ other → (named.map MaintenanceParameter.name).Nodup →
      (∀ positional read, parseRefreshParameters positional named = .ok read →
        parseRefreshParameters positional other = .ok read) ∧
      ∀ read, parseCompactParameters named = .ok read → parseCompactParameters other = .ok read) ∧
    ∀ (host : Host) (target : ResolvedTarget) (indexId : BitVec 128) (hwm : Int) (guardName guardToken : String),
      isCanonicalUUID host (host.uuidText indexId) = true → -1 ≤ hwm → hwm < maxRowId →
      ∀ (oid : Nat) (rows : List (StoredRow .current)) (before : RegistrySnapshot),
        readRegistry host (.table oid .current rows) {} = .ok before →
        readRegistry host (.table oid .current (rows ++
            [registryInsert host target indexId options hwm guardName guardToken])) {} =
          .ok { before with
            rows := before.rows ++ [recordedRow host target indexId options hwm guardName guardToken] } := by
  refine ⟨parsed_valid run, fun other perm => create_any_order perm names run, fun named other perm distinct =>
    ⟨fun _ _ => refresh_any_order perm distinct, fun _ => compact_any_order perm distinct⟩, ?_⟩
  intro host target indexId hwm guardName guardToken canonical low high oid rows before readable
  have last := @readRow_inserted host target options indexId hwm guardName guardToken canonical
    (parsed_valid run "ngram") low high
  rw [readRegistry_table rfl] at readable ⊢
  obtain ⟨read, each, readable⟩ := bind_ok readable
  cases ok_inj readable
  have all : (rows ++ [registryInsert host target indexId options hwm guardName guardToken]).mapM
      (readRow host {}) = .ok (read ++ [some (recordedRow host target indexId options hwm guardName guardToken)]) := by
    rw [every_row] at each
    rw [List.mapM_append, bind_of_ok each, List.mapM_cons, bind_of_ok last]
    rfl
  rw [every_row, bind_of_ok all, List.reduceOption_append]
  rfl

end Recorded

def sparseParameters : List CreateParameter :=
  [.maxGram (some 16), .caseInsensitive (some false), .tokenizer (some "SPARSE")]

def titleTarget : ResolvedTarget := ⟨mainName, logsName, nameOf "title" (by decide)⟩

/-- A sparse index beside the one on another column. -/
theorem sparse_options_recorded :
    parseCreateOptions sparseParameters.reverse = .ok ⟨.sparse, 3, 16, false⟩ ∧
    readRegistry plainHost (.table 7 .current ([logsRow] ++
        [registryInsert plainHost titleTarget 0x0123456789ab4cde8f0123456789abce#128 ⟨.sparse, 3, 16, false⟩ (-1)
          "guard" "token"])) {} =
      .ok ⟨7, .current, [logsFound, recordedRow plainHost titleTarget 0x0123456789ab4cde8f0123456789abce#128
        ⟨.sparse, 3, 16, false⟩ (-1) "guard" "token"]⟩ := by
  have run : parseCreateOptions sparseParameters = .ok ⟨.sparse, 3, 16, false⟩ := by decide +kernel
  have before : readRegistry plainHost (.table 7 .current [logsRow]) {} = .ok ⟨7, .current, [logsFound]⟩ := by
    decide +kernel
  obtain ⟨_, reordered, _, recorded⟩ := accepted_options_recorded (by decide) run
  refine ⟨reordered _ (List.reverse_perm _).symm, ?_⟩
  exact recorded plainHost titleTarget _ (-1) "guard" "token" (by decide +kernel) (by decide) (by decide) 7
    [logsRow] _ before

end NgramPragmaParameters
