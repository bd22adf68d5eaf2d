import NgramIndex.GramSuperset
import NgramIndex.ProbeIntersection
import NgramIndex.SearchCore

/- The policies' init. Each decides under the vacuum lock whether the index can
   be probed and for what; a search that is not probed scans the whole table. -/
namespace NgramSearchInit
open NgramGram NgramProbe NgramSearchCore Fallible Utf8

inductive IndexAvailability where
  | available
  | absent
  | changed
  deriving DecidableEq, Repr

/-- ValidateIndex's answer. The reason of an available index is the rowid
    guard's objection, empty when there is none. -/
structure Verdict (Text Meta : Type) where
  availability : IndexAvailability
  reason : Text
  metaInfo : Meta
  deriving DecidableEq

/-- The verdict on what a location names: a change of the registry, no row, or a
    row with the guard's objection to it. -/
def verdictOn {Text Meta : Type} (silent : Text) (missing : Meta) :
    Except Text (Option (Text × Meta)) → Verdict Text Meta
  | .error reason => ⟨.changed, reason, missing⟩
  | .ok none => ⟨.absent, silent, missing⟩
  | .ok (some (objection, metaInfo)) => ⟨.available, objection, metaInfo⟩

/-- What a search reads of a row's metadata. -/
structure SearchMeta where
  options : GramOptions
  hwmRowid : Int

abbrev IndexVerdict := Verdict String SearchMeta

abbrev IndexVerdict.options (verdict : IndexVerdict) : GramOptions := verdict.metaInfo.options
abbrev IndexVerdict.hwmRowid (verdict : IndexVerdict) : Int := verdict.metaInfo.hwmRowid

structure QuerySettings where
  maxProbeKeys : Nat
  maxGramsPerQuery : Nat
  probe : ProbeSettings

/-- What a scan of the segments table yields for a key, chunk by chunk. -/
abbrev SegmentsTable := Uhugeint → List (List (SegmentRow Uhugeint))

structure ProbeOutcome where
  fallbackReason : String
  hwm : Int
  probe : Option (ProbePlan Uhugeint)
  deriving DecidableEq

def fullScan (reason : String) : ProbeOutcome := ⟨reason, -1, none⟩

def overBudgetReason : String := "query grams exceed query memory budget"
def unavailableReason : String := "index unavailable"
def tooShortReason : String := "needle shorter than min_gram"
def noNeedleReason : String := "no probeable needle"

/-- Why the index cannot be used at all, empty when it can. -/
def IndexVerdict.objection (verdict : IndexVerdict) : String :=
  if verdict.availability ≠ .available then unavailableReason
  else if verdict.reason ≠ "" then "rowid guard: " ++ verdict.reason
  else ""

/-- The probe of decomposed keys, where the segments table still exists and the
    plan is admitted. -/
def probeKeys (settings : QuerySettings) (segments : Option SegmentsTable) (keys : NeedleKeys)
    (hwm : Int) : Except String ProbeOutcome :=
  match segments with
  | none => .ok (fullScan unavailableReason)
  | some chunks => do
      let plan ← planIndexProbe settings.probe chunks keys.keys settings.maxGramsPerQuery hwm
      if plan.admitted then .ok ⟨"", hwm, some plan⟩ else .ok (fullScan plan.declineReason)

/-- The search's bind data, as far as its init reads it. -/
structure QueryBindData where
  needle : String
  boundOptions : GramOptions

structure SearchInit where
  /-- The index's options, or those the search was bound under. -/
  options : GramOptions
  needleCmp : List UInt8
  outcome : ProbeOutcome

def comparisonForm (lower : Char → Nat) (options : GramOptions) (needle : String) :
    Except String (List UInt8) :=
  if options.caseInsensitive then
    (normalizeString lower (bytes needle) options).map GramScratch.normalized
  else .ok (bytes needle)

/-- The predicate of an explicit search. NULL never matches. -/
def containsPredicate (hostLower : List UInt8 → List UInt8) (needleCmp : List UInt8)
    (caseInsensitive : Bool) : Option String → Bool
  | none => false
  | some text => decide (needleCmp <:+: if caseInsensitive then hostLower (bytes text) else bytes text)

def probeNeedle (lower : Char → Nat) (mask : GramKeyMask) (settings : QuerySettings)
    (verdict : IndexVerdict) (segments : Option SegmentsTable) (options : GramOptions) (needle : String) :
    Except String ProbeOutcome :=
  if verdict.objection ≠ "" then .ok (fullScan verdict.objection)
  else do
    let (shape, keys) ← decomposeNeedle lower mask (bytes needle) options settings.maxProbeKeys .empty
    match shape with
    | .tooShort => .ok (fullScan tooShortReason)
    | .overBudget => .ok (fullScan overBudgetReason)
    | .probeable => probeKeys settings segments keys verdict.hwmRowid

def searchInitGlobal (lower : Char → Nat) (mask : GramKeyMask) (settings : QuerySettings)
    (verdict : IndexVerdict) (segments : Option SegmentsTable) (bind : QueryBindData) :
    Except String SearchInit := do
  let options := if verdict.availability = .available then verdict.options else bind.boundOptions
  let needleCmp ← comparisonForm lower options bind.needle
  let outcome ← probeNeedle lower mask settings verdict segments options bind.needle
  return ⟨options, needleCmp, outcome⟩

structure RewriteNeedle where
  text : String
  requiresCi : Bool

/-- One needle of a transparent scan: the keys so far and the needles used. -/
def addNeedle (lower : Char → Nat) (mask : GramKeyMask) (maxKeys : Nat) (options : GramOptions)
    (state : NeedleKeys × Nat) (needle : RewriteNeedle) : Except String (NeedleKeys × Nat) := do
  if needle.requiresCi && !options.caseInsensitive then .ok state
  else
    let (shape, own) ← decomposeNeedle lower mask (bytes needle.text) options maxKeys .empty
    if shape = .probeable then .ok ((state.1.addAll maxKeys own.keys).2, state.2 + 1) else .ok state

def tryProbeIndex (lower : Char → Nat) (mask : GramKeyMask) (settings : QuerySettings)
    (verdict : IndexVerdict) (segments : Option SegmentsTable) (needles : List RewriteNeedle) :
    Except String ProbeOutcome := do
  if verdict.objection ≠ "" then .ok (fullScan verdict.objection)
  else
    let (keys, usable) ← needles.foldlM (addNeedle lower mask settings.maxProbeKeys verdict.options)
      (.empty, 0)
    if usable = 0 then .ok (fullScan noNeedleReason)
    else probeKeys settings segments keys verdict.hwmRowid

inductive NgramScanMode where
  | index
  | fullScan
  deriving DecidableEq, Repr

def ngramScanInitGlobal (lower : Char → Nat) (mask : GramKeyMask) (settings : QuerySettings)
    (verdict : IndexVerdict) (segments : Option SegmentsTable) (needles : List RewriteNeedle) :
    Except String (NgramScanMode × ProbeOutcome) := do
  let outcome ← tryProbeIndex lower mask settings verdict segments needles
  return (if outcome.probe.isSome then .index else .fullScan, outcome)

def ProbeOutcome.core (outcome : ProbeOutcome) (visible : List (SegmentRow Uhugeint))
    (extraColumns : Bool) : Except String SearchCore :=
  match outcome.probe with
  | none => .ok ⟨outcome.hwm, none, extraColumns⟩
  | some plan => do
      let lists ← plan.segments.mapM (decodeCandidateSegment plan (fetchFrom visible))
      return ⟨outcome.hwm, some ⟨lists, plan.maxThreads⟩, extraColumns⟩

/-- The outcome of a policy is either a full scan, whose mark is gone, or an
    admitted plan over the index's mark. -/
structure Decided (verdict : IndexVerdict) (segments : Option SegmentsTable) (settings : QuerySettings)
    (outcome : ProbeOutcome) (keysOf : NeedleKeys → Prop) : Prop where
  unprobed : outcome.probe = none → outcome.hwm = -1
  probed : ∀ plan, outcome.probe = some plan → verdict.objection = "" ∧ outcome.hwm = verdict.hwmRowid ∧
    ∃ chunks keys, segments = some chunks ∧ keysOf keys ∧ plan.admitted = true ∧
      planIndexProbe settings.probe chunks keys.keys settings.maxGramsPerQuery verdict.hwmRowid = .ok plan

section Decisions
variable {lower : Char → Nat} {mask : GramKeyMask} {settings : QuerySettings} {verdict : IndexVerdict}
  {segments : Option SegmentsTable} {outcome : ProbeOutcome} {keysOf : NeedleKeys → Prop}

theorem fullScan_decided (reason : String) :
    Decided verdict segments settings (fullScan reason) keysOf where
  unprobed _ := rfl
  probed plan found := by cases found

theorem probeKeys_decided {keys : NeedleKeys} (usable : verdict.objection = "") (these : keysOf keys)
    (run : probeKeys settings segments keys verdict.hwmRowid = .ok outcome) :
    Decided verdict segments settings outcome keysOf := by
  cases table : segments with
  | none =>
    rw [table] at run
    cases ok_inj run
    exact fullScan_decided _
  | some chunks =>
    rw [table] at run
    obtain ⟨plan, planned, run⟩ := bind_ok run
    split at run
    · rename_i admitted
      cases ok_inj run
      constructor
      case unprobed =>
        intro absent
        cases absent
      case probed =>
        intro other found
        cases found
        exact ⟨usable, rfl, chunks, keys, rfl, these, admitted, planned⟩
    · cases ok_inj run
      exact fullScan_decided _

theorem searchInitGlobal_decided {bind : QueryBindData} {found : SearchInit}
    (run : searchInitGlobal lower mask settings verdict segments bind = .ok found) :
    comparisonForm lower found.options bind.needle = .ok found.needleCmp ∧
    (verdict.objection = "" → found.options = verdict.options) ∧
    Decided verdict segments settings found.outcome fun keys =>
      decomposeNeedle lower mask (bytes bind.needle) verdict.options settings.maxProbeKeys .empty =
        .ok (.probeable, keys) := by
  unfold searchInitGlobal at run
  obtain ⟨needleCmp, compared, run⟩ := bind_ok run
  obtain ⟨outcome, decided, run⟩ := bind_ok run
  cases ok_inj run
  have same : verdict.objection = "" → (if verdict.availability = .available then verdict.options
      else bind.boundOptions) = verdict.options := by
    intro usable
    unfold IndexVerdict.objection at usable
    split at usable
    · exact absurd usable (by decide)
    · rename_i available
      rw [if_pos (not_not.mp available)]
  refine ⟨compared, same, ?_⟩
  unfold probeNeedle at decided
  split at decided
  · cases ok_inj decided
    exact fullScan_decided _
  · rename_i usable
    have usable : verdict.objection = "" := not_not.mp usable
    rw [same usable] at decided
    obtain ⟨⟨shape, keys⟩, decomposed, decided⟩ := bind_ok decided
    cases shape with
    | tooShort =>
      cases ok_inj decided
      exact fullScan_decided _
    | overBudget =>
      cases ok_inj decided
      exact fullScan_decided _
    | probeable => exact probeKeys_decided usable decomposed decided

theorem tryProbeIndex_decided {needles : List RewriteNeedle}
    (run : tryProbeIndex lower mask settings verdict segments needles = .ok outcome) :
    Decided verdict segments settings outcome fun keys => ∃ usable,
      needles.foldlM (addNeedle lower mask settings.maxProbeKeys verdict.options) (.empty, 0) =
        .ok (keys, usable) ∧ usable ≠ 0 := by
  unfold tryProbeIndex at run
  split at run
  · cases ok_inj run
    exact fullScan_decided _
  · rename_i unobjected
    have usable : verdict.objection = "" := not_not.mp unobjected
    obtain ⟨⟨keys, used⟩, folded, run⟩ := bind_ok run
    simp only at run
    split at run
    · cases ok_inj run
      exact fullScan_decided _
    · rename_i some_used
      exact probeKeys_decided usable ⟨used, folded, some_used⟩ run

end Decisions
end NgramSearchInit
