import NgramIndex.Probe
import NgramIndex.Run
import NgramIndex.WorkLedger

/- The workers of a manifest scan. Each unit scans one key chunk by chunk, adds a
   chunk to the shared row total, and grows the shared reservation if the total
   is still in bounds. Units of different keys interleave between these steps. -/
namespace NgramManifestScan
open NgramProbe LabelledRun WorkLedger
open NgramStorage (standardVectorSize)

inductive ScanUnit where
  | reading (sizes : List Nat)
  /-- The chunk is counted and its reservation has not grown yet. -/
  | counted (size : Nat) (sizes : List Nat)
  | declined
  | finished
  deriving DecidableEq, Repr

structure ManifestState where
  units : List ScanUnit
  totalRows : Nat
  declined : Bool
  reserved : Nat
  deriving DecidableEq, Repr

inductive ScanEvent where
  | count (unit : Nat)
  | grow (unit : Nat)
  | finish (unit : Nat)
  deriving DecidableEq, Repr

/-- Counters of the planner are 64 bits wide. -/
def word (value : Nat) : Nat := value % (idxMax + 1)

def manifestStep (maxRows : Nat) (s : ManifestState) : ScanEvent → Option ManifestState
  | .count unit =>
      match s.units[unit]? with
      | some (.reading (size :: sizes)) =>
          let total := word (s.totalRows + size)
          if total > maxRows then
            some { s with totalRows := total, declined := true, units := s.units.set unit .declined }
          else some { s with totalRows := total, units := s.units.set unit (.counted size sizes) }
      | _ => none
  | .grow unit =>
      match s.units[unit]? with
      | some (.counted size sizes) => some { s with
          reserved := word (s.reserved + word (size * manifestBytesPerRow))
          units := s.units.set unit (.reading sizes) }
      | _ => none
  | .finish unit =>
      match s.units[unit]? with
      | some (.reading sizes) =>
          if sizes = [] ∨ s.declined then some { s with units := s.units.set unit .finished } else none
      | _ => none

def startScan (preflight : Nat) (keys : List (List Nat)) : ManifestState :=
  ⟨keys.map .reading, 0, false, preflight⟩

def ScanUnit.sizes : ScanUnit → List Nat
  | .reading sizes => sizes
  | .counted _ sizes => sizes
  | _ => []

/-- Rows that are counted and not reserved for yet. -/
def ScanUnit.pending : ScanUnit → Nat
  | .counted size _ => size
  | _ => 0

/-- What a unit may have added to the total past its bound. -/
def ScanUnit.overshoot : ScanUnit → Nat
  | .declined => standardVectorSize
  | _ => 0

def ScanUnit.remaining (unit : ScanUnit) : Nat := unit.sizes.sum

def scanRows (keys : List (List Nat)) : Nat := (keys.map List.sum).sum

structure Sized (keys : Nat) (units : List ScanUnit) : Prop where
  length : units.length = keys
  vectors : ∀ unit ∈ units, ∀ size ∈ unit.sizes, size ≤ standardVectorSize
  waiting : ∀ unit ∈ units, unit.pending ≤ standardVectorSize

theorem sized_set {keys unit : Nat} {units : List ScanUnit} {new : ScanUnit} (sized : Sized keys units)
    (vectors : ∀ size ∈ new.sizes, size ≤ standardVectorSize) (waiting : new.pending ≤ standardVectorSize) :
    Sized keys (units.set unit new) := by
  refine ⟨by rw [List.length_set, sized.length], ?_, ?_⟩
  · intro other there
    rcases List.mem_or_eq_of_mem_set there with old | rfl
    · exact sized.vectors other old
    · exact vectors
  · intro other there
    rcases List.mem_or_eq_of_mem_set there with old | rfl
    · exact sized.waiting other old
    · exact waiting

/-- What the steps keep. The granted rows passed the bound; after a decline
    every later chunk fails it. -/
structure Bounded (preflight maxRows : Nat) (keys : List (List Nat)) (s : ManifestState) : Prop where
  sized : Sized keys.length s.units
  total : s.totalRows ≤ maxRows + (s.units.map ScanUnit.overshoot).sum
  granted : ∃ granted ≤ maxRows,
    s.reserved + (s.units.map ScanUnit.pending).sum * manifestBytesPerRow = preflight + granted * manifestBytesPerRow ∧
    (s.declined = false → s.totalRows = granted ∧ granted + (s.units.map ScanUnit.remaining).sum = scanRows keys)
  excess : s.declined = true → maxRows < s.totalRows ∧ maxRows < scanRows keys

theorem start_bounded (preflight maxRows : Nat) {keys : List (List Nat)}
    (vectors : ∀ sizes ∈ keys, ∀ size ∈ sizes, size ≤ standardVectorSize) :
    Bounded preflight maxRows keys (startScan preflight keys) := by
  have idle : ((keys.map ScanUnit.reading).map ScanUnit.pending).sum = 0 := by
    clear vectors
    induction keys with
    | nil => rfl
    | cons sizes keys ih =>
      rw [List.map_cons, List.map_cons, List.sum_cons, ih]
      rfl
  refine ⟨⟨List.length_map _, ?_, ?_⟩, Nat.zero_le _, ⟨0, Nat.zero_le _, ?_, fun _ => ⟨rfl, ?_⟩⟩, nofun⟩
  · intro unit present
    obtain ⟨sizes, listed, rfl⟩ := List.mem_map.mp present
    exact vectors sizes listed
  · intro unit present
    obtain ⟨sizes, _, rfl⟩ := List.mem_map.mp present
    exact Nat.zero_le _
  · rw [startScan, idle]
  · rw [Nat.zero_add, startScan, List.map_map]
    rfl

/-- The bounds under which no counter can wrap. -/
structure Room (preflight maxRows budget units : Nat) : Prop where
  reserve : preflight + maxRows * manifestBytesPerRow ≤ budget
  budget : budget ≤ idxMax
  overshoot : maxRows + (units + 1) * standardVectorSize ≤ idxMax

theorem overshoot_le (units : List ScanUnit) :
    (units.map ScanUnit.overshoot).sum ≤ units.length * standardVectorSize := by
  induction units with
  | nil => simp
  | cons unit units ih =>
    have mine : unit.overshoot ≤ standardVectorSize := by
      cases unit with
      | declined => exact Nat.le_refl _
      | _ => exact Nat.zero_le _
    simp only [List.map_cons, List.sum_cons, List.length_cons, Nat.succ_mul]
    omega

section Steps
variable {preflight maxRows budget unit size : Nat} {sizes : List Nat} {keys : List (List Nat)}
  {s t : ManifestState}

theorem total_fits (bounded : Bounded preflight maxRows keys s) (room : Room preflight maxRows budget keys.length)
    (small : size ≤ standardVectorSize) : s.totalRows + size ≤ idxMax := by
  have total := bounded.total
  have past := overshoot_le s.units
  have space := room.overshoot
  rw [bounded.sized.length] at past
  rw [Nat.succ_mul] at space
  omega

theorem reserve_fits (bounded : Bounded preflight maxRows keys s) (room : Room preflight maxRows budget keys.length) :
    s.reserved + (s.units.map ScanUnit.pending).sum * manifestBytesPerRow ≤ budget := by
  obtain ⟨granted, below, owed, _⟩ := bounded.granted
  have space := room.reserve
  have scaled := Nat.mul_le_mul_right manifestBytesPerRow below
  omega

theorem declined_bounded (bounded : Bounded preflight maxRows keys s)
    (at_unit : s.units[unit]? = some (.reading (size :: sizes))) (excess : maxRows < s.totalRows + size) :
    Bounded preflight maxRows keys { s with
      totalRows := s.totalRows + size, declined := true, units := s.units.set unit .declined } := by
  have small := bounded.sized.vectors _ (List.mem_of_getElem? at_unit) size List.mem_cons_self
  obtain ⟨granted, below, owed, exact_total⟩ := bounded.granted
  have overshoot := load_set ScanUnit.overshoot .declined at_unit
  have pending := load_set ScanUnit.pending .declined at_unit
  have remaining := load_set ScanUnit.remaining .declined at_unit
  simp only [ScanUnit.overshoot, ScanUnit.pending, ScanUnit.remaining, ScanUnit.sizes, Nat.add_zero,
    List.sum_cons, List.sum_nil] at overshoot pending remaining
  refine ⟨sized_set bounded.sized nofun (Nat.zero_le _), ?_, ⟨granted, below, ?_, nofun⟩, fun _ => ⟨excess, ?_⟩⟩
  · have total := bounded.total
    simp only
    omega
  · rw [pending]
    exact owed
  · cases before : s.declined with
    | true => exact (bounded.excess before).2
    | false =>
      obtain ⟨same, whole⟩ := exact_total before
      omega

theorem counted_bounded (bounded : Bounded preflight maxRows keys s)
    (at_unit : s.units[unit]? = some (.reading (size :: sizes))) (fits : s.totalRows + size ≤ maxRows) :
    Bounded preflight maxRows keys { s with
      totalRows := s.totalRows + size, units := s.units.set unit (.counted size sizes) } := by
  have vectors := bounded.sized.vectors _ (List.mem_of_getElem? at_unit)
  obtain ⟨granted, below, owed, exact_total⟩ := bounded.granted
  have overshoot := load_set ScanUnit.overshoot (.counted size sizes) at_unit
  have pending := load_set ScanUnit.pending (.counted size sizes) at_unit
  have remaining := load_set ScanUnit.remaining (.counted size sizes) at_unit
  simp only [ScanUnit.overshoot, ScanUnit.pending, ScanUnit.remaining, ScanUnit.sizes, Nat.add_zero,
    List.sum_cons] at overshoot pending remaining
  have open_scan : s.declined = false := by
    by_contra declined
    have past := (bounded.excess (by simpa using declined)).1
    omega
  obtain ⟨same, whole⟩ := exact_total open_scan
  refine ⟨sized_set bounded.sized (fun later listed => vectors later (List.mem_cons_of_mem size listed))
    (vectors size List.mem_cons_self), ?_, ⟨granted + size, by omega, ?_, fun _ => ⟨?_, ?_⟩⟩, ?_⟩
  · have total := bounded.total
    simp only
    omega
  · simp only
    rw [pending, Nat.add_mul, Nat.add_mul]
    omega
  · simp only
    omega
  · simp only
    omega
  · intro declined
    rw [open_scan] at declined
    exact nomatch declined

theorem grown_bounded (bounded : Bounded preflight maxRows keys s)
    (at_unit : s.units[unit]? = some (.counted size sizes)) :
    Bounded preflight maxRows keys { s with
      reserved := s.reserved + size * manifestBytesPerRow, units := s.units.set unit (.reading sizes) } := by
  have vectors := bounded.sized.vectors _ (List.mem_of_getElem? at_unit)
  obtain ⟨granted, below, owed, exact_total⟩ := bounded.granted
  have overshoot := load_set ScanUnit.overshoot (.reading sizes) at_unit
  have pending := load_set ScanUnit.pending (.reading sizes) at_unit
  have remaining := load_set ScanUnit.remaining (.reading sizes) at_unit
  simp only [ScanUnit.overshoot, ScanUnit.pending, Nat.add_zero] at overshoot pending
  have same_rows : ((s.units.set unit (.reading sizes)).map ScanUnit.remaining).sum =
      (s.units.map ScanUnit.remaining).sum := Nat.add_right_cancel remaining
  refine ⟨sized_set bounded.sized vectors (Nat.zero_le _), ?_, ⟨granted, below, ?_, ?_⟩, bounded.excess⟩
  · simp only
    rw [overshoot]
    exact bounded.total
  · rw [← pending, Nat.add_mul] at owed
    simp only
    omega
  · simp only
    rw [same_rows]
    exact exact_total

theorem finished_bounded (bounded : Bounded preflight maxRows keys s)
    (at_unit : s.units[unit]? = some (.reading sizes)) (ends : sizes = [] ∨ s.declined = true) :
    Bounded preflight maxRows keys { s with units := s.units.set unit .finished } := by
  obtain ⟨granted, below, owed, exact_total⟩ := bounded.granted
  have overshoot := load_set ScanUnit.overshoot .finished at_unit
  have pending := load_set ScanUnit.pending .finished at_unit
  have remaining := load_set ScanUnit.remaining .finished at_unit
  simp only [ScanUnit.overshoot, ScanUnit.pending, Nat.add_zero] at overshoot pending
  refine ⟨sized_set bounded.sized nofun (Nat.zero_le _), ?_, ⟨granted, below, ?_, ?_⟩, bounded.excess⟩
  · simp only
    rw [overshoot]
    exact bounded.total
  · rw [pending]
    exact owed
  · intro open_scan
    obtain ⟨same, whole⟩ := exact_total open_scan
    have drained : sizes = [] := by
      rcases ends with drained | declined
      · exact drained
      · rw [open_scan] at declined
        exact nomatch declined
    subst drained
    have same_rows : ((s.units.set unit .finished).map ScanUnit.remaining).sum =
        (s.units.map ScanUnit.remaining).sum := Nat.add_right_cancel remaining
    rw [same_rows]
    exact ⟨same, whole⟩

theorem word_of_le {value : Nat} (fits : value ≤ idxMax) : word value = value :=
  Nat.mod_eq_of_lt (Nat.lt_succ_of_le fits)

theorem owed_fits (bounded : Bounded preflight maxRows keys s) (room : Room preflight maxRows budget keys.length)
    (at_unit : s.units[unit]? = some (.counted size sizes)) :
    s.reserved + size * manifestBytesPerRow ≤ budget := by
  have pending := load_set ScanUnit.pending (.reading sizes) at_unit
  have owed := reserve_fits bounded room
  simp only [ScanUnit.pending, Nat.add_zero] at pending
  rw [← pending, Nat.add_mul] at owed
  omega

theorem manifest_step_bounded (room : Room preflight maxRows budget keys.length) (e : ScanEvent)
    (bounded : Bounded preflight maxRows keys s) (step : manifestStep maxRows s e = some t) :
    Bounded preflight maxRows keys t := by
  cases e with
  | count unit =>
    simp only [manifestStep] at step
    split at step
    · rename_i size sizes at_unit
      have small := bounded.sized.vectors _ (List.mem_of_getElem? at_unit) size List.mem_cons_self
      rw [word_of_le (total_fits bounded room small)] at step
      split at step
      · cases step
        exact declined_bounded bounded at_unit ‹_›
      · cases step
        exact counted_bounded bounded at_unit (Nat.le_of_not_lt ‹_›)
    · exact nomatch step
  | grow unit =>
    simp only [manifestStep] at step
    split at step
    · rename_i size sizes at_unit
      have fits := owed_fits bounded room at_unit
      have top := room.budget
      rw [@word_of_le (size * manifestBytesPerRow) (by omega), word_of_le (by omega)] at step
      cases step
      exact grown_bounded bounded at_unit
    · exact nomatch step
  | finish unit =>
    simp only [manifestStep] at step
    split at step
    · rename_i sizes at_unit
      split at step
      · cases step
        exact finished_bounded bounded at_unit ‹_›
      · exact nomatch step
    · exact nomatch step

theorem manifest_run_bounded (room : Room preflight maxRows budget keys.length)
    (vectors : ∀ sizes ∈ keys, ∀ size ∈ sizes, size ≤ standardVectorSize) {events : List ScanEvent}
    (run : exec (manifestStep maxRows) (startScan preflight keys) events = some s) :
    Bounded preflight maxRows keys s :=
  exec_invariant (fun _ e _ bounded step => manifest_step_bounded room e bounded step) run
    (start_bounded preflight maxRows vectors)

structure StepsFit (budget : Nat) (s : ManifestState) : Prop where
  count : ∀ (unit size : Nat) (sizes : List Nat), s.units[unit]? = some (.reading (size :: sizes)) → s.totalRows + size ≤ idxMax
  bytes : ∀ (unit size : Nat) (sizes : List Nat), s.units[unit]? = some (.counted size sizes) → size * manifestBytesPerRow ≤ idxMax
  grow : ∀ (unit size : Nat) (sizes : List Nat), s.units[unit]? = some (.counted size sizes) →
    s.reserved + size * manifestBytesPerRow ≤ budget

theorem steps_fit (bounded : Bounded preflight maxRows keys s) (room : Room preflight maxRows budget keys.length) :
    StepsFit budget s := by
  constructor
  · intro unit size sizes at_unit
    apply total_fits bounded room
    exact bounded.sized.vectors _ (List.mem_of_getElem? at_unit) size List.mem_cons_self
  · intro unit size sizes at_unit
    have fits := owed_fits bounded room at_unit
    have top := room.budget
    omega
  · intro unit size sizes at_unit
    exact owed_fits bounded room at_unit

def Done (s : ManifestState) : Prop := ∀ unit ∈ s.units, unit = .finished ∨ unit = .declined

theorem done_exact (bounded : Bounded preflight maxRows keys s) (done : Done s) :
    (s.declined = false ↔ scanRows keys ≤ maxRows) ∧ (s.declined = false →
      s.totalRows = scanRows keys ∧ s.reserved = preflight + scanRows keys * manifestBytesPerRow) := by
  have idle : ∀ load : ScanUnit → Nat, load .finished = 0 → load .declined = 0 →
      (s.units.map load).sum = 0 := by
    intro load at_finished at_declined
    unfold Done at done
    generalize s.units = units at done
    induction units with
    | nil => rfl
    | cons unit units ih =>
      rw [List.map_cons, List.sum_cons, ih fun other listed => done other (List.mem_cons_of_mem unit listed)]
      rcases done unit List.mem_cons_self with rfl | rfl
      · exact at_finished
      · exact at_declined
  obtain ⟨granted, below, owed, exact_total⟩ := bounded.granted
  rw [idle ScanUnit.pending rfl rfl] at owed
  have remaining := idle ScanUnit.remaining rfl rfl
  have ended : s.declined = false → granted = scanRows keys ∧ s.totalRows = granted := by
    intro open_scan
    obtain ⟨same, whole⟩ := exact_total open_scan
    omega
  constructor
  · constructor
    · intro open_scan
      have whole := (ended open_scan).1
      omega
    · intro inside
      by_contra declined
      have past := (bounded.excess (by simpa using declined)).2
      omega
  · intro open_scan
    obtain ⟨rfl, same⟩ := ended open_scan
    exact ⟨same, by omega⟩

end Steps

end NgramManifestScan
