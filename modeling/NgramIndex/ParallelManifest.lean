import NgramIndex.ProbeExact
import NgramIndex.UnitPool

/- The manifest scan on several threads: a unit for each key, taken off a shared cursor,
   that reads its key's rows chunk by chunk. Whatever the order of their turns, the units
   collect what a scan of the keys one after the other collects. -/
namespace NgramParallelManifest
open NgramProbe UnitPool LabelledRun Fallible
variable {Key : Type} [DecidableEq Key]

/-- What a unit does next: look whether the scan goes on, before a span of committed rows
    or before each local chunk, or take in a chunk. -/
inductive ScanItem (Key : Type) where
  | span
  | localScan
  | chunk (rows : List (SegmentRow Key))

/-- What the host returns for a key: the chunks of each admitted span, and those of the
    rows that this transaction appended. -/
structure KeyScans (Key : Type) where
  spans : List (List (List (SegmentRow Key)))
  locals : List (List (SegmentRow Key))

def KeyScans.chunks (scans : KeyScans Key) : List (List (SegmentRow Key)) := scans.spans.flatten ++ scans.locals

/-- The local scan looks once more before it finds no further chunk. -/
def KeyScans.items (scans : KeyScans Key) : List (ScanItem Key) :=
  scans.spans.flatMap (fun span => .span :: span.map .chunk) ++
    scans.locals.flatMap (fun rows => [.localScan, .chunk rows]) ++ [.localScan]

inductive Stage (Key : Type) where
  | reading (rest : List (ScanItem Key))
  /-- The chunk is in the total, and within the bound. -/
  | counted (rows : List (SegmentRow Key)) (rest : List (ScanItem Key))
  /-- The chunk took the total past the bound, and the decline is not stored yet. -/
  | overrun (rows : List (SegmentRow Key)) (rest : List (ScanItem Key))

structure KeyUnit (Key : Type) where
  rows : GramRows
  stage : Stage Key

structure ScanTotals where
  totalRows : Nat
  declined : Bool
  reserved : Nat

inductive ScanFault where
  | interrupted
  | outOfMemory
  | malformed (reason : String)
  deriving DecidableEq

/-- The query may be cancelled at any time, and the host may refuse to reserve memory. -/
inductive ScanChoice where
  | proceed
  | interrupt
  | refuse
  deriving DecidableEq

def scanTurn (hwm : Int) (maxRows keyIndex : Nat) (key : Key) (choice : ScanChoice) (shared : ScanTotals)
    (own : KeyUnit Key) : Turn ScanTotals (KeyUnit Key) ScanFault :=
  match own.stage with
  | .reading [] => ⟨shared, own, .finished⟩
  | .reading (.span :: rest) =>
      if choice = .interrupt then ⟨shared, own, .raised .interrupted⟩
      else if shared.declined then ⟨shared, own, .finished⟩
      else ⟨shared, { own with stage := .reading rest }, .going⟩
  | .reading (.localScan :: rest) =>
      if shared.declined then ⟨shared, own, .finished⟩
      else if choice = .interrupt then ⟨shared, own, .raised .interrupted⟩
      else ⟨shared, { own with stage := .reading rest }, .going⟩
  | .reading (.chunk rows :: rest) =>
      let shared := { shared with totalRows := shared.totalRows + rows.length }
      if shared.totalRows > maxRows then ⟨shared, { own with stage := .overrun rows rest }, .going⟩
      else ⟨shared, { own with stage := .counted rows rest }, .going⟩
  | .counted rows rest =>
      if choice = .refuse then ⟨shared, own, .raised .outOfMemory⟩
      else
        let shared := { shared with reserved := shared.reserved + rows.length * manifestBytesPerRow }
        match rows.foldlM (appendRow keyIndex key hwm) own.rows with
        | .error reason => ⟨shared, own, .raised (.malformed reason)⟩
        | .ok grown => ⟨shared, ⟨grown, .reading rest⟩, .going⟩
  | .overrun _ _ => ⟨{ shared with declined := true }, own, .finished⟩

section Scan
variable (scans : Key → KeyScans Key) (hwm : Int) (maxRows : Nat) (keys : List Key)

def scanBody : Body keys.length ScanTotals (KeyUnit Key) ScanFault ScanChoice where
  enter unit := ⟨⟨[], 0⟩, .reading (scans keys[unit]).items⟩
  turn unit := scanTurn hwm maxRows unit keys[unit]

/-- One worker runs all units where more are not asked for or not needed. -/
def scanCrew (keys workers : Nat) : Nat :=
  if keys = 0 then 0 else if workers ≤ 1 ∨ keys = 1 then 1 else min workers keys

def startScan (reserved workers : Nat) : Pool keys.length ScanTotals (KeyUnit Key) ScanFault :=
  begin (scanBody scans hwm maxRows keys) ⟨0, false, reserved⟩ (scanCrew keys.length workers)

end Scan

def collected {n : Nat} (s : Pool n ScanTotals (KeyUnit Key) ScanFault) :
    Except ScanFault (Option (Nat × List GramRows)) :=
  match s.faults with
  | fault :: _ => .error fault
  | [] =>
    if s.shared.declined then .ok none
    else .ok (some (s.shared.totalRows, List.ofFn fun unit => (s.own unit).rows))

section Sequential
variable {chunks : Key → List (List (SegmentRow Key))} {hwm : Int} {maxRows : Nat}

theorem consumeChunks_some_iff {keyIndex : Nat} {key : Key} {chunks : List (List (SegmentRow Key))} {total : Nat}
    {rows : GramRows} {result : Nat × GramRows} (room : total ≤ maxRows) :
    consumeChunks keyIndex key hwm maxRows chunks total rows = .ok (some result) ↔
      result.1 = total + chunks.flatten.length ∧ result.1 ≤ maxRows ∧
        chunks.flatten.foldlM (appendRow keyIndex key hwm) rows = .ok result.2 := by
  induction chunks generalizing total rows with
  | nil =>
    constructor
    · intro run
      obtain rfl : (total, rows) = result := Option.some.inj (ok_inj run)
      exact ⟨rfl, room, rfl⟩
    · rintro ⟨same, _, run⟩
      obtain rfl : rows = result.2 := ok_inj run
      rw [List.flatten_nil, List.length_nil, Nat.add_zero] at same
      rw [consumeChunks, ← same]
  | cons chunk rest ih =>
    rw [consumeChunks, List.flatten_cons, List.length_append, List.foldlM_append]
    by_cases past : total + chunk.length > maxRows
    · rw [if_pos past]
      constructor
      · intro run
        cases ok_inj run
      · rintro ⟨same, fits, _⟩
        omega
    · rw [if_neg past]
      have later (grown : GramRows) := @ih (total + chunk.length) grown (Nat.le_of_not_lt past)
      constructor
      · intro run
        obtain ⟨grown, first, run⟩ := bind_ok run
        obtain ⟨same, fits, tail⟩ := (later grown).mp run
        exact ⟨by rw [same, Nat.add_assoc], fits, (bind_of_ok first).trans tail⟩
      · rintro ⟨same, fits, run⟩
        obtain ⟨grown, first, tail⟩ := bind_ok run
        exact (bind_of_ok first).trans ((later grown).mpr ⟨by rw [same, Nat.add_assoc], fits, tail⟩)

def Scanned (chunks : Key → List (List (SegmentRow Key))) (hwm : Int) (entry : Key × Nat) (rows : GramRows) : Prop :=
  (chunks entry.1).flatten.foldlM (appendRow entry.2 entry.1 hwm) ⟨[], 0⟩ = .ok rows

theorem collectGramRows_some_iff {start total : Nat} {keys : List Key} {result : Nat × List GramRows}
    (room : total ≤ maxRows) : collectGramRows chunks hwm maxRows start keys total = .ok (some result) ↔
      result.1 = total + (keys.map fun key => (chunks key).flatten.length).sum ∧ result.1 ≤ maxRows ∧
        List.Forall₂ (Scanned chunks hwm) (keys.zipIdx start) result.2 := by
  induction keys generalizing start total result with
  | nil =>
    obtain ⟨final, perKey⟩ := result
    constructor
    · intro run
      obtain ⟨rfl, rfl⟩ := Prod.mk.inj (Option.some.inj (ok_inj run))
      exact ⟨rfl, room, List.Forall₂.nil⟩
    · rintro ⟨same, _, none⟩
      cases none
      obtain rfl : final = total := same
      rfl
  | cons key rest ih =>
    obtain ⟨final, perKey⟩ := result
    rw [List.map_cons, List.sum_cons, List.zipIdx_cons]
    constructor
    · intro run
      obtain ⟨first, consumed, run⟩ := bind_ok run
      cases first with
      | none => cases ok_inj run
      | some first =>
        obtain ⟨others, collected, run⟩ := bind_ok run
        cases others with
        | none => cases ok_inj run
        | some others =>
          obtain ⟨rfl, rfl⟩ := Prod.mk.inj (Option.some.inj (ok_inj run))
          obtain ⟨same, fits, head⟩ := (consumeChunks_some_iff room).mp consumed
          obtain ⟨same', fits', tail⟩ := (ih fits).mp collected
          exact ⟨by rw [same', same, Nat.add_assoc], fits', List.Forall₂.cons head tail⟩
    · rintro ⟨same, fits, each⟩
      obtain ⟨rows, others, head, tail, rfl⟩ := List.forall₂_cons_left_iff.mp each
      have fits_first : total + (chunks key).flatten.length ≤ maxRows := by
        dsimp only at same fits
        omega
      have consumed := (@consumeChunks_some_iff _ _ hwm maxRows start key (chunks key) total ⟨[], 0⟩
        (total + (chunks key).flatten.length, rows) room).mpr ⟨rfl, fits_first, head⟩
      have collected := (@ih (start + 1) (total + (chunks key).flatten.length) (final, others) fits_first).mpr
        ⟨by rw [← Nat.add_assoc] at same; exact same, fits, tail⟩
      exact (bind_of_ok consumed).trans (bind_of_ok collected)

end Sequential

section Units
variable {scans : Key → KeyScans Key} {hwm : Int} {maxRows : Nat} {keys : List Key}

def chunksOf (items : List (ScanItem Key)) : List (List (SegmentRow Key)) :=
  items.filterMap fun item =>
    match item with
    | .chunk rows => some rows
    | _ => none

omit [DecidableEq Key] in
theorem items_chunks (scans : KeyScans Key) : chunksOf scans.items = scans.chunks := by
  have spanned (spans : List (List (List (SegmentRow Key)))) :
      chunksOf (spans.flatMap fun span => .span :: span.map .chunk) = spans.flatten := by
    induction spans with
    | nil => rfl
    | cons span rest ih =>
      have own : chunksOf (.span :: span.map .chunk) = span := by
        simp [chunksOf, List.filterMap_map]
      rw [List.flatMap_cons, List.flatten_cons, ← ih, ← own]
      simp only [own]
      rw [chunksOf, List.filterMap_append]
      exact congrArg (· ++ _) own
  have localRows (locals : List (List (SegmentRow Key))) :
      chunksOf (locals.flatMap fun rows => [.localScan, .chunk rows]) = locals := by
    induction locals with
    | nil => rfl
    | cons rows rest ih => exact congrArg (rows :: ·) ih
  rw [KeyScans.items, chunksOf, List.filterMap_append, List.filterMap_append, KeyScans.chunks]
  exact (List.append_nil _).trans (congrArg₂ (· ++ ·) (spanned scans.spans) (localRows scans.locals))

def Stage.ahead : Stage Key → List (List (SegmentRow Key))
  | .reading rest => chunksOf rest
  | .counted rows rest => rows :: chunksOf rest
  | .overrun rows rest => rows :: chunksOf rest

/-- The rows that a unit has not added to the total. -/
def Stage.uncounted : Stage Key → Nat
  | .reading rest => (chunksOf rest).flatten.length
  | .counted _ rest => (chunksOf rest).flatten.length
  | .overrun _ rest => (chunksOf rest).flatten.length

def Stage.turns : Stage Key → Nat
  | .reading rest => 2 * rest.length + 1
  | .counted _ rest => 2 * rest.length + 2
  | .overrun _ _ => 1

def Stage.overran : Stage Key → Bool
  | .overrun _ _ => true
  | _ => false

def TakenIn (chunks : List (List (SegmentRow Key))) (hwm : Int) (keyIndex : Nat) (key : Key) (own : KeyUnit Key) :
    Prop :=
  ∃ read, read ++ own.stage.ahead = chunks ∧
    read.flatten.foldlM (appendRow keyIndex key hwm) ⟨[], 0⟩ = .ok own.rows

def Blamed (chunks : List (List (SegmentRow Key))) (hwm : Int) (keyIndex : Nat) (key : Key) (choice : ScanChoice)
    (fault : ScanFault) : Prop :=
  choice ≠ .proceed ∨ ∃ reason, chunks.flatten.foldlM (appendRow keyIndex key hwm) ⟨[], 0⟩ = .error reason ∧
    fault = .malformed reason

/-- What one turn does: rows go from ahead to taken in, the total grows by what is no
    longer uncounted, and a decline is stored only past the bound. -/
structure TurnKeeps (chunks : List (List (SegmentRow Key))) (hwm : Int) (maxRows keyIndex : Nat) (key : Key)
    (choice : ScanChoice) (shared : ScanTotals) (own : KeyUnit Key) (turn : Turn ScanTotals (KeyUnit Key) ScanFault) :
    Prop where
  takenIn : TakenIn chunks hwm keyIndex key own → TakenIn chunks hwm keyIndex key turn.own
  total : turn.shared.totalRows + turn.own.stage.uncounted = shared.totalRows + own.stage.uncounted
  grows : shared.totalRows ≤ turn.shared.totalRows
  declines : turn.shared.declined = (shared.declined || own.stage.overran)
  past : turn.own.stage.overran = true → own.stage.overran = true ∨ maxRows < turn.shared.totalRows
  marks : maxRows < turn.shared.totalRows → maxRows < shared.totalRows ∨ turn.own.stage.overran = true
  stays : own.stage.overran = true → turn.own.stage.overran = true
  finished : turn.verdict = .finished → turn.shared.declined = true ∨ turn.own.stage = .reading []
  raised : ∀ fault, TakenIn chunks hwm keyIndex key own → turn.verdict = .raised fault →
    Blamed chunks hwm keyIndex key choice fault
  falls : turn.verdict = .going → turn.own.stage.turns < own.stage.turns

variable {chunks : List (List (SegmentRow Key))} {keyIndex : Nat} {key : Key} {choice : ScanChoice}
  {shared : ScanTotals} {own : KeyUnit Key}

/-- A unit that ends without taking anything in. -/
theorem ended_keeps {verdict : Verdict ScanFault} (within : own.stage.overran = false)
    (ends : verdict ≠ .going) (finished : verdict = .finished → shared.declined = true ∨ own.stage = .reading [])
    (raised : ∀ fault, verdict = .raised fault → choice ≠ .proceed) :
    TurnKeeps chunks hwm maxRows keyIndex key choice shared own ⟨shared, own, verdict⟩ where
  takenIn := id
  total := rfl
  grows := Nat.le_refl _
  declines := by rw [within, Bool.or_false]
  past := .inl
  marks := .inl
  stays := id
  finished := finished
  raised fault _ same := .inl (raised fault same)
  falls going := absurd going ends

theorem looked_keeps {rows : GramRows} {item : ScanItem Key} {rest : List (ScanItem Key)}
    (look : chunksOf (item :: rest) = chunksOf rest) :
    TurnKeeps chunks hwm maxRows keyIndex key choice shared ⟨rows, .reading (item :: rest)⟩
      ⟨shared, ⟨rows, .reading rest⟩, .going⟩ where
  takenIn := by
    rintro ⟨read, whole, fold⟩
    exact ⟨read, (congrArg (read ++ ·) look).symm.trans whole, fold⟩
  total := by
    dsimp only [Stage.uncounted]
    rw [look]
  grows := Nat.le_refl _
  declines := (Bool.or_false _).symm
  past := .inl
  marks := .inl
  stays := id
  finished going := by cases going
  raised fault _ going := by cases going
  falls _ := by
    dsimp only [Stage.turns]
    rw [List.length_cons]
    omega

section Chunk
variable {rows : GramRows} {taken : List (SegmentRow Key)} {rest : List (ScanItem Key)}

omit [DecidableEq Key] in
theorem chunk_length : (chunksOf (.chunk taken :: rest)).flatten.length =
    taken.length + (chunksOf rest).flatten.length := by
  rw [show chunksOf (.chunk taken :: rest) = taken :: chunksOf rest from rfl, List.flatten_cons, List.length_append]

theorem overran_keeps (past : maxRows < shared.totalRows + taken.length) :
    TurnKeeps chunks hwm maxRows keyIndex key choice shared ⟨rows, .reading (.chunk taken :: rest)⟩
      ⟨{ shared with totalRows := shared.totalRows + taken.length }, ⟨rows, .overrun taken rest⟩, .going⟩ where
  takenIn := id
  total := by
    have lengths := @chunk_length _ taken rest
    dsimp only [Stage.uncounted]
    omega
  grows := Nat.le_add_right _ _
  declines := (Bool.or_false _).symm
  past _ := .inr past
  marks _ := .inr rfl
  stays _ := rfl
  finished going := by cases going
  raised fault _ going := by cases going
  falls _ := by
    dsimp only [Stage.turns]
    rw [List.length_cons]
    omega

theorem counted_keeps (fits : ¬ maxRows < shared.totalRows + taken.length) :
    TurnKeeps chunks hwm maxRows keyIndex key choice shared ⟨rows, .reading (.chunk taken :: rest)⟩
      ⟨{ shared with totalRows := shared.totalRows + taken.length }, ⟨rows, .counted taken rest⟩, .going⟩ where
  takenIn := id
  total := by
    have lengths := @chunk_length _ taken rest
    dsimp only [Stage.uncounted]
    omega
  grows := Nat.le_add_right _ _
  declines := (Bool.or_false _).symm
  past := .inl
  marks past := absurd past fits
  stays := id
  finished going := by cases going
  raised fault _ going := by cases going
  falls _ := by
    dsimp only [Stage.turns]
    rw [List.length_cons]
    omega

/-- A chunk is appended after the chunks that the unit has taken in. -/
theorem chunk_appended {read : List (List (SegmentRow Key))}
    (fold : read.flatten.foldlM (appendRow keyIndex key hwm) ⟨[], 0⟩ = .ok rows) :
    (read ++ [taken]).flatten.foldlM (appendRow keyIndex key hwm) ⟨[], 0⟩ =
      taken.foldlM (appendRow keyIndex key hwm) rows := by
  rw [List.flatten_append, List.foldlM_append, bind_of_ok fold, List.flatten_singleton]

theorem malformed_keeps {reason : String} {reserved : Nat}
    (failed : taken.foldlM (appendRow keyIndex key hwm) rows = .error reason) :
    TurnKeeps chunks hwm maxRows keyIndex key choice shared ⟨rows, .counted taken rest⟩
      ⟨{ shared with reserved := reserved }, ⟨rows, .counted taken rest⟩, .raised (.malformed reason)⟩ where
  takenIn := id
  total := rfl
  grows := Nat.le_refl _
  declines := (Bool.or_false _).symm
  past := .inl
  marks := .inl
  stays := id
  finished going := by cases going
  raised fault taken_in same := by
    obtain ⟨read, whole, fold⟩ := taken_in
    obtain rfl := Verdict.raised.inj same
    refine .inr ⟨reason, ?_, rfl⟩
    have split_here : (read ++ [taken]) ++ chunksOf rest = chunks := (List.append_assoc _ _ _).trans whole
    rw [← split_here, List.flatten_append, List.foldlM_append, chunk_appended fold, failed]
    rfl
  falls going := by cases going

theorem taken_keeps {grown : GramRows} {reserved : Nat}
    (run : taken.foldlM (appendRow keyIndex key hwm) rows = .ok grown) :
    TurnKeeps chunks hwm maxRows keyIndex key choice shared ⟨rows, .counted taken rest⟩
      ⟨{ shared with reserved := reserved }, ⟨grown, .reading rest⟩, .going⟩ where
  takenIn := by
    rintro ⟨read, whole, fold⟩
    exact ⟨read ++ [taken], (List.append_assoc _ _ _).trans whole, (chunk_appended fold).trans run⟩
  total := rfl
  grows := Nat.le_refl _
  declines := (Bool.or_false _).symm
  past := .inl
  marks := .inl
  stays := id
  finished going := by cases going
  raised fault _ going := by cases going
  falls _ := Nat.lt_succ_self _

theorem declined_keeps : TurnKeeps chunks hwm maxRows keyIndex key choice shared ⟨rows, .overrun taken rest⟩
    ⟨{ shared with declined := true }, ⟨rows, .overrun taken rest⟩, .finished⟩ where
  takenIn := id
  total := rfl
  grows := Nat.le_refl _
  declines := (Bool.or_true _).symm
  past := .inl
  marks := .inl
  stays := id
  finished _ := .inl rfl
  raised fault _ going := by cases going
  falls going := by cases going

end Chunk

theorem scan_turn_keeps : TurnKeeps chunks hwm maxRows keyIndex key choice shared own
      (scanTurn hwm maxRows keyIndex key choice shared own) := by
  obtain ⟨rows, stage⟩ := own
  cases stage with
  | reading rest =>
    cases rest with
    | nil => exact ended_keeps rfl (by simp) (fun _ => .inr rfl) (by simp)
    | cons item rest =>
      cases item with
      | span =>
        unfold scanTurn
        dsimp only
        split
        next cancel => exact ended_keeps rfl (by simp) (by simp) fun _ _ => by rw [cancel]; simp
        · split
          next declined => exact ended_keeps rfl (by simp) (fun _ => .inl declined) (by simp)
          · exact looked_keeps rfl
      | localScan =>
        unfold scanTurn
        dsimp only
        split
        next declined => exact ended_keeps rfl (by simp) (fun _ => .inl declined) (by simp)
        · split
          next cancel => exact ended_keeps rfl (by simp) (by simp) fun _ _ => by rw [cancel]; simp
          · exact looked_keeps rfl
      | chunk taken =>
        unfold scanTurn
        dsimp only
        split
        next past => exact overran_keeps past
        next fits => exact counted_keeps fits
  | counted taken rest =>
    unfold scanTurn
    dsimp only
    split
    next refused => exact ended_keeps rfl (by simp) (by simp) fun _ _ => by rw [refused]; simp
    · split
      next failed => exact malformed_keeps failed
      next run => exact taken_keeps run
  | overrun taken rest => exact declined_keeps

end Units

section Run
variable {scans : Key → KeyScans Key} {hwm : Int} {maxRows : Nat} {keys : List Key} {reserved workers : Nat}
  {s : Pool keys.length ScanTotals (KeyUnit Key) ScanFault}

def keyChunks (scans : Key → KeyScans Key) (key : Key) : List (List (SegmentRow Key)) := (scans key).chunks

def UnitTakes (scans : Key → KeyScans Key) (hwm : Int) (maxRows : Nat) (keys : List Key) (unit : Fin keys.length)
    (shared : ScanTotals) (own : KeyUnit Key) : Prop :=
  TakenIn (keyChunks scans keys[unit]) hwm unit keys[unit] own ∧
    (own.stage.overran = true → maxRows < shared.totalRows)

def ScanBlames (scans : Key → KeyScans Key) (hwm : Int) (keys : List Key) (allowed : ScanChoice → Prop)
    (fault : ScanFault) : Prop :=
  ∃ choice, allowed choice ∧ ∃ unit : Fin keys.length,
    Blamed (keyChunks scans keys[unit]) hwm unit keys[unit] choice fault

theorem unit_turn (scans : Key → KeyScans Key) (hwm : Int) (maxRows : Nat) (unit : Fin keys.length)
    (choice : ScanChoice) (shared : ScanTotals) (own : KeyUnit Key) :
    TurnKeeps (keyChunks scans keys[unit]) hwm maxRows unit keys[unit] choice shared own
      ((scanBody scans hwm maxRows keys).turn unit choice shared own) :=
  scan_turn_keeps

theorem scan_guarded (scans : Key → KeyScans Key) (hwm : Int) (maxRows : Nat) (keys : List Key)
    (allowed : ScanChoice → Prop) : Guarded (scanBody scans hwm maxRows keys) allowed
      (fun shared => shared.declined = true → maxRows < shared.totalRows) (UnitTakes scans hwm maxRows keys)
      (fun _ shared own => shared.declined = true ∨ own.stage = .reading []) (ScanBlames scans hwm keys allowed)
      (fun shared later => shared.totalRows ≤ later.totalRows ∧ (shared.declined = true → later.declined = true)) where
  keeps unit choice shared own _ common takes := by
    have turn := unit_turn scans hwm maxRows unit choice shared own
    refine ⟨fun declined => ?_, turn.takenIn takes.1, fun overran => ?_⟩
    · have before := turn.declines.symm.trans declined
      rcases Bool.or_eq_true_iff.mp before with earlier | overran
      · exact Nat.lt_of_lt_of_le (common earlier) turn.grows
      · exact Nat.lt_of_lt_of_le (takes.2 overran) turn.grows
    · rcases turn.past overran with earlier | now
      · exact Nat.lt_of_lt_of_le (takes.2 earlier) turn.grows
      · exact now
  relied unit choice shared own takes := by
    have turn := unit_turn scans hwm maxRows unit choice shared own
    exact ⟨turn.grows, fun declined => turn.declines.trans (by rw [declined, Bool.true_or])⟩
  finishes unit choice shared own takes ends :=
    (unit_turn scans hwm maxRows unit choice shared own).finished ends
  raises unit choice shared own fault permitted takes raised :=
    ⟨choice, permitted, unit, (unit_turn scans hwm maxRows unit choice shared own).raised fault takes.1 raised⟩
  inv_stable _ _ _ _ relied takes := ⟨takes.1, fun overran => Nat.lt_of_lt_of_le (takes.2 overran) relied.1⟩
  post_stable _ _ _ _ relied ends := ends.imp_left relied.2

theorem crew_enough (keys workers : Nat) : 0 < scanCrew keys workers ∨ keys = 0 := by
  unfold scanCrew
  split
  next none => exact .inr none
  · split
    · exact .inl Nat.one_pos
    · exact .inl (by omega)

theorem scan_holds {events : List (Nat × ScanChoice)} {allowed : ScanChoice → Prop}
    (permitted : ∀ e ∈ events, allowed e.2)
    (run : exec (step (scanBody scans hwm maxRows keys)) (startScan scans hwm maxRows keys reserved workers) events =
      some s) : Disciplined (scanCrew keys.length workers) s ∧
    Holds (fun shared => shared.declined = true → maxRows < shared.totalRows) (UnitTakes scans hwm maxRows keys)
      (fun _ shared own => shared.declined = true ∨ own.stage = .reading []) (ScanBlames scans hwm keys allowed) s := by
  refine run_holds (scan_guarded scans hwm maxRows keys allowed) (fun declined => by cases declined) (fun unit => ?_)
    permitted run
  exact ⟨⟨[], items_chunks _, rfl⟩, fun overran => by cases overran⟩

def allRows (scans : Key → KeyScans Key) (keys : List Key) : Nat :=
  (keys.map fun key => (keyChunks scans key).flatten.length).sum

theorem scan_counted {events : List (Nat × ScanChoice)}
    (run : exec (step (scanBody scans hwm maxRows keys)) (startScan scans hwm maxRows keys reserved workers) events =
      some s) : s.shared.totalRows + ∑ unit, (s.own unit).stage.uncounted = allRows scans keys := by
  have metered := @run_metered _ _ _ _ _ (scanBody scans hwm maxRows keys) _ _ ScanTotals.totalRows
    (fun _ own => own.stage.uncounted) (fun unit choice shared own =>
      (unit_turn scans hwm maxRows unit choice shared own).total) _ run
  have start (unit : Fin keys.length) :
      ((startScan scans hwm maxRows keys reserved workers).own unit).stage.uncounted =
        (keyChunks scans keys[unit]).flatten.length :=
      congrArg (fun chunks => chunks.flatten.length) (items_chunks (scans keys[unit]))
  have whole : ∑ unit : Fin keys.length, (keyChunks scans keys[unit]).flatten.length = allRows scans keys :=
    Fin.sum_univ_fun_getElem keys fun key => (keyChunks scans key).flatten.length
  rw [metered, Finset.sum_congr rfl fun unit _ => start unit, whole]
  exact Nat.zero_add _

theorem scan_within {events : List (Nat × ScanChoice)}
    (run : exec (step (scanBody scans hwm maxRows keys)) (startScan scans hwm maxRows keys reserved workers) events =
      some s) (past : maxRows < s.shared.totalRows) : ∃ unit, (s.own unit).stage.overran = true := by
  refine @run_marked _ _ _ _ _ (scanBody scans hwm maxRows keys) _ _ (fun shared => maxRows < shared.totalRows)
    (fun own => own.stage.overran = true) (fun unit choice shared own => ?_) (fun unit choice shared own => ?_) _
    (Nat.not_lt_zero _) run past
  · exact (unit_turn scans hwm maxRows unit choice shared own).marks
  · exact (unit_turn scans hwm maxRows unit choice shared own).stays

theorem scanned_each {result : Nat × List GramRows}
    (collected : collectGramRows (keyChunks scans) hwm maxRows 0 keys 0 = .ok (some result)) :
    result.1 = allRows scans keys ∧ result.1 ≤ maxRows ∧ result.2.length = keys.length ∧
      ∀ unit : Fin keys.length, ∀ inside : unit.1 < result.2.length,
        Scanned (keyChunks scans) hwm (keys[unit], unit) (result.2.get ⟨unit, inside⟩) := by
  obtain ⟨total, fits, each⟩ := (collectGramRows_some_iff (Nat.zero_le _)).mp collected
  obtain ⟨sized, rows⟩ := List.forall₂_iff_get.mp each
  rw [List.length_zipIdx] at sized
  refine ⟨total.trans (Nat.zero_add _), fits, sized.symm, fun unit inside => ?_⟩
  have here := rows unit (by rw [List.length_zipIdx]; exact unit.isLt) inside
  simpa using here

theorem scan_completes {events : List (Nat × ScanChoice)}
    (run : exec (step (scanBody scans hwm maxRows keys)) (startScan scans hwm maxRows keys reserved workers) events =
      some s) (done : Done s) (faultless : s.faults = []) (kept : s.shared.declined = false) :
    collectGramRows (keyChunks scans) hwm maxRows 0 keys 0 =
      .ok (some (s.shared.totalRows, List.ofFn fun unit => (s.own unit).rows)) := by
  obtain ⟨disciplined, holds⟩ := @scan_holds _ _ _ _ _ _ _ _ _ _ (fun _ => True) (fun _ _ => trivial) run
  have ended (unit : Fin keys.length) : (s.own unit).stage = .reading [] := by
    have finished := done_finished disciplined done faultless (crew_enough _ _) unit
    exact (holds.finished unit finished).resolve_left (by rw [kept]; exact Bool.false_ne_true)
  have total : s.shared.totalRows = allRows scans keys := by
    rw [← scan_counted run, Finset.sum_eq_zero fun unit _ => by rw [ended unit]; rfl]
    rfl
  have fits : s.shared.totalRows ≤ maxRows := by
    by_contra past
    obtain ⟨unit, overran⟩ := scan_within run (Nat.lt_of_not_le past)
    rw [ended unit] at overran
    cases overran
  refine (collectGramRows_some_iff (Nat.zero_le _)).mpr ⟨total.trans (Nat.zero_add _).symm, fits, ?_⟩
  refine List.forall₂_iff_get.mpr ⟨by rw [List.length_zipIdx, List.length_ofFn], fun place inside _ => ?_⟩
  rw [List.length_zipIdx] at inside
  obtain ⟨⟨read, whole, rows⟩, _⟩ := holds.units ⟨place, inside⟩
  rw [ended ⟨place, inside⟩] at whole
  obtain rfl : read = keyChunks scans keys[place] := (List.append_nil read).symm.trans whole
  simpa [Scanned] using rows

end Run

/-- Whatever the order of the workers' turns, a scan ends, and what it then has collected
    is what one scan of the keys in their order collects; where that collects something
    and nothing interferes, so does every order. -/
theorem parallel_scan_collects (scans : Key → KeyScans Key) (hwm : Int) (maxRows : Nat) (keys : List Key)
    (reserved workers : Nat) :
    (∃ bound, ∀ events s, exec (step (scanBody scans hwm maxRows keys))
        (startScan scans hwm maxRows keys reserved workers) events = some s →
      events.length ≤ bound ∧ ∃ rest t, (∀ e ∈ rest, e.2 = .proceed) ∧
        exec (step (scanBody scans hwm maxRows keys)) s rest = some t ∧ Done t) ∧
    ∀ events s, exec (step (scanBody scans hwm maxRows keys))
        (startScan scans hwm maxRows keys reserved workers) events = some s → Done s →
      (∀ result, collected s = .ok (some result) →
        collectGramRows (keyChunks scans) hwm maxRows 0 keys 0 = .ok (some result)) ∧
      (collected s = .ok none → maxRows < allRows scans keys) ∧
      ((∀ e ∈ events, e.2 = .proceed) → ∀ result,
        collectGramRows (keyChunks scans) hwm maxRows 0 keys 0 = .ok (some result) →
          collected s = .ok (some result)) := by
  have falls : ∀ unit choice shared own, ((scanBody scans hwm maxRows keys).turn unit choice shared own).verdict =
      .going → ((scanBody scans hwm maxRows keys).turn unit choice shared own).own.stage.turns < own.stage.turns :=
    fun unit choice shared own =>
      (unit_turn scans hwm maxRows unit choice shared own).falls
  constructor
  · have start := begin_disciplined (scanBody scans hwm maxRows keys) ⟨0, false, reserved⟩
      (scanCrew keys.length workers)
    have bounded {events : List (Nat × ScanChoice)} {s : Pool keys.length ScanTotals (KeyUnit Key) ScanFault} :=
      @run_bounded _ _ _ _ _ _ _ s _ (fun _ own => own.stage.turns) events start falls
    refine ⟨_, fun events s run => ⟨bounded run, ?_⟩⟩
    obtain ⟨disciplined, _⟩ := @scan_holds _ _ _ _ _ _ _ _ _ _ (fun _ => True) (fun _ _ => trivial) run
    exact @run_ends _ _ _ _ _ _ _ _ (fun _ own => own.stage.turns) .proceed disciplined falls
  · intro events s run done
    have declines (declined : s.shared.declined = true) : maxRows < allRows scans keys := by
      obtain ⟨_, holds⟩ := @scan_holds _ _ _ _ _ _ _ _ _ _ (fun _ => True) (fun _ _ => trivial) run
      exact Nat.lt_of_lt_of_le (holds.common declined) (Nat.le.intro (scan_counted run))
    refine ⟨fun result got => ?_, fun got => ?_, fun alone result got => ?_⟩
    · unfold collected at got
      split at got
      · cases got
      next faultless =>
        split at got
        · cases ok_inj got
        next kept =>
          obtain rfl := Option.some.inj (ok_inj got)
          exact scan_completes run done faultless (Bool.eq_false_iff.mpr kept)
    · unfold collected at got
      split at got
      · cases got
      · split at got
        next declined => exact declines declined
        · cases ok_inj got
    · obtain ⟨total, fits, sized, each⟩ := scanned_each got
      obtain ⟨_, holds⟩ := @scan_holds _ _ _ _ _ _ _ _ _ _ (· = .proceed) alone run
      have faultless : s.faults = [] := by
        refine List.eq_nil_iff_forall_not_mem.mpr fun fault listed => ?_
        obtain ⟨choice, rfl, unit, blamed⟩ := holds.faults fault listed
        obtain ⟨reason, failed, _⟩ := blamed.resolve_left (not_not.mpr rfl)
        have fine := each unit (by rw [sized]; exact unit.isLt)
        cases failed.symm.trans fine
      have kept : s.shared.declined = false := by
        by_contra declined
        have past := declines (Bool.eq_true_of_not_eq_false declined)
        omega
      have same := scan_completes run done faultless kept
      rw [got] at same
      unfold collected
      rw [faultless, kept]
      exact (congrArg Except.ok (ok_inj same)).symm

def manifestRow (key postingRowid : Nat) : SegmentRow Nat := ⟨postingRowid, key, 0, 0, [], 2, 0, 3⟩

def twoRowScans (key : Nat) : KeyScans Nat := ⟨[[[manifestRow key key]]], [[manifestRow key (key + 1)]]⟩

def twoKeyRows : Nat × List GramRows :=
  (4, [⟨[⟨0, 0, 3, 2, 0, 3⟩, ⟨0, 0, 4, 2, 0, 3⟩], 4⟩, ⟨[⟨0, 1, 5, 2, 0, 3⟩, ⟨0, 1, 6, 2, 0, 3⟩], 4⟩])

theorem two_keys_collected : ∃ events t, exec (step (scanBody twoRowScans 12 10 [3, 5]))
    (startScan twoRowScans 12 10 [3, 5] 0 4) events = some t ∧ Done t ∧ collected t = .ok (some twoKeyRows) := by
  obtain ⟨⟨_, ends⟩, order⟩ := parallel_scan_collects twoRowScans 12 10 [3, 5] 0 4
  obtain ⟨_, events, t, alone, run, done⟩ := ends [] _ rfl
  exact ⟨events, t, run, done, (order events t run done).2.2 alone twoKeyRows rfl⟩

end NgramParallelManifest
